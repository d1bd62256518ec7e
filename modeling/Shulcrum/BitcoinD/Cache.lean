import Shulcrum.BitcoinD.Answers

/-!
# Results from the cache

The result of a request without parameters may be kept for later requests of
the same method.

**Results.**
* `cached_reply`: a result from the cache was the answer to a request of the
  same method, and it is as recent as the request asks for.
-/

namespace Shulcrum
namespace BitcoinDMgr
namespace Mgr

open Invariant

variable {V : Type} {m m' m'' : Mgr V} {i : CtxRef}

/-- A request of the method was answered with the result at this time, and its result was to be
cached. -/
def Received (m : Mgr V) (method : String) (result : V) (time : Int) : Prop :=
  ∃ a ∈ m.log, ∃ c response, m.ctx? a.ctx = some c ∧ c.method = method ∧
    c.maxAge.isSome = true ∧ a.signal = .results response ∧ response.result = result ∧
    a.time = time

/-- What the cache holds was received, and so was what is on its way from there. -/
structure CacheOk (m : Mgr V) : Prop where
  table : ∀ method r, m.cachedResultsTable.lookup method = some r →
    m.Received method r.result r.timeStamp
  replies : ∀ r ∈ m.cachedReplies, ∃ time, m.Received r.method r.result time ∧
    0 ≤ r.time - time ∧ r.time - time ≤ r.notOlderThan

/-- Contexts stay, and so do answers. -/
structure Extends (m m' : Mgr V) : Prop where
  ctx : ∀ i c, m.ctx? i = some c →
    ∃ c', m'.ctx? i = some c' ∧ c'.method = c.method ∧ c'.maxAge = c.maxAge
  log : ∀ a ∈ m.log, a ∈ m'.log

namespace Extends

theorem refl (m : Mgr V) : Extends m m := ⟨fun _ c hc => ⟨c, hc, rfl, rfl⟩, fun _ => id⟩

theorem trans (h : Extends m m') (h' : Extends m' m'') : Extends m m'' where
  ctx := by
    intro i c hc
    obtain ⟨c', hc', hmethod, hage⟩ := h.ctx i c hc
    obtain ⟨c'', hc'', hmethod', hage'⟩ := h'.ctx i c' hc'
    exact ⟨c'', hc'', hmethod'.trans hmethod, hage'.trans hage⟩
  log := fun a ha => h'.log a (h.log a ha)

theorem received (h : Extends m m') {method : String} {result : V} {time : Int}
    (hr : m.Received method result time) : m'.Received method result time := by
  obtain ⟨a, ha, c, response, hc, rfl, hage, hrest⟩ := hr
  obtain ⟨c', hc', hmethod, hage'⟩ := h.ctx _ c hc
  exact ⟨a, h.log a ha, c', response, hc', hmethod, by rw [hage']; exact hage, hrest⟩

theorem of_eq (hctxs : m'.ctxs = m.ctxs) (hlog : m'.log = m.log) : Extends m m' where
  ctx := by
    intro i c hc
    exact ⟨c, by rw [ctx?, hctxs]; exact hc, rfl, rfl⟩
  log := by
    rw [hlog]
    exact fun _ => id

theorem update (m : Mgr V) (i : CtxRef) {f : ReqCtxObj V → ReqCtxObj V}
    (hf : ∀ c, (f c).method = c.method ∧ (f c).maxAge = c.maxAge) : Extends m (m.update i f) where
  ctx := by
    intro j c hc
    rw [ctx?_update, hc]
    split_ifs
    · exact ⟨f c, rfl, hf c⟩
    · exact ⟨c, rfl, rfl, rfl⟩
  log := fun _ => id

theorem emit (m : Mgr V) (i : CtxRef) (signal : Signal V) : Extends m (m.emit i signal) := by
  refine update m i fun c => ?_
  split_ifs <;> exact ⟨rfl, rfl⟩

end Extends

/-- Steps that leave the cache as it is. -/
theorem CacheOk.same (h : CacheOk m) (hext : Extends m m')
    (htable : m'.cachedResultsTable = m.cachedResultsTable)
    (hreplies : m'.cachedReplies = m.cachedReplies) : CacheOk m' where
  table := by
    intro method r hr
    rw [htable] at hr
    exact hext.received (h.table method r hr)
  replies := by
    intro r hr
    rw [hreplies] at hr
    obtain ⟨time, hrec, hage⟩ := h.replies r hr
    exact ⟨time, hext.received hrec, hage⟩

/-- Entries and replies may be dropped. -/
theorem CacheOk.drop (h : CacheOk m) (hext : Extends m m')
    (htable : ∀ method r, m'.cachedResultsTable.lookup method = some r →
      m.cachedResultsTable.lookup method = some r)
    (hreplies : ∀ r ∈ m'.cachedReplies, r ∈ m.cachedReplies) : CacheOk m' where
  table := fun method r hr => hext.received (h.table method r (htable method r hr))
  replies := by
    intro r hr
    obtain ⟨time, hrec, hage⟩ := h.replies r (hreplies r hr)
    exact ⟨time, hext.received hrec, hage⟩

section Steps

theorem CacheOk.emit (h : CacheOk m) (i : CtxRef) (signal : Signal V) :
    CacheOk (m.emit i signal) :=
  h.same (.emit m i signal) rfl rfl

theorem CacheOk.update (h : CacheOk m) (i : CtxRef) {f : ReqCtxObj V → ReqCtxObj V}
    (hf : ∀ c, (f c).method = c.method ∧ (f c).maxAge = c.maxAge) : CacheOk (m.update i f) :=
  h.same (.update m i hf) rfl rfl

theorem CacheOk.submitRequest (h : CacheOk m) (sender : Nat) (rid : Id) (method : String)
    (noParams : Bool) (timeout : Int) (ok : Option Int) (now : Int) :
    CacheOk (m.submitRequest sender rid method noParams timeout ok now) := by
  obtain ⟨r, limit, hr, hpos, hle, heq⟩ | ⟨c, -, -, -, -, heq⟩ :=
    submitRequest_cases m sender rid method noParams timeout ok now
  · rw [heq]
    refine ⟨h.table, ?_⟩
    intro r' hr'
    rcases List.mem_append.mp hr' with hr' | hr'
    · exact h.replies r' hr'
    · rw [List.mem_singleton.mp hr']
      exact ⟨r.timeStamp, h.table method r hr, hpos, hle⟩
  · rw [heq]
    refine h.same ⟨?_, fun _ => id⟩ rfl rfl
    intro i c' hi
    refine ⟨c', ?_, rfl, rfl⟩
    rw [ctx?_append, if_neg ?_]
    · exact hi
    · rintro rfl
      rw [ctx?, List.getElem?_eq_none (le_refl _)] at hi
      cases hi

theorem CacheOk.assign (h : CacheOk m) (i : CtxRef) (rid : Id) (bd : Nat) (now : Int) :
    CacheOk (m.assign i rid bd now) := by
  have h₁ : CacheOk (m.update i fun c => { c with bd := some bd }) :=
    h.update i fun _ => ⟨rfl, rfl⟩
  rw [Mgr.assign]
  split_ifs
  · have h₂ := h₁.update i (f := fun c => { c with ts := now, hooked := true })
      fun _ => ⟨rfl, rfl⟩
    exact h₂.same (.of_eq rfl rfl) rfl rfl
  · exact h₁.emit i _

theorem CacheOk.handleMessage (h : CacheOk m) (msg : Message V) (signal : Signal V) :
    CacheOk (m.handleMessageCommon msg signal) := by
  rcases handleMessageCommon_cases m msg signal with ⟨i, -, -, heq⟩ | ⟨-, n, heq⟩
  · rw [heq]
    exact (h.same (.of_eq rfl rfl) rfl rfl : CacheOk { m with
      reqContextTable := m.reqContextTable.erase msg.id }).emit i signal
  · rw [heq]
    exact h.same (.of_eq rfl rfl) rfl rfl

theorem CacheOk.checkTimeout (h : CacheOk m) (now : Int) (entry : Id × CtxRef) :
    CacheOk (checkTimeout now m entry) := by
  rw [Mgr.checkTimeout]
  split_ifs
  · have h₁ : CacheOk (m.setTimedOut entry.2) :=
      (h.update entry.2 (f := fun c => { c with timedOut := true }) fun _ => ⟨rfl, rfl⟩).same
        (.of_eq rfl rfl) rfl rfl
    exact h₁.emit _ _
  · exact h

theorem CacheOk.failIfMatching (h : CacheOk m) (bd : Nat) (errorMessage : String)
    (entry : Id × CtxRef) : CacheOk (failIfMatching bd errorMessage m entry) := by
  rw [Mgr.failIfMatching]
  split_ifs
  · exact h.emit _ _
  · exact h

theorem CacheOk.notifyFail (h : CacheOk m) (bd : Nat) (errorMessage : String) :
    CacheOk (m.notifyFail bd errorMessage) :=
  foldl_entries h (table_failIfMatching bd errorMessage) fun _ _ _ hm _ =>
    hm.failIfMatching bd errorMessage _

/-- Expired entries are removed, and no others come in. -/
theorem lookup_of_expire (now : Int) (methods : List String)
    (t : AList (fun _ : String => CachedResult V)) {method : String} {r : CachedResult V}
    (h : (methods.foldl (eraseIfOld now) t).lookup method = some r) :
    t.lookup method = some r := by
  induction methods generalizing t with
  | nil => exact h
  | cons method' methods ih =>
      have h' := ih _ h
      rw [eraseIfOld] at h'
      split_ifs at h'
      · by_cases heq : method = method'
        · subst heq
          rw [AList.lookup_erase] at h'
          cases h'
        · rw [AList.lookup_erase_ne heq] at h'
          exact h'
      · exact h'

/-- The answer to a request may enter the cache. -/
theorem CacheOk.deliver (h : CacheOk m) {now : Int} (hstep : m.deliver i now = some m') :
    CacheOk m' := by
  obtain ⟨c, signal, pending, hc, -, hm'⟩ := deliver_cases hstep
  have h₁ : Extends m (m.update i fun c =>
      { c with pending := pending, replied := true, connected := false }) :=
    .update m i fun _ => ⟨rfl, rfl⟩
  rcases hm' with ⟨-, rfl⟩ | ⟨-, t, rfl, ht⟩
  · exact h.same h₁ rfl rfl
  · have hext : Extends m { (m.update i fun c =>
        { c with pending := pending, replied := true, connected := false }) with
        log := { ctx := i, signal := signal, time := now } :: m.log
        cachedResultsTable := t } :=
      ⟨h₁.ctx, fun a ha => List.mem_cons_of_mem _ ha⟩
    rcases ht with rfl | ⟨response, maxAge, rfl, hage, rfl⟩
    · exact h.same hext rfl rfl
    · constructor
      · intro method r hr
        by_cases hmethod : method = c.method
        · subst hmethod
          rw [AList.lookup_insert, Option.some.injEq] at hr
          subst hr
          refine ⟨_, List.mem_cons_self, ?_⟩
          obtain ⟨c', hc', hm, ha⟩ := hext.ctx i c hc
          exact ⟨c', response, hc', hm, by rw [ha, hage]; rfl, rfl, rfl, rfl⟩
        · rw [AList.lookup_insert_ne hmethod] at hr
          exact hext.received (h.table method r hr)
      · intro r hr
        obtain ⟨time, hrec, hbound⟩ := h.replies r hr
        exact ⟨time, hext.received hrec, hbound⟩

/-- Every step keeps the origin of what is cached. -/
theorem CacheOk.step (h : CacheOk m) (hstep : Step m m') : CacheOk m' := by
  cases hstep with
  | submit rid method noParams timeout ok now hsender => exact h.submitRequest _ _ _ _ _ _ _
  | dispatch hstep =>
      obtain ⟨i, queue, c, cursor, -, -, hm'⟩ := dispatch_cases hstep
      have hpop : CacheOk ({ m with queue := queue, roundRobinCursor := cursor } : Mgr V) :=
        h.same (.of_eq rfl rfl) rfl rfl
      rcases hm' with ⟨reason, rfl⟩ | ⟨bd, rfl⟩
      · exact hpop.emit i _
      · exact hpop.assign i _ bd _
  | message msg => exact h.handleMessage msg _
  | errorMessage msg => exact h.handleMessage msg _
  | timeouts now =>
      exact foldl_entries h (table_checkTimeout now) fun m rid i hm _ => hm.checkTimeout now _
  | connectionLost k => exact h.notifyFail k _
  | clientDeleted k => exact h.notifyFail k _
  | authenticated k isGood =>
      rw [authenticated]
      split_ifs
      · exact h
      · refine h.drop (.of_eq rfl rfl) ?_ fun _ => id
        intro method r hr
        rw [AList.lookup_empty] at hr
        cases hr
      · exact h.same (.of_eq rfl rfl) rfl rfl
  | lost k isGood =>
      rw [lostConnection]
      split_ifs
      · exact h
      · exact h.same (.of_eq rfl rfl) rfl rfl
  | expire now =>
      exact h.drop (.of_eq rfl rfl) (fun method r hr => lookup_of_expire now _ _ hr) fun _ => id
  | deliver hstep => exact h.deliver hstep
  | deliverCached k =>
      exact h.drop (.of_eq rfl rfl) (fun _ _ => id) fun _ hr => List.mem_of_mem_eraseIdx hr
  | senderDestroyed sender =>
      refine h.drop ⟨?_, fun _ => id⟩ (fun _ _ => id) fun _ hr => (List.mem_filter.mp hr).1
      intro i c hc
      rw [ctx?_senderDestroyed, hc]
      refine ⟨_, rfl, ?_⟩
      by_cases hs : c.sender = sender <;> simp [hs]
  | ctxDestroyed hstep =>
      obtain ⟨c, -, -, -, hm'⟩ := ctxDestroyed_cases hstep
      rename_i i
      have h₁ : CacheOk (m.update i fun c => { c with destroyed := true }) :=
        h.update i fun _ => ⟨rfl, rfl⟩
      rcases hm' with rfl | ⟨-, rfl⟩
      · exact h₁
      · exact h₁.same (.of_eq rfl rfl) rfl rfl

/-- A result that is given from the cache was the answer to a request of the same method, and it
is not older than the new request allows. -/
theorem cached_reply (h : Reachable Start Step m) {r : CachedReply V} (hr : r ∈ m.cachedReplies) :
    ∃ time, m.Received r.method r.result time ∧ 0 ≤ r.time - time ∧
      r.time - time ≤ r.notOlderThan := by
  have hok : CacheOk m := by
    refine h.invariant (I := CacheOk) ?_ fun _ _ hm hstep => hm.step hstep
    rintro m ⟨n, -, rfl⟩
    constructor
    · intro method r hr
      cases hr
    · intro r hr
      cases hr
  exact hok.replies r hr

/-- The answer is given to a second request from the cache. -/
def oneCached : Mgr Unit :=
  oneDelivered.submitRequest 7 2 "getmempoolinfo" true 15000 (some 5000) 300

theorem oneCached_reachable : Reachable Start Step oneCached := by
  have hsubmit : Step oneDelivered oneCached :=
    .submit oneDelivered 2 "getmempoolinfo" true 15000 (some 5000) 300 (by decide)
  exact oneDelivered_reachable.next hsubmit

theorem cached_reply_oneCached :
    ∃ time, oneCached.Received "getmempoolinfo" () time ∧ 0 ≤ 300 - time ∧ 300 - time ≤ 5000 :=
  cached_reply oneCached_reachable (r := {
    sender := 7, rid := 2, method := "getmempoolinfo", result := (), time := 300
    notOlderThan := 5000 }) List.mem_cons_self

end Steps

end Mgr
end BitcoinDMgr
end Shulcrum
