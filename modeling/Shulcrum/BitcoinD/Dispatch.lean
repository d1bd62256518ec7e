import Shulcrum.BitcoinD.Requests

/-!
# The contexts of the requests

What holds of the contexts in every run of the manager and of the threads that
send requests.

**Results.**
* `dispatch_cases`, `handleMessageCommon_cases`, `deliver_cases`,
  `ctxDestroyed_cases`: what the steps can do.
* `inv_of_reachable`: the invariant of all runs.
-/

namespace Shulcrum
namespace BitcoinDMgr
namespace Mgr

open Invariant

variable {V : Type}

/-- What holds of a context. -/
structure CtxOk (queue : List CtxRef) (log : List (Answer V)) (gone : Finset Nat) (i : CtxRef)
    (c : ReqCtxObj V) : Prop where
  fresh : i ∈ queue →
    c.hooked = false ∧ c.replied = false ∧ c.pending = [] ∧ c.timedOut = false
  answered : c.replied = true ↔ ∃ a ∈ log, a.ctx = i
  silent : c.replied = true → c.connected = false
  pendingId : ∀ signal ∈ c.pending, signal.id = c.rid
  cut : c.sender ∈ gone → c.connected = false ∧ c.pending = []
  live : c.sender ∉ gone → c.replied = false → c.connected = true
  dead : c.destroyed = true → c.connected = false ∧ c.pending = [] ∧ i ∉ queue

/-- What holds in every run. -/
structure Inv (m : Mgr V) : Prop where
  ctx : ∀ i c, m.ctx? i = some c → CtxOk m.queue m.log m.gone i c
  queue_lt : ∀ i ∈ m.queue, i < m.ctxs.length
  queue_nodup : m.queue.Nodup
  table : ∀ rid i, m.reqContextTable.lookup rid = some i →
    ∃ c, m.ctx? i = some c ∧ c.rid = rid ∧ c.hooked = true
  log : ∀ a ∈ m.log, ∃ c, m.ctx? a.ctx = some c ∧ a.signal.id = c.rid
  log_nodup : (m.log.map Answer.ctx).Nodup
  sent : ∀ i ∈ m.sent, ∃ c, m.ctx? i = some c ∧ c.hooked = true
  sent_nodup : m.sent.Nodup

section Frame

variable {m m' : Mgr V} {i : CtxRef} {f : ReqCtxObj V → ReqCtxObj V}

/-- The other fields play no part. -/
theorem Inv.congr (h : Inv m) (hctxs : m'.ctxs = m.ctxs) (hqueue : m'.queue = m.queue)
    (htable : m'.reqContextTable = m.reqContextTable) (hgone : m'.gone = m.gone)
    (hlog : m'.log = m.log) (hsent : m'.sent = m.sent) : Inv m' := by
  have hctx : ∀ i, m'.ctx? i = m.ctx? i := by
    intro i
    rw [ctx?, hctxs]
    rfl
  constructor
  · simpa only [hctx, hqueue, hlog, hgone] using h.ctx
  · simpa only [hqueue, hctxs] using h.queue_lt
  · simpa only [hqueue] using h.queue_nodup
  · simpa only [hctx, htable] using h.table
  · simpa only [hctx, hlog] using h.log
  · simpa only [hlog] using h.log_nodup
  · simpa only [hctx, hsent] using h.sent
  · simpa only [hsent] using h.sent_nodup

/-- One context changes, but not its id. -/
theorem Inv.update (h : Inv m) (hrid : ∀ c, (f c).rid = c.rid)
    (hhooked : ∀ c, c.hooked = true → (f c).hooked = true)
    (hok : ∀ c, m.ctx? i = some c → CtxOk m.queue m.log m.gone i (f c)) : Inv (m.update i f) := by
  have hkeep : ∀ j c, m.ctx? j = some c → ∃ c', (m.update i f).ctx? j = some c' ∧
      c'.rid = c.rid ∧ (c.hooked = true → c'.hooked = true) := by
    intro j c hc
    rw [ctx?_update, hc]
    split_ifs
    · exact ⟨f c, rfl, hrid c, hhooked c⟩
    · exact ⟨c, rfl, rfl, id⟩
  constructor
  · intro j c hc
    rw [ctx?_update] at hc
    split_ifs at hc with hij
    · subst hij
      obtain ⟨c', hc', rfl⟩ := Option.map_eq_some_iff.mp hc
      exact hok c' hc'
    · exact h.ctx j c hc
  · intro j hj
    have hlt := h.queue_lt j hj
    simpa [Mgr.update] using hlt
  · exact h.queue_nodup
  · intro rid j hj
    obtain ⟨c, hc, rfl, hhook⟩ := h.table rid j hj
    obtain ⟨c', hc', hrid', hhook'⟩ := hkeep j c hc
    exact ⟨c', hc', hrid', hhook' hhook⟩
  · intro a ha
    obtain ⟨c, hc, hid⟩ := h.log a ha
    obtain ⟨c', hc', hrid', -⟩ := hkeep _ c hc
    exact ⟨c', hc', hid.trans hrid'.symm⟩
  · exact h.log_nodup
  · intro j hj
    obtain ⟨c, hc, hhook⟩ := h.sent j hj
    obtain ⟨c', hc', -, hhook'⟩ := hkeep j c hc
    exact ⟨c', hc', hhook' hhook⟩
  · exact h.sent_nodup

/-- A signal for a request that was dispatched. -/
theorem Inv.emit (h : Inv m) {signal : Signal V} (hqueue : i ∉ m.queue)
    (hid : ∀ c, m.ctx? i = some c → signal.id = c.rid) : Inv (m.emit i signal) := by
  refine h.update ?_ ?_ ?_
  · intro c
    split_ifs <;> rfl
  · intro c
    split_ifs <;> exact id
  · intro c hc
    have hok := h.ctx i c hc
    split_ifs with hconn
    · refine ⟨fun hi => absurd hi hqueue, hok.answered, hok.silent, ?_, ?_, hok.live, ?_⟩
      · intro s hs
        rcases List.mem_append.mp hs with hs | hs
        · exact hok.pendingId s hs
        · rw [List.mem_singleton.mp hs]
          exact hid c hc
      · intro hgone
        rw [(hok.cut hgone).1] at hconn
        cases hconn
      · intro hdead
        rw [(hok.dead hdead).1] at hconn
        cases hconn
    · exact hok

/-- The first call leaves the queue. -/
theorem Inv.pop (h : Inv m) {queue : List CtxRef} (hqueue : m.queue = i :: queue)
    (cursor : Nat) : Inv { m with queue := queue, roundRobinCursor := cursor } := by
  have hsub : ∀ j ∈ queue, j ∈ m.queue := by
    intro j hj
    rw [hqueue]
    exact List.mem_cons_of_mem i hj
  constructor
  · intro j c hc
    have hok := h.ctx j c hc
    exact ⟨fun hj => hok.fresh (hsub j hj), hok.answered, hok.silent, hok.pendingId, hok.cut,
      hok.live, fun hd => ⟨(hok.dead hd).1, (hok.dead hd).2.1,
        fun hj => (hok.dead hd).2.2 (hsub j hj)⟩⟩
  · exact fun j hj => h.queue_lt j (hsub j hj)
  · have hnodup := h.queue_nodup
    rw [hqueue] at hnodup
    exact hnodup.of_cons
  · exact h.table
  · exact h.log
  · exact h.log_nodup
  · exact h.sent
  · exact h.sent_nodup

/-- Entries may leave the table. -/
theorem Inv.table_subset (h : Inv m) {t : AList (fun _ : Id => CtxRef)}
    (ht : ∀ rid i, t.lookup rid = some i → m.reqContextTable.lookup rid = some i) :
    Inv { m with reqContextTable := t } :=
  ⟨h.ctx, h.queue_lt, h.queue_nodup, fun rid i hi => h.table rid i (ht rid i hi), h.log,
    h.log_nodup, h.sent, h.sent_nodup⟩

theorem lookup_of_erase {t : AList (fun _ : Id => CtxRef)} {rid rid' : Id} {i : CtxRef}
    (h : (t.erase rid').lookup rid = some i) : rid ≠ rid' ∧ t.lookup rid = some i := by
  by_cases heq : rid = rid'
  · subst heq
    rw [AList.lookup_erase] at h
    cases h
  · rw [AList.lookup_erase_ne heq] at h
    exact ⟨heq, h⟩

theorem Inv.erase (h : Inv m) (rid : Id) :
    Inv { m with reqContextTable := m.reqContextTable.erase rid } :=
  h.table_subset fun _ _ hi => (lookup_of_erase hi).2

/-- What is in the table was dispatched. -/
theorem Inv.not_queued (h : Inv m) {rid : Id} (hi : m.reqContextTable.lookup rid = some i) :
    i ∉ m.queue := by
  intro hqueue
  obtain ⟨c, hc, -, hhook⟩ := h.table rid i hi
  rw [((h.ctx i c hc).fresh hqueue).1] at hhook
  cases hhook

theorem Inv.id_eq (h : Inv m) {rid : Id} (hi : m.reqContextTable.lookup rid = some i)
    (c : ReqCtxObj V) (hc : m.ctx? i = some c) : rid = c.rid := by
  obtain ⟨c', hc', hrid, -⟩ := h.table rid i hi
  rw [hc, Option.some.injEq] at hc'
  rw [hc', hrid]

end Frame

/-! ## The steps -/

section Steps

variable {m m' : Mgr V}

theorem ctx?_append (m : Mgr V) (c : ReqCtxObj V) (queue : List CtxRef) (i : CtxRef) :
    ({ m with ctxs := m.ctxs ++ [c], queue := queue } : Mgr V).ctx? i =
      if i = m.ctxs.length then some c else m.ctx? i := by
  simp only [ctx?]
  split_ifs with hi
  · rw [hi, List.getElem?_concat_length]
  · by_cases hlt : i < m.ctxs.length
    · rw [List.getElem?_append_left hlt]
    · have hle : m.ctxs.length < i := lt_of_le_of_ne (not_lt.mp hlt) (Ne.symm hi)
      rw [List.getElem?_eq_none hle.le, List.getElem?_eq_none]
      rw [List.length_append, List.length_singleton]
      exact hle

/-- A new context. -/
theorem Inv.push (h : Inv m) {c : ReqCtxObj V} (hsender : c.sender ∉ m.gone)
    (hc : c.hooked = false ∧ c.replied = false ∧ c.pending = [] ∧ c.timedOut = false ∧
      c.connected = true ∧ c.destroyed = false) :
    Inv { m with ctxs := m.ctxs ++ [c], queue := m.queue ++ [m.ctxs.length] } := by
  obtain ⟨hhooked, hreplied, hpending, htimedOut, hconnected, hdestroyed⟩ := hc
  have hne : ∀ {i : CtxRef} {c : ReqCtxObj V}, m.ctx? i = some c → i ≠ m.ctxs.length := by
    intro i c hi heq
    rw [ctx?, heq, List.getElem?_eq_none (le_refl _)] at hi
    cases hi
  have hkeep : ∀ {i : CtxRef} {c' : ReqCtxObj V}, m.ctx? i = some c' →
      ({ m with ctxs := m.ctxs ++ [c], queue := m.queue ++ [m.ctxs.length] } : Mgr V).ctx? i =
        some c' := by
    intro i c' hi
    rw [ctx?_append, if_neg (hne hi), hi]
  have hlog : ¬ ∃ a ∈ m.log, a.ctx = m.ctxs.length := by
    rintro ⟨a, ha, hi⟩
    obtain ⟨c', hc', -⟩ := h.log a ha
    exact hne hc' hi
  constructor
  · intro i c' hi
    rw [ctx?_append] at hi
    split_ifs at hi with heq
    · obtain rfl : c = c' := Option.some.inj hi
      rw [heq]
      refine ⟨fun _ => ⟨hhooked, hreplied, hpending, htimedOut⟩, ?_, ?_, ?_, ?_, ?_, ?_⟩
      · rw [hreplied]
        exact ⟨fun hfalse => (by cases hfalse), fun ha => absurd ha hlog⟩
      · intro hr
        rw [hreplied] at hr
        cases hr
      · rw [hpending]
        exact fun s hs => absurd hs List.not_mem_nil
      · exact fun hgone => absurd hgone hsender
      · exact fun _ _ => hconnected
      · intro hd
        rw [hdestroyed] at hd
        cases hd
    · have hok := h.ctx i c' hi
      have hmem : i ∈ m.queue ++ [m.ctxs.length] → i ∈ m.queue := by
        intro hi
        rcases List.mem_append.mp hi with hi | hi
        · exact hi
        · exact absurd (List.mem_singleton.mp hi) heq
      exact ⟨fun hi => hok.fresh (hmem hi), hok.answered, hok.silent, hok.pendingId, hok.cut,
        hok.live, fun hd => ⟨(hok.dead hd).1, (hok.dead hd).2.1,
          fun hi => (hok.dead hd).2.2 (hmem hi)⟩⟩
  · intro i hi
    rw [List.length_append, List.length_singleton]
    rcases List.mem_append.mp hi with hi | hi
    · exact Nat.lt_succ_of_lt (h.queue_lt i hi)
    · rw [List.mem_singleton.mp hi]
      exact Nat.lt_succ_self _
  · rw [List.nodup_append]
    refine ⟨h.queue_nodup, List.nodup_singleton _, ?_⟩
    intro i hi j hj
    rw [List.mem_singleton.mp hj]
    exact Nat.ne_of_lt (h.queue_lt i hi)
  · intro rid i hi
    obtain ⟨c', hc', hrid, hhook⟩ := h.table rid i hi
    exact ⟨c', hkeep hc', hrid, hhook⟩
  · intro a ha
    obtain ⟨c', hc', hid⟩ := h.log a ha
    exact ⟨c', hkeep hc', hid⟩
  · exact h.log_nodup
  · intro i hi
    obtain ⟨c', hc', hhook⟩ := h.sent i hi
    exact ⟨c', hkeep hc', hhook⟩
  · exact h.sent_nodup

/-- What `submitRequest` can do. -/
theorem submitRequest_cases (m : Mgr V) (sender : Nat) (rid : Id) (method : String)
    (noParams : Bool) (timeout : Int) (ok : Option Int) (now : Int) :
    (∃ r limit, m.cachedResultsTable.lookup method = some r ∧ 0 ≤ now - r.timeStamp ∧
      now - r.timeStamp ≤ limit ∧
      m.submitRequest sender rid method noParams timeout ok now = { m with
        cachedReplies := m.cachedReplies ++ [{
          sender := sender, rid := rid, method := method, result := r.result, time := now
          notOlderThan := limit }] }) ∨
    ∃ c : ReqCtxObj V, c.sender = sender ∧ c.rid = rid ∧ c.method = method ∧
      (c.hooked = false ∧ c.replied = false ∧ c.pending = [] ∧ c.timedOut = false ∧
        c.connected = true ∧ c.destroyed = false) ∧
      m.submitRequest sender rid method noParams timeout ok now = { m with
        ctxs := m.ctxs ++ [c], queue := m.queue ++ [m.ctxs.length] } := by
  simp only [submitRequest]
  generalize (if noParams = true then ok else none) = maxAge
  cases hcached : maxAge.bind fun limit =>
      (m.cachedResultsTable.lookup method).filter fun r =>
        decide (0 ≤ now - r.timeStamp ∧ now - r.timeStamp ≤ limit) with
  | some r =>
      obtain ⟨limit, rfl, hfilter⟩ := Option.bind_eq_some_iff.mp hcached
      obtain ⟨hlookup, hage⟩ := Option.filter_eq_some_iff.mp hfilter
      rw [decide_eq_true_eq] at hage
      exact Or.inl ⟨r, limit, hlookup, hage.1, hage.2, rfl⟩
  | none =>
      exact Or.inr ⟨_, rfl, rfl, rfl, ⟨rfl, rfl, rfl, rfl, rfl, rfl⟩, rfl⟩

/-- What dispatching can do. -/
theorem dispatch_cases {isGood : Nat → Bool} {now : Int}
    (h : m.dispatch isGood now = some m') :
    ∃ i queue c cursor, m.queue = i :: queue ∧ m.ctx? i = some c ∧
      ((∃ reason, m' = ({ m with queue := queue, roundRobinCursor := cursor } : Mgr V).emit i
          (.fail c.rid reason)) ∨
        ∃ bd, m' = ({ m with queue := queue, roundRobinCursor := cursor } : Mgr V).assign i
          c.rid bd now) := by
  rw [dispatch] at h
  cases hqueue : m.queue with
  | nil =>
      rw [hqueue] at h
      cases h
  | cons i queue =>
      rw [hqueue] at h
      obtain ⟨c, hc, h⟩ := Option.bind_eq_some_iff.mp h
      refine ⟨i, queue, c, (m.getBitcoinD isGood).2, rfl, hc, ?_⟩
      cases hbd : (m.getBitcoinD isGood).1 with
      | none =>
          simp only [hbd] at h
          exact Or.inl ⟨_, (Option.some.inj h).symm⟩
      | some bd =>
          simp only [hbd] at h
          exact Or.inr ⟨bd, (Option.some.inj h).symm⟩

/-- A field that no invariant reads is set. -/
theorem Inv.update_ok (h : Inv m) {i : CtxRef} {f : ReqCtxObj V → ReqCtxObj V}
    (hrid : ∀ c, (f c).rid = c.rid) (hhooked : ∀ c, c.hooked = true → (f c).hooked = true)
    (hfresh : ∀ c, i ∈ m.queue → (f c).hooked = c.hooked ∧ (f c).timedOut = c.timedOut)
    (hf : ∀ c, (f c).replied = c.replied ∧ (f c).connected = c.connected ∧
      (f c).pending = c.pending ∧ (f c).sender = c.sender ∧ (f c).destroyed = c.destroyed) :
    Inv (m.update i f) := by
  refine h.update hrid hhooked ?_
  intro c hc
  obtain ⟨hreplied, hconnected, hpending, hsender, hdestroyed⟩ := hf c
  have hok := h.ctx i c hc
  constructor
  · intro hi
    rw [hreplied, hpending, (hfresh c hi).1, (hfresh c hi).2]
    exact hok.fresh hi
  · rw [hreplied]
    exact hok.answered
  · rw [hreplied, hconnected]
    exact hok.silent
  · rw [hpending, hrid]
    exact hok.pendingId
  · rw [hsender, hconnected, hpending]
    exact hok.cut
  · rw [hsender, hreplied, hconnected]
    exact hok.live
  · rw [hdestroyed, hconnected, hpending]
    exact hok.dead

/-- A context that is not queued any more is given to a client. -/
theorem Inv.assign (h : Inv m) {i : CtxRef} {c : ReqCtxObj V} (hc : m.ctx? i = some c)
    (hqueue : i ∉ m.queue) (hsent : i ∉ m.sent) (bd : Nat) (now : Int) :
    Inv (m.assign i c.rid bd now) := by
  have h₁ : Inv (m.update i fun c => { c with bd := some bd }) :=
    h.update_ok (fun _ => rfl) (fun _ => id) (fun _ _ => ⟨rfl, rfl⟩)
      (fun _ => ⟨rfl, rfl, rfl, rfl, rfl⟩)
  simp only [Mgr.assign]
  split_ifs
  · have h₂ : Inv ((m.update i fun c => { c with bd := some bd }).update i
        fun c => { c with ts := now, hooked := true }) :=
      h₁.update_ok (fun _ => rfl) (fun _ _ => rfl) (fun _ hi => absurd hi hqueue)
        (fun _ => ⟨rfl, rfl, rfl, rfl, rfl⟩)
    have hi : ((m.update i fun c => { c with bd := some bd }).update i
        fun c => { c with ts := now, hooked := true }).ctx? i =
          some { c with bd := some bd, ts := now, hooked := true } := by
      rw [ctx?_update_self, ctx?_update_self, hc]
      rfl
    refine ⟨h₂.ctx, h₂.queue_lt, h₂.queue_nodup, ?_, h₂.log, h₂.log_nodup, ?_, ?_⟩
    · intro rid j hj
      by_cases hrid : rid = c.rid
      · subst hrid
        rw [AList.lookup_insert, Option.some.injEq] at hj
        subst hj
        exact ⟨_, hi, rfl, rfl⟩
      · rw [AList.lookup_insert_ne hrid] at hj
        exact h₂.table rid j hj
    · intro j hj
      rcases List.mem_cons.mp hj with rfl | hj
      · exact ⟨_, hi, rfl⟩
      · exact h₂.sent j hj
    · exact List.nodup_cons.mpr ⟨hsent, h₂.sent_nodup⟩
  · refine h₁.emit hqueue ?_
    intro c' hc'
    rw [ctx?_update_self, hc] at hc'
    obtain rfl := Option.some.inj hc'
    rfl

theorem Inv.dispatch (h : Inv m) {isGood : Nat → Bool} {now : Int}
    (hstep : m.dispatch isGood now = some m') : Inv m' := by
  obtain ⟨i, queue, c, cursor, hqueue, hc, hm'⟩ := dispatch_cases hstep
  have hpop := h.pop hqueue cursor
  have hnodup := h.queue_nodup
  rw [hqueue] at hnodup
  have hi : i ∉ queue := (List.nodup_cons.mp hnodup).1
  have hfresh := (h.ctx i c hc).fresh (by rw [hqueue]; exact List.mem_cons_self)
  have hsent : i ∉ m.sent := by
    intro hmem
    obtain ⟨c', hc', hhook⟩ := h.sent i hmem
    rw [hc, Option.some.injEq] at hc'
    rw [← hc', hfresh.1] at hhook
    cases hhook
  rcases hm' with ⟨reason, rfl⟩ | ⟨bd, rfl⟩
  · refine hpop.emit hi ?_
    intro c' hc'
    have heq : some c = some c' := hc.symm.trans hc'
    rw [← Option.some.inj heq]
    rfl
  · exact hpop.assign hc hi hsent bd now

/-- What handling a message can do. -/
theorem handleMessageCommon_cases (m : Mgr V) (msg : Message V) (signal : Signal V) :
    (∃ i, m.reqContextTable.lookup msg.id = some i ∧ m.alive i = true ∧
      m.handleMessageCommon msg signal = ({ m with
        reqContextTable := m.reqContextTable.erase msg.id } : Mgr V).emit i signal) ∨
    (∀ i, m.reqContextTable.lookup msg.id = some i → m.alive i = false) ∧
      ∃ n, m.handleMessageCommon msg signal = { m with
        reqContextTable := m.reqContextTable.erase msg.id, requestZombieCtr := n } := by
  simp only [handleMessageCommon]
  cases href : (m.reqContextTable.lookup msg.id).filter
      ({ m with reqContextTable := m.reqContextTable.erase msg.id } : Mgr V).alive with
  | some i =>
      obtain ⟨hlookup, halive⟩ := Option.filter_eq_some_iff.mp href
      exact Or.inl ⟨i, hlookup, halive, rfl⟩
  | none =>
      refine Or.inr ⟨?_, ?_⟩
      · intro i hi
        rw [hi] at href
        have hfalse : ({ m with reqContextTable := m.reqContextTable.erase msg.id } : Mgr V).alive
            i = false := by simpa using href
        exact hfalse
      · dsimp only
        split_ifs
        · exact ⟨m.requestZombieCtr, rfl⟩
        · exact ⟨m.requestZombieCtr + 1, rfl⟩

theorem Inv.handleMessage (h : Inv m) {msg : Message V} {signal : Signal V}
    (hid : signal.id = msg.id) : Inv (m.handleMessageCommon msg signal) := by
  rcases handleMessageCommon_cases m msg signal with ⟨i, hi, -, heq⟩ | ⟨-, n, heq⟩
  · rw [heq]
    exact (h.erase msg.id).emit (h.not_queued hi) fun c hc => hid.trans (h.id_eq hi c hc)
  · rw [heq]
    exact (h.erase msg.id).congr rfl rfl rfl rfl rfl rfl

theorem mem_entries {rid : Id} {i : CtxRef} :
    (rid, i) ∈ m.entries ↔ m.reqContextTable.lookup rid = some i := by
  rw [← Option.mem_def, AList.mem_lookup_iff, entries, List.mem_map]
  constructor
  · rintro ⟨⟨rid', i'⟩, hmem, heq⟩
    cases heq
    exact hmem
  · exact fun hmem => ⟨⟨rid, i⟩, hmem, rfl⟩

/-- What a loop over the table keeps, if it keeps the table. -/
theorem foldl_entries {P : Mgr V → Prop} {f : Mgr V → Id × CtxRef → Mgr V} (hm : P m)
    (htable : ∀ m entry, (f m entry).reqContextTable = m.reqContextTable)
    (hf : ∀ m' rid i, P m' → m'.reqContextTable.lookup rid = some i → P (f m' (rid, i))) :
    P (m.entries.foldl f m) := by
  have hall : ∀ (l : List (Id × CtxRef)) (m' : Mgr V), P m' →
      (∀ rid i, (rid, i) ∈ l → m'.reqContextTable.lookup rid = some i) → P (l.foldl f m') := by
    intro l
    induction l with
    | nil => exact fun m' hm' _ => hm'
    | cons entry l ih =>
        intro m' hm' hl
        refine ih _ (hf m' entry.1 entry.2 hm' (hl _ _ List.mem_cons_self)) ?_
        intro rid i hi
        rw [htable]
        exact hl rid i (List.mem_cons_of_mem entry hi)
  exact hall _ m hm fun rid i hi => mem_entries.mp hi

theorem table_checkTimeout (now : Int) (m : Mgr V) (entry : Id × CtxRef) :
    (checkTimeout now m entry).reqContextTable = m.reqContextTable := by
  rw [checkTimeout]
  split_ifs <;> rfl

theorem table_failIfMatching (bd : Nat) (errorMessage : String) (m : Mgr V)
    (entry : Id × CtxRef) :
    (failIfMatching bd errorMessage m entry).reqContextTable = m.reqContextTable := by
  rw [failIfMatching]
  split_ifs <;> rfl

/-- A context that is in the table may be flagged. -/
theorem Inv.setTimedOut (h : Inv m) {i : CtxRef} (hi : i ∉ m.queue) : Inv (m.setTimedOut i) := by
  have h₁ : Inv (m.update i fun c => { c with timedOut := true }) :=
    h.update_ok (fun _ => rfl) (fun _ => id) (fun _ hq => absurd hq hi)
      (fun _ => ⟨rfl, rfl, rfl, rfl, rfl⟩)
  exact h₁.congr rfl rfl rfl rfl rfl rfl

theorem Inv.checkTimeout (h : Inv m) {rid : Id} {i : CtxRef}
    (hi : m.reqContextTable.lookup rid = some i) (now : Int) :
    Inv (checkTimeout now m (rid, i)) := by
  rw [Mgr.checkTimeout]
  split_ifs
  · have h₁ := h.setTimedOut (h.not_queued hi)
    exact h₁.emit (h.not_queued hi) fun c hc => h₁.id_eq hi c hc
  · exact h

theorem Inv.failIfMatching (h : Inv m) {rid : Id} {i : CtxRef}
    (hi : m.reqContextTable.lookup rid = some i) (bd : Nat) (errorMessage : String) :
    Inv (failIfMatching bd errorMessage m (rid, i)) := by
  rw [Mgr.failIfMatching]
  split_ifs
  · exact h.emit (h.not_queued hi) fun c hc => h.id_eq hi c hc
  · exact h

/-- What delivering can do. -/
theorem deliver_cases {i : CtxRef} {now : Int} (h : m.deliver i now = some m') :
    ∃ c signal pending, m.ctx? i = some c ∧ c.pending = signal :: pending ∧
      let m₁ := m.update i fun c =>
        { c with pending := pending, replied := true, connected := false }
      (c.replied = true ∧ m' = m₁ ∨
        c.replied = false ∧ ∃ t, m' = { m₁ with
          log := { ctx := i, signal := signal, time := now } :: m₁.log
          cachedResultsTable := t } ∧
          (t = m.cachedResultsTable ∨ ∃ response maxAge, signal = .results response ∧
            c.maxAge = some maxAge ∧ t = m.cachedResultsTable.insert c.method
              { timeStamp := now, maxAge := maxAge, result := response.result })) := by
  rw [deliver] at h
  obtain ⟨c, hc, h⟩ := Option.bind_eq_some_iff.mp h
  cases hpending : c.pending with
  | nil =>
      simp only [hpending] at h
      cases h
  | cons signal pending =>
      refine ⟨c, signal, pending, hc, hpending, ?_⟩
      simp only [hpending] at h
      cases hreplied : c.replied with
      | true =>
          rw [hreplied, if_pos rfl] at h
          exact Or.inl ⟨rfl, (Option.some.inj h).symm⟩
      | false =>
          rw [hreplied, if_neg (by decide)] at h
          refine Or.inr ⟨rfl, ?_⟩
          cases signal with
          | results response =>
              cases hage : c.maxAge with
              | none =>
                  simp only [hage] at h
                  exact ⟨_, (Option.some.inj h).symm, Or.inl rfl⟩
              | some maxAge =>
                  simp only [hage] at h
                  exact ⟨_, (Option.some.inj h).symm, Or.inr ⟨response, maxAge, rfl, rfl, rfl⟩⟩
          | error response => exact ⟨_, (Option.some.inj h).symm, Or.inl rfl⟩
          | fail origId reason => exact ⟨_, (Option.some.inj h).symm, Or.inl rfl⟩

/-- The next signal of a request is taken, and none after it. -/
theorem CtxOk.taken {queue : List CtxRef} {log log' : List (Answer V)} {gone : Finset Nat}
    {i : CtxRef} {c : ReqCtxObj V} {signal : Signal V} {pending : List (Signal V)}
    (hok : CtxOk queue log gone i c) (hpending : c.pending = signal :: pending)
    (hanswered : ∃ a ∈ log', a.ctx = i) :
    CtxOk queue log' gone i { c with pending := pending, replied := true, connected := false } := by
  constructor
  · intro hi
    rw [(hok.fresh hi).2.2.1] at hpending
    cases hpending
  · exact ⟨fun _ => hanswered, fun _ => rfl⟩
  · exact fun _ => rfl
  · exact fun s hs => hok.pendingId s (by rw [hpending]; exact List.mem_cons_of_mem signal hs)
  · intro hgone
    rw [(hok.cut hgone).2] at hpending
    cases hpending
  · intro _ hfalse
    cases hfalse
  · intro hd
    rw [(hok.dead hd).2.1] at hpending
    cases hpending

/-- A signal that comes too late is dropped. -/
theorem Inv.drop (h : Inv m) {i : CtxRef} {c : ReqCtxObj V} {signal : Signal V}
    {pending : List (Signal V)} (hc : m.ctx? i = some c) (hpending : c.pending = signal :: pending)
    (hreplied : c.replied = true) :
    Inv (m.update i fun c =>
      { c with pending := pending, replied := true, connected := false }) := by
  refine h.update (fun _ => rfl) (fun _ => id) ?_
  intro c' hc'
  obtain rfl : c = c' := Option.some.inj (hc.symm.trans hc')
  have hok := h.ctx i c hc
  exact hok.taken hpending (hok.answered.mp hreplied)

/-- The first signal is the answer. -/
theorem Inv.answer (h : Inv m) {i : CtxRef} {c : ReqCtxObj V} {signal : Signal V}
    {pending : List (Signal V)} (hc : m.ctx? i = some c) (hpending : c.pending = signal :: pending)
    (hreplied : c.replied = false) (now : Int) (t : AList (fun _ : String => CachedResult V)) :
    Inv { (m.update i fun c =>
        { c with pending := pending, replied := true, connected := false }) with
      log := { ctx := i, signal := signal, time := now } :: m.log
      cachedResultsTable := t } := by
  have hnot : ¬ ∃ a ∈ m.log, a.ctx = i := by
    intro ha
    rw [(h.ctx i c hc).answered.mpr ha] at hreplied
    cases hreplied
  have hkeep : ∀ j c, m.ctx? j = some c → ∃ c', (m.update i fun c =>
      { c with pending := pending, replied := true, connected := false }).ctx? j = some c' ∧
        c'.rid = c.rid ∧ c'.hooked = c.hooked := by
    intro j c hc
    rw [ctx?_update, hc]
    split_ifs
    · exact ⟨_, rfl, rfl, rfl⟩
    · exact ⟨c, rfl, rfl, rfl⟩
  constructor
  · intro j c' hj
    have hj' : (m.update i fun c =>
        { c with pending := pending, replied := true, connected := false }).ctx? j = some c' := hj
    rw [ctx?_update] at hj'
    split_ifs at hj' with hij
    · subst hij
      rw [hc, Option.map_some, Option.some.injEq] at hj'
      subst hj'
      exact (h.ctx i c hc).taken hpending ⟨_, List.mem_cons_self, rfl⟩
    · have hok := h.ctx j c' hj'
      refine ⟨hok.fresh, ?_, hok.silent, hok.pendingId, hok.cut, hok.live, hok.dead⟩
      rw [hok.answered]
      constructor
      · rintro ⟨a, ha, haj⟩
        exact ⟨a, List.mem_cons_of_mem _ ha, haj⟩
      · rintro ⟨a, ha, haj⟩
        rcases List.mem_cons.mp ha with rfl | ha
        · exact absurd haj hij
        · exact ⟨a, ha, haj⟩
  · intro j hj
    have hlt := h.queue_lt j hj
    simpa [Mgr.update] using hlt
  · exact h.queue_nodup
  · intro rid j hj
    obtain ⟨c', hc', hrid, hhook⟩ := h.table rid j hj
    obtain ⟨c'', hc'', hrid', hhook'⟩ := hkeep j c' hc'
    exact ⟨c'', hc'', hrid'.trans hrid, hhook'.trans hhook⟩
  · intro a ha
    rcases List.mem_cons.mp ha with rfl | ha
    · obtain ⟨c', hc', hrid, -⟩ := hkeep i c hc
      refine ⟨c', hc', ?_⟩
      rw [hrid]
      exact (h.ctx i c hc).pendingId signal (by rw [hpending]; exact List.mem_cons_self)
    · obtain ⟨c', hc', hid⟩ := h.log a ha
      obtain ⟨c'', hc'', hrid, -⟩ := hkeep _ c' hc'
      exact ⟨c'', hc'', hid.trans hrid.symm⟩
  · rw [List.map_cons, List.nodup_cons]
    refine ⟨?_, h.log_nodup⟩
    intro hmem
    obtain ⟨a, ha, hai⟩ := List.mem_map.mp hmem
    exact hnot ⟨a, ha, hai⟩
  · intro j hj
    obtain ⟨c', hc', hhook⟩ := h.sent j hj
    obtain ⟨c'', hc'', -, hhook'⟩ := hkeep j c' hc'
    exact ⟨c'', hc'', hhook'.trans hhook⟩
  · exact h.sent_nodup

theorem Inv.deliver (h : Inv m) {i : CtxRef} {now : Int} (hstep : m.deliver i now = some m') :
    Inv m' := by
  obtain ⟨c, signal, pending, hc, hpending, ⟨hreplied, rfl⟩ | ⟨hreplied, t, rfl, -⟩⟩ :=
    deliver_cases hstep
  · exact h.drop hc hpending hreplied
  · exact h.answer hc hpending hreplied now t

theorem ctx?_senderDestroyed (m : Mgr V) (sender : Nat) (i : CtxRef) :
    (m.senderDestroyed sender).ctx? i = (m.ctx? i).map fun c =>
      if c.sender = sender then { c with connected := false, pending := [] } else c := by
  simp only [ctx?, senderDestroyed, List.getElem?_map]

theorem Inv.senderDestroyed (h : Inv m) (sender : Nat) : Inv (m.senderDestroyed sender) := by
  have hkeep : ∀ j c, m.ctx? j = some c → ∃ c', (m.senderDestroyed sender).ctx? j = some c' ∧
      c'.rid = c.rid ∧ c'.hooked = c.hooked := by
    intro j c hc
    rw [ctx?_senderDestroyed, hc]
    by_cases hs : c.sender = sender
    · exact ⟨_, rfl, by simp [hs], by simp [hs]⟩
    · exact ⟨_, rfl, by simp [hs], by simp [hs]⟩
  constructor
  · intro i c' hi
    rw [ctx?_senderDestroyed] at hi
    obtain ⟨c, hc, rfl⟩ := Option.map_eq_some_iff.mp hi
    have hok := h.ctx i c hc
    split_ifs with hs
    · refine ⟨?_, hok.answered, fun _ => rfl, ?_, fun _ => ⟨rfl, rfl⟩, ?_, ?_⟩
      · exact fun hq => ⟨(hok.fresh hq).1, (hok.fresh hq).2.1, rfl, (hok.fresh hq).2.2.2⟩
      · exact fun s hs => absurd hs List.not_mem_nil
      · intro hgone
        exact absurd (Finset.mem_insert.mpr (Or.inl hs)) hgone
      · exact fun hd => ⟨rfl, rfl, (hok.dead hd).2.2⟩
    · refine ⟨hok.fresh, hok.answered, hok.silent, hok.pendingId, ?_, ?_, hok.dead⟩
      · intro hgone
        rcases Finset.mem_insert.mp hgone with heq | hgone
        · exact absurd heq hs
        · exact hok.cut hgone
      · exact fun hgone => hok.live fun hin => hgone (Finset.mem_insert_of_mem hin)
  · intro j hj
    have hlt := h.queue_lt j hj
    simpa [Mgr.senderDestroyed] using hlt
  · exact h.queue_nodup
  · intro rid j hj
    obtain ⟨c, hc, hrid, hhook⟩ := h.table rid j hj
    obtain ⟨c', hc', hrid', hhook'⟩ := hkeep j c hc
    exact ⟨c', hc', hrid'.trans hrid, hhook'.trans hhook⟩
  · intro a ha
    obtain ⟨c, hc, hid⟩ := h.log a ha
    obtain ⟨c', hc', hrid, -⟩ := hkeep _ c hc
    exact ⟨c', hc', hid.trans hrid.symm⟩
  · exact h.log_nodup
  · intro j hj
    obtain ⟨c, hc, hhook⟩ := h.sent j hj
    obtain ⟨c', hc', -, hhook'⟩ := hkeep j c hc
    exact ⟨c', hc', hhook'.trans hhook⟩
  · exact h.sent_nodup

/-- What deleting a context can do. -/
theorem ctxDestroyed_cases {i : CtxRef} (h : m.ctxDestroyed i = some m') :
    ∃ c, m.ctx? i = some c ∧ m.alive i = false ∧ c.destroyed = false ∧
      (m' = m.update i (fun c => { c with destroyed := true }) ∨
        c.hooked = true ∧ m' = { (m.update i fun c => { c with destroyed := true }) with
          reqContextTable := m.reqContextTable.erase c.rid }) := by
  rw [ctxDestroyed] at h
  obtain ⟨c, hc, h⟩ := Option.bind_eq_some_iff.mp h
  by_cases halive : m.alive i = true ∨ c.destroyed = true
  · rw [if_pos halive] at h
    cases h
  · rw [if_neg halive] at h
    have hdead : m.alive i = false := Bool.eq_false_iff.mpr fun ha => halive (Or.inl ha)
    have hlive : c.destroyed = false := Bool.eq_false_iff.mpr fun hd => halive (Or.inr hd)
    have heq := (Option.some.inj h).symm
    refine ⟨c, hc, hdead, hlive, ?_⟩
    split_ifs at heq with hhook
    · exact Or.inr ⟨hhook, heq⟩
    · exact Or.inl heq

/-- Nothing refers to a context that is not alive. -/
theorem alive_eq_false {i : CtxRef} {c : ReqCtxObj V} (hc : m.ctx? i = some c)
    (h : m.alive i = false) : i ∉ m.queue ∧ c.connected = false ∧ c.pending = [] := by
  rw [alive, hc, Bool.or_eq_false_iff, decide_eq_false_iff_not, Option.any_some,
    Bool.or_eq_false_iff, Bool.not_eq_false', List.isEmpty_iff] at h
  exact h

theorem Inv.ctxDestroyed (h : Inv m) {i : CtxRef} (hstep : m.ctxDestroyed i = some m') :
    Inv m' := by
  obtain ⟨c, hc, halive, -, hm'⟩ := ctxDestroyed_cases hstep
  obtain ⟨hqueue, hconn, hpending⟩ := alive_eq_false hc halive
  have h₁ : Inv (m.update i fun c => { c with destroyed := true }) := by
    refine h.update (fun _ => rfl) (fun _ => id) ?_
    intro c' hc'
    obtain rfl : c = c' := Option.some.inj (hc.symm.trans hc')
    have hok := h.ctx i c hc
    exact ⟨hok.fresh, hok.answered, hok.silent, hok.pendingId, hok.cut, hok.live,
      fun _ => ⟨hconn, hpending, hqueue⟩⟩
  rcases hm' with rfl | ⟨-, rfl⟩
  · exact h₁
  · exact h₁.erase c.rid

/-- Every step keeps the invariant. -/
theorem Inv.step (h : Inv m) (hstep : Step m m') : Inv m' := by
  cases hstep with
  | submit rid method noParams timeout ok now hsender =>
      rename_i sender
      obtain ⟨r, limit, -, -, -, heq⟩ | ⟨c, rfl, -, -, hc, heq⟩ :=
        submitRequest_cases m sender rid method noParams timeout ok now
      · rw [heq]
        exact h.congr rfl rfl rfl rfl rfl rfl
      · rw [heq]
        exact h.push hsender hc
  | dispatch hstep => exact h.dispatch hstep
  | message msg => exact h.handleMessage rfl
  | errorMessage msg => exact h.handleMessage rfl
  | timeouts now =>
      exact foldl_entries h (table_checkTimeout now) fun m rid i hm hi => hm.checkTimeout hi now
  | connectionLost k =>
      exact foldl_entries h (table_failIfMatching k _) fun m rid i hm hi =>
        hm.failIfMatching hi k _
  | clientDeleted k =>
      exact foldl_entries h (table_failIfMatching k _) fun m rid i hm hi =>
        hm.failIfMatching hi k _
  | authenticated k isGood =>
      rw [authenticated]
      split_ifs
      · exact h
      · exact h.congr rfl rfl rfl rfl rfl rfl
      · exact h.congr rfl rfl rfl rfl rfl rfl
  | lost k isGood =>
      rw [lostConnection]
      split_ifs
      · exact h
      · exact h.congr rfl rfl rfl rfl rfl rfl
  | expire now => exact h.congr rfl rfl rfl rfl rfl rfl
  | deliver hstep => exact h.deliver hstep
  | deliverCached k => exact h.congr rfl rfl rfl rfl rfl rfl
  | senderDestroyed sender => exact h.senderDestroyed sender
  | ctxDestroyed hstep => exact h.ctxDestroyed hstep

theorem inv_of_start (h : Start m) : Inv m := by
  obtain ⟨n, -, rfl⟩ := h
  constructor <;> simp [ctx?, AList.lookup_empty]

/-- The invariant of all runs. -/
theorem inv_of_reachable (h : Reachable Start Step m) : Inv m :=
  h.invariant (fun _ => inv_of_start) fun _ _ hm hstep => hm.step hstep

end Steps

end Mgr
end BitcoinDMgr
end Shulcrum
