import Shulcrum.Lib.Invariant
import Shulcrum.SubsMgr.Model

/-!
# The cached status of a subscription

The script hash and the transaction managers keep in every subscription the
status last computed for its key.  It is written by notification rounds and by
requests that had to compute a status, and it is read by later requests.

A request computes its status in one step and offers it to the cache in a
later one.  The offer is taken when the subscription has neither a cached nor
a notified status; it can then be older than the last change of the key.

**Results.**
* `CacheInv`: a cached status is the current one, or the key is still to be
  notified, in the runs in which every offer taken is in time.
* `cached_status_current`: in these runs, at rest, no cached status is stale.
-/

namespace Shulcrum
namespace SubsMgr

open Invariant

/-- A request after `subscribe` gave it no cached status. -/
inductive Pending (σ : Type) where
  | computing (key : HashX)
  | caching (key : HashX) (status : σ)

/-- A manager that uses the cache, the storage as far as it decides the statuses, the requests
and the round. -/
structure Cached (σ : Type) where
  mgr : Manager σ := {}
  /-- `getFullStatus`. -/
  status : HashX → σ
  requests : List (Pending σ) := []
  round : Round σ := .idle

/-- The atomic steps. -/
inductive CachedOp (σ : Type) where
  | subscribe (c : ClientId) (key : HashX) (weak : Bool) (now : Int)
  | getFullStatus (k : Nat)
  | maybeCacheStatusResult (k : Nat)
  /-- The storage changes, at the given keys only, and enqueues them. -/
  | change (keys : Finset HashX) (status : HashX → σ)
  /-- The round takes the subscriptions of the pending keys, in some order. -/
  | takePending (order : List SubRef)
  | check
  | compute
  | publish (now : Int)
  | unsubscribe (c : ClientId) (key : HashX) (now : Int)
  | destroyClient (c : ClientId) (now : Int)
  | removeZombies (forced : Bool) (now : Int)

namespace Cached

variable {σ : Type} (cacheable : σ → Bool)

/-- A request of a client; a cached status answers it at once. -/
def subscribe (s : Cached σ) (c : ClientId) (key : HashX) (weak : Bool) (now : Int) : Cached σ :=
  let result := s.mgr.subscribe c key weak true now
  { s with
    mgr := result.2
    requests := if result.1.2 = none then .computing key :: s.requests else s.requests }

def getFullStatus (s : Cached σ) (k : Nat) : Option (Cached σ) :=
  match s.requests[k]? with
  | some (.computing key) =>
      some { s with requests := s.requests.set k (.caching key (s.status key)) }
  | _ => none

def maybeCacheStatusResult (s : Cached σ) (k : Nat) : Option (Cached σ) :=
  match s.requests[k]? with
  | some (.caching key status) =>
      some
        { s with
          mgr := s.mgr.maybeCacheStatusResult cacheable true key status
          requests := s.requests.eraseIdx k }
  | _ => none

/-- A change of the storage with its `enqueueNotifications`. -/
def change (s : Cached σ) (keys : Finset HashX) (status : HashX → σ) : Cached σ :=
  { s with
    mgr := s.mgr.enqueueNotifications keys
    status := fun key => if key ∈ keys then status key else s.status key }

/-- The first lock of `doNotifyAllPending`. -/
def takePending (s : Cached σ) (order : List SubRef) : Cached σ :=
  { s with
    mgr := { s.mgr with pendingNotifications := ∅ }
    round := .next order }

def check (s : Cached σ) : Option (Cached σ) :=
  match s.round with
  | .checking (r :: todo) =>
      let result := s.mgr.checkPending r
      some
        { s with
          mgr := result.2
          round := if result.1 then .checked r todo else .next todo }
  | _ => none

def compute (s : Cached σ) : Option (Cached σ) :=
  match s.round with
  | .checked r todo => some { s with round := .computed r (s.status (s.mgr.objects r).key) todo }
  | _ => none

def publish [DecidableEq σ] (s : Cached σ) (now : Int) : Option (Cached σ) :=
  match s.round with
  | .computed r status todo =>
      some { s with mgr := (s.mgr.publish true r status now).2, round := .next todo }
  | _ => none

end Cached

section Run

variable {σ : Type} (cacheable : σ → Bool)

/-- One atomic step. -/
inductive CachedOp.Runs [DecidableEq σ] (s : Cached σ) : CachedOp σ → Cached σ → Prop
  | subscribe (c : ClientId) (key : HashX) (weak : Bool) (now : Int) :
      Runs s (.subscribe c key weak now) (s.subscribe c key weak now)
  | getFullStatus {t : Cached σ} (k : Nat) :
      s.getFullStatus k = some t → Runs s (.getFullStatus k) t
  | maybeCacheStatusResult {t : Cached σ} (k : Nat) :
      s.maybeCacheStatusResult cacheable k = some t → Runs s (.maybeCacheStatusResult k) t
  | change (keys : Finset HashX) (status : HashX → σ) :
      Runs s (.change keys status) (s.change keys status)
  | takePending (order : List SubRef) :
      s.round = .idle → TakesPending s.mgr order →
      Runs s (.takePending order) (s.takePending order)
  | check {t : Cached σ} : s.check = some t → Runs s .check t
  | compute {t : Cached σ} : s.compute = some t → Runs s .compute t
  | publish {t : Cached σ} (now : Int) : s.publish now = some t → Runs s (.publish now) t
  | unsubscribe (c : ClientId) (key : HashX) (now : Int) :
      Runs s (.unsubscribe c key now) { s with mgr := (s.mgr.unsubscribe c key true now).2 }
  | destroyClient (c : ClientId) (now : Int) :
      Runs s (.destroyClient c now)
        { s with mgr := s.mgr.destroyClient s.round.holds c now }
  | removeZombies (forced : Bool) (now : Int) :
      Runs s (.removeZombies forced now) { s with mgr := s.mgr.removeZombies forced now }

/-- A step of the operations that `P` allows in the state before it. -/
def CachedStep [DecidableEq σ] (P : Cached σ → CachedOp σ → Prop) (s t : Cached σ) : Prop :=
  ∃ op, P s op ∧ op.Runs cacheable s t

/-- A manager just constructed. -/
def CachedInit (s : Cached σ) : Prop :=
  s.mgr.subs = (fun _ => none) ∧ s.requests = [] ∧ s.round = .idle

/--
A status is offered to the cache in time: it is the current one, or the key is
still to be notified, or the offer is not taken.
-/
def InTime (s : Cached σ) : CachedOp σ → Prop
  | .maybeCacheStatusResult k => ∀ key status, s.requests[k]? = some (.caching key status) →
      status = s.status key ∨ key ∈ s.mgr.pendingNotifications ∨
        ∀ r, s.mgr.subs key = some r → r ∈ s.round.holds ∨
          (s.mgr.objects r).lastStatusNotified ≠ none ∨ (s.mgr.objects r).cachedStatus ≠ none
  | _ => True

/-- The invariant of the runs with offers in time. -/
structure CacheInv (s : Cached σ) : Prop where
  wf : s.mgr.WF
  holds_lt : ∀ r ∈ s.round.holds, r < s.mgr.nextRef
  cached : ∀ key r, s.mgr.subs key = some r →
    ∀ status, (s.mgr.objects r).cachedStatus = some status →
      status = s.status key ∨ key ∈ s.mgr.pendingNotifications ∨ r ∈ s.round.holds
  computed : ∀ r status todo, s.round = .computed r status todo →
    status = s.status (s.mgr.objects r).key ∨
      (s.mgr.objects r).key ∈ s.mgr.pendingNotifications

end Run

section Steps

variable {σ : Type} {cacheable : σ → Bool} {s t : Cached σ}

/-- Steps of the manager that write no status. -/
theorem CacheInv.frame (h : CacheInv s) {m : Manager σ} {requests : List (Pending σ)}
    (hwf : m.WF) (hnext : s.mgr.nextRef ≤ m.nextRef)
    (hpending : m.pendingNotifications = s.mgr.pendingNotifications)
    (hkey : ∀ r < s.mgr.nextRef, (m.objects r).key = (s.mgr.objects r).key)
    (hcached : ∀ key r, m.subs key = some r → (m.objects r).cachedStatus = none ∨
      s.mgr.subs key = some r ∧ (m.objects r).cachedStatus = (s.mgr.objects r).cachedStatus) :
    CacheInv ⟨m, s.status, requests, s.round⟩ := by
  refine ⟨hwf, fun r hr => (h.holds_lt r hr).trans_le hnext, ?_, ?_⟩
  · intro key r hr status hstatus
    rw [hpending]
    rcases hcached key r hr with hnone | ⟨hold, heq⟩
    · rw [hnone] at hstatus
      cases hstatus
    · rw [heq] at hstatus
      exact h.cached key r hold status hstatus
  · intro r status todo hround
    have hlt : r < s.mgr.nextRef := by
      refine h.holds_lt r ?_
      rw [show s.round = .computed r status todo from hround]
      exact List.mem_cons_self
    rw [hpending, hkey r hlt]
    exact h.computed r status todo hround

theorem CacheInv.requests (h : CacheInv s) (requests : List (Pending σ)) :
    CacheInv { s with requests := requests } :=
  h.frame h.wf le_rfl rfl (fun _ _ => rfl) (fun _ _ hr => .inr ⟨hr, rfl⟩)

/-- An object is replaced by one with the same key and cached status. -/
theorem CacheInv.setObject (h : CacheInv s) {r : SubRef} {sub : Subscription σ}
    {requests : List (Pending σ)} {n : Int} (hkey : sub.key = (s.mgr.objects r).key)
    (hcached : sub.cachedStatus = (s.mgr.objects r).cachedStatus) :
    CacheInv ⟨{ s.mgr.setObject r sub with nClientSubsActive := n }, s.status, requests,
      s.round⟩ := by
  have hobj : ∀ r', ((s.mgr.setObject r sub).objects r').key = (s.mgr.objects r').key ∧
      ((s.mgr.setObject r sub).objects r').cachedStatus = (s.mgr.objects r').cachedStatus := by
    intro r'
    rw [Manager.objects_setObject]
    split_ifs with heq
    · rw [heq]
      exact ⟨hkey, hcached⟩
    · exact ⟨rfl, rfl⟩
  exact h.frame (h.wf.setObject_count hkey) le_rfl rfl
    (fun r' _ => (hobj r').1) (fun _ r' hr' => .inr ⟨hr', (hobj r').2⟩)

/-- A new object has no cached status. -/
theorem CacheInv.makeSubRef (h : CacheInv s) {key : HashX} {now : Int} :
    CacheInv { s with mgr := s.mgr.makeSubRef key now } := by
  refine h.frame h.wf.makeSubRef (Nat.le_succ _) rfl ?_ ?_
  · intro r hr
    rw [Manager.objects_makeSubRef_of_lt hr]
  · intro key' r hr
    rw [Manager.subs_makeSubRef] at hr
    split_ifs at hr with heq
    · cases hr
      left
      rw [Manager.objects_makeSubRef, if_pos rfl]
    · right
      rw [Manager.objects_makeSubRef_of_lt (h.wf.lt key' r hr)]
      exact ⟨hr, rfl⟩

theorem CacheInv.register (h : CacheInv s) {r : SubRef} {wasnew : Bool} {c : ClientId}
    {weak useCache : Bool} {now : Int} :
    CacheInv { s with mgr := (s.mgr.register r wasnew c weak useCache now).2 } := by
  by_cases hold : weak = true ∨ wasnew = false ∧ c ∈ (s.mgr.objects r).subscribedClientIds
  · rw [Manager.register_old hold]
    exact h.setObject rfl rfl
  · rw [Manager.register_new hold]
    exact h.setObject rfl rfl

theorem CacheInv.subscribe (h : CacheInv s) (c : ClientId) (key : HashX) (weak : Bool)
    (now : Int) : CacheInv (s.subscribe c key weak now) := by
  have hmgr : CacheInv { s with mgr := (s.mgr.subscribe c key weak true now).2 } := by
    rcases s.mgr.subscribe_cases c key weak true now with ⟨r, -, heq⟩ | ⟨-, heq⟩
    · rw [heq]
      exact h.register
    · rw [heq]
      exact h.makeSubRef.register
  exact hmgr.requests _

theorem CacheInv.getFullStatus (h : CacheInv s) {k : Nat} (ht : s.getFullStatus k = some t) :
    CacheInv t := by
  unfold Cached.getFullStatus at ht
  split at ht
  · cases ht
    exact h.requests _
  · cases ht

theorem CacheInv.maybeCacheStatusResult (h : CacheInv s) {k : Nat}
    (htime : InTime s (.maybeCacheStatusResult k))
    (ht : s.maybeCacheStatusResult cacheable k = some t) : CacheInv t := by
  unfold Cached.maybeCacheStatusResult at ht
  split at ht
  · next key status hget =>
      cases ht
      rcases s.mgr.maybeCacheStatusResult_cases cacheable true key status with
        heq | ⟨r, hsub, hlast, hcached, heq⟩
      · rw [heq]
        exact h.requests _
      · rw [heq]
        refine ⟨h.wf.setObject rfl, h.holds_lt, ?_, ?_⟩
        · intro key' r' hr' status' hstatus'
          rw [Manager.objects_setObject] at hstatus'
          split_ifs at hstatus' with href
          · cases hstatus'
            rw [href] at hr' ⊢
            obtain rfl := h.wf.eq_of_ref hsub hr'
            rcases htime key status hget with hcur | hpend | hother
            · exact .inl hcur
            · exact .inr (.inl hpend)
            · rcases hother r hsub with hheld | hlast' | hcached'
              · exact .inr (.inr hheld)
              · exact absurd hlast hlast'
              · exact absurd hcached hcached'
          · exact h.cached key' r' hr' status' hstatus'
        · intro r' status' todo hround
          have hkey : ((s.mgr.setObject r { s.mgr.objects r with
              cachedStatus := some status }).objects r').key = (s.mgr.objects r').key := by
            rw [Manager.objects_setObject]
            split_ifs with href
            · rw [href]
            · rfl
          rw [hkey]
          exact h.computed r' status' todo hround
  · cases ht

theorem CacheInv.change (h : CacheInv s) (keys : Finset HashX) (status : HashX → σ) :
    CacheInv (s.change keys status) := by
  have hmove : ∀ key st, st = s.status key ∨ key ∈ s.mgr.pendingNotifications →
      st = (s.change keys status).status key ∨
        key ∈ (s.change keys status).mgr.pendingNotifications := by
    intro key st hst
    by_cases hkey : key ∈ keys
    · exact .inr (Finset.mem_union_right _ hkey)
    · refine hst.imp ?_ (fun hp => Finset.mem_union_left _ hp)
      intro hcur
      simp only [Cached.change, if_neg hkey]
      exact hcur
  refine ⟨h.wf.congr (fun _ _ hr => hr) rfl (fun _ => rfl), h.holds_lt, ?_, ?_⟩
  · intro key r hr st hst
    rcases h.cached key r hr st hst with hcur | hpend | hheld
    · exact (hmove key st (.inl hcur)).imp_right .inl
    · exact (hmove key st (.inr hpend)).imp_right .inl
    · exact .inr (.inr hheld)
  · intro r st todo hround
    exact hmove _ st (h.computed r st todo hround)

theorem CacheInv.takePending (h : CacheInv s) {order : List SubRef} (hidle : s.round = .idle)
    (horder : TakesPending s.mgr order) : CacheInv (s.takePending order) := by
  refine ⟨h.wf.congr (fun _ _ hr => hr) rfl (fun _ => rfl), ?_, ?_, ?_⟩
  · intro r hr
    simp only [Cached.takePending, Round.holds_next] at hr
    obtain ⟨key, -, hsub⟩ := (horder.2 r).mp hr
    exact h.wf.lt key r hsub
  · intro key r hr st hst
    simp only [Cached.takePending, Round.holds_next]
    rcases h.cached key r hr st hst with hcur | hpend | hheld
    · exact .inl hcur
    · exact .inr (.inr ((horder.2 r).mpr ⟨key, hpend, hr⟩))
    · rw [hidle] at hheld
      cases hheld
  · intro r st todo hround
    cases order <;> cases hround

theorem CacheInv.check (h : CacheInv s) (ht : s.check = some t) : CacheInv t := by
  unfold Cached.check at ht
  split at ht
  · next r todo hround =>
      have hholds : s.round.holds = r :: todo := by
        rw [hround]
        rfl
      rcases s.mgr.checkPending_cases r with ⟨-, heq⟩ | ⟨-, heq⟩
      · simp only [heq, Bool.false_eq_true, if_false] at ht
        cases ht
        refine ⟨h.wf.setObject rfl, ?_, ?_, ?_⟩
        · intro r' hr'
          rw [Round.holds_next] at hr'
          exact h.holds_lt r' (hholds ▸ List.mem_cons_of_mem _ hr')
        · intro key r' hr' st hst
          rw [Manager.objects_setObject] at hst
          split_ifs at hst with href
          · rcases h.cached key r' hr' st hst with hcur | hpend | hheld
            · exact .inl hcur
            · exact .inr (.inl hpend)
            · rw [hholds] at hheld
              rw [Round.holds_next]
              exact .inr (.inr ((List.mem_cons.mp hheld).resolve_left href))
        · intro r' st todo' hcomp
          cases todo <;> cases hcomp
      · simp only [heq, if_true] at ht
        cases ht
        refine ⟨h.wf, ?_, ?_, ?_⟩
        · intro r' hr'
          exact h.holds_lt r' (hholds ▸ hr')
        · intro key r' hr' st hst
          have hold := h.cached key r' hr' st hst
          rw [hholds] at hold
          exact hold
        · intro r' st todo' hcomp
          cases hcomp
  · cases ht

theorem CacheInv.compute (h : CacheInv s) (ht : s.compute = some t) : CacheInv t := by
  unfold Cached.compute at ht
  split at ht
  · next r todo hround =>
      cases ht
      refine ⟨h.wf, ?_, ?_, ?_⟩
      · intro r' hr'
        refine h.holds_lt r' ?_
        rw [hround]
        exact hr'
      · intro key r' hr' st hst
        have hold := h.cached key r' hr' st hst
        rw [hround] at hold
        exact hold
      · intro r' st todo' hcomp
        cases hcomp
        exact .inl rfl
  · cases ht

theorem CacheInv.unsubscribe (h : CacheInv s) (c : ClientId) (key : HashX) (now : Int) :
    CacheInv { s with mgr := (s.mgr.unsubscribe c key true now).2 } := by
  unfold Manager.unsubscribe
  cases s.mgr.subs key with
  | none => exact h
  | some r =>
      simp only
      split_ifs
      · exact h.setObject rfl rfl
      · exact h

theorem CacheInv.destroyClient (h : CacheInv s) (held : List SubRef) (c : ClientId)
    (now : Int) : CacheInv { s with mgr := s.mgr.destroyClient held c now } := by
  have hobj : ∀ r, ((s.mgr.destroyClient held c now).objects r).key = (s.mgr.objects r).key ∧
      ((s.mgr.destroyClient held c now).objects r).cachedStatus =
        (s.mgr.objects r).cachedStatus := by
    intro r
    simp only [Manager.destroyClient]
    split_ifs <;> exact ⟨rfl, rfl⟩
  exact h.frame (h.wf.destroyClient held) le_rfl rfl (fun r _ => (hobj r).1)
    (fun _ r hr => .inr ⟨hr, (hobj r).2⟩)

theorem CacheInv.removeZombies (h : CacheInv s) (forced : Bool) (now : Int) :
    CacheInv { s with mgr := s.mgr.removeZombies forced now } := by
  refine h.frame (h.wf.removeZombies forced) le_rfl rfl (fun _ _ => rfl) ?_
  intro key r hr
  exact .inr ⟨Manager.subs_of_removeZombies hr, rfl⟩

theorem cacheInv_of_init (h : CachedInit s) : CacheInv s := by
  obtain ⟨hsubs, -, hround⟩ := h
  refine ⟨⟨?_, ?_⟩, ?_, ?_, ?_⟩
  · simp [hsubs]
  · simp [hsubs]
  · simp [hround, Round.holds]
  · simp [hsubs]
  · simp [hround]

variable [DecidableEq σ]

theorem CacheInv.publish (h : CacheInv s) {now : Int} (ht : s.publish now = some t) :
    CacheInv t := by
  unfold Cached.publish at ht
  split at ht
  · next r status todo hround =>
      have hholds : s.round.holds = r :: todo := by
        rw [hround]
        rfl
      cases ht
      simp only [Manager.publish]
      refine ⟨h.wf.setObject rfl, ?_, ?_, ?_⟩
      · intro r' hr'
        rw [Round.holds_next] at hr'
        exact h.holds_lt r' (hholds ▸ List.mem_cons_of_mem _ hr')
      · intro key r' hr' st hst
        rw [Manager.objects_setObject] at hst
        by_cases heq : r' = r
        · rw [if_pos heq] at hst
          simp only [if_true] at hst
          cases hst
          rw [heq] at hr'
          have hcomp := h.computed r status todo hround
          rw [h.wf.key_eq key r hr'] at hcomp
          exact hcomp.imp_right .inl
        · rw [if_neg heq] at hst
          rcases h.cached key r' hr' st hst with hcur | hpend | hheld
          · exact .inl hcur
          · exact .inr (.inl hpend)
          · rw [hholds] at hheld
            rw [Round.holds_next]
            exact .inr (.inr ((List.mem_cons.mp hheld).resolve_left heq))
      · intro r' st todo' hcomp
        cases todo <;> cases hcomp
  · cases ht

theorem CacheInv.step (h : CacheInv s) {op : CachedOp σ} (htime : InTime s op)
    (ht : op.Runs cacheable s t) : CacheInv t := by
  cases ht with
  | subscribe c key weak now => exact h.subscribe c key weak now
  | getFullStatus k ht => exact h.getFullStatus ht
  | maybeCacheStatusResult k ht => exact h.maybeCacheStatusResult htime ht
  | change keys status => exact h.change keys status
  | takePending order hidle horder => exact h.takePending hidle horder
  | check ht => exact h.check ht
  | compute ht => exact h.compute ht
  | publish now ht => exact h.publish ht
  | unsubscribe c key now => exact h.unsubscribe c key now
  | destroyClient c now => exact h.destroyClient _ c now
  | removeZombies forced now => exact h.removeZombies forced now

/--
In every run in which every status offered to the cache is in time: with no
request and no round in flight and nothing pending, the cached status of every
subscription in the table is empty or the current status of its key.
-/
theorem cached_status_current (hs : Reachable CachedInit (CachedStep cacheable InTime) s)
    (hrest : s.requests = [] ∧ s.round = .idle ∧ s.mgr.pendingNotifications = ∅) :
    ∀ key r, s.mgr.subs key = some r →
      (s.mgr.objects r).cachedStatus = none ∨
        (s.mgr.objects r).cachedStatus = some (s.status key) := by
  have hinv : CacheInv s := by
    refine hs.invariant (fun s h => cacheInv_of_init h) ?_
    rintro s t hst ⟨op, htime, hop⟩
    exact hst.step htime hop
  intro key r hr
  cases hcached : (s.mgr.objects r).cachedStatus with
  | none => exact .inl rfl
  | some status =>
      right
      rcases hinv.cached key r hr status hcached with hcur | hpend | hheld
      · rw [hcur]
      · rw [hrest.2.2] at hpend
        simp at hpend
      · rw [hrest.2.1] at hheld
        cases hheld

end Steps

theorem cachedInit_zero : CachedInit { status := fun _ => 0 : Cached Nat } := ⟨rfl, rfl, rfl⟩

/-- A status computed for a subscriber and cached before anything changes. -/
theorem cached_status_current_in_time :
    ∃ s : Cached Nat, (s.mgr.subs 7 = some 0 ∧ (s.mgr.objects 0).cachedStatus = some 0) ∧
      ∀ key r, s.mgr.subs key = some r → (s.mgr.objects r).cachedStatus = none ∨
        (s.mgr.objects r).cachedStatus = some (s.status key) := by
  have hrun : Reachable CachedInit (CachedStep (fun _ => true) InTime) _ :=
    .next (.next (.next (.start cachedInit_zero)
      ⟨.subscribe 1 7 false 0, trivial, .subscribe 1 7 false 0⟩)
      ⟨.getFullStatus 0, trivial, .getFullStatus 0 rfl⟩)
      ⟨.maybeCacheStatusResult 0, by rintro key status ⟨⟩; exact .inl rfl,
        .maybeCacheStatusResult 0 rfl⟩
  exact ⟨_, ⟨rfl, rfl⟩, cached_status_current hrun ⟨rfl, rfl, rfl⟩⟩

/--
A status query without subscribers computes its status before a change and
caches it after the round for the change.
-/
theorem late_offer_is_cached :
    ¬ ∀ s : Cached Nat,
      Reachable CachedInit (CachedStep (fun _ => true) (fun _ _ => True)) s →
      s.requests = [] ∧ s.round = .idle ∧ s.mgr.pendingNotifications = ∅ →
      ∀ key r, s.mgr.subs key = some r → (s.mgr.objects r).cachedStatus = none ∨
        (s.mgr.objects r).cachedStatus = some (s.status key) := by
  intro h
  have hasked : Reachable CachedInit (CachedStep (fun _ => true) (fun _ _ => True)) _ :=
    .next (.next (.next (.start cachedInit_zero)
      ⟨_, trivial, .subscribe 1 7 true 0⟩)
      ⟨_, trivial, .getFullStatus 0 rfl⟩)
      ⟨_, trivial, .change {7} (fun _ => 1)⟩
  have hrun : Reachable CachedInit (CachedStep (fun _ => true) (fun _ _ => True)) _ :=
    .next (.next (.next hasked
      ⟨_, trivial, .takePending [0] rfl (takesPending_singleton rfl rfl)⟩)
      ⟨_, trivial, .check rfl⟩)
      ⟨_, trivial, .maybeCacheStatusResult 0 rfl⟩
  have hstale := h _ hrun ⟨rfl, rfl, rfl⟩ 7 0 rfl
  have hfalse : some 0 = (none : Option Nat) ∨ (some 0 : Option Nat) = some 1 := hstale
  simp at hfalse

end SubsMgr
end Shulcrum
