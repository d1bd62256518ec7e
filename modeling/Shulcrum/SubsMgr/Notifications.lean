import Shulcrum.Lib.Invariant
import Shulcrum.SubsMgr.Model

/-!
# Status changes and the clients of the DSProof manager

The DSProof manager has no cache.  A client that subscribes is registered
first and gets a status computed after that; later changes reach it by the
notification rounds.  A round sends nothing when the status it computed is the
last one it sent for the key.  A client that subscribed in between may have
been given another status, and then keeps it.

The statuses given to a client are compared by the time at which they were
computed, since a notification can be sent after a subscribe result that was
computed later.

**Results.**
* `FeedInv`: every client has the current status, or will get it, in the runs
  in which nothing is held back from a client that has another status.
* `latest_status_current`: in these runs, at rest, every client has it.
-/

namespace Shulcrum
namespace SubsMgr

open Invariant

/-- The manager and the storage, the subscribe calls whose status is still to be computed, the
round, the queued calls of the `unsubscribeRequested` handlers, and for every client and key the
status computed last among those given, with its time. -/
structure Feed (σ : Type) where
  mgr : Manager σ := {}
  /-- `getFullStatus`. -/
  status : HashX → σ
  /-- The number of statuses computed. -/
  clock : Nat := 0
  asking : List (ClientId × HashX) := []
  round : Round (Nat × σ) := .idle
  forced : List (ClientId × HashX) := []
  given : ClientId → HashX → Option (Nat × σ) := fun _ _ => none

/-- The atomic steps. -/
inductive FeedOp (σ : Type) where
  | subscribe (c : ClientId) (key : HashX) (now : Int)
  | answer (k : Nat)
  /-- The storage changes, at the given keys only, and enqueues them. -/
  | change (keys : Finset HashX) (status : HashX → σ)
  | takePending (order : List SubRef)
  | check
  | compute
  | publish (now : Int)
  | unsubscribe (c : ClientId) (key : HashX) (now : Int)
  /-- The signal is emitted for the keys, and a call is queued for every connected client. -/
  | unsubscribeClientsForKeys (keys : Finset HashX) (queued : List (ClientId × HashX))
  | unsubscribeRequested (k : Nat) (now : Int)

namespace Feed

variable {σ : Type}

def setGiven (s : Feed σ) (c : ClientId) (key : HashX) (g : Option (Nat × σ)) : Feed σ :=
  { s with given := fun c' key' => if c' = c ∧ key' = key then g else s.given c' key' }

theorem given_setGiven (s : Feed σ) (c c' : ClientId) (key key' : HashX)
    (g : Option (Nat × σ)) :
    (s.setGiven c key g).given c' key' =
      if c' = c ∧ key' = key then g else s.given c' key' := rfl

/-- `SubsMgr::subscribe`, which gives no cached status here. -/
def subscribe (s : Feed σ) (c : ClientId) (key : HashX) (now : Int) : Feed σ :=
  { s with
    mgr := (s.mgr.subscribe c key false false now).2
    asking := (c, key) :: s.asking }

/-- The status of the `k`-th subscribe call is computed and given to its client. -/
def answer (s : Feed σ) (k : Nat) : Option (Feed σ) :=
  match s.asking[k]? with
  | none => none
  | some (c, key) =>
      some
        { s.setGiven c key (some (s.clock, s.status key)) with
          asking := s.asking.eraseIdx k
          clock := s.clock + 1 }

/-- A change of the storage with its `enqueueNotifications`. -/
def change (s : Feed σ) (keys : Finset HashX) (status : HashX → σ) : Feed σ :=
  { s with
    mgr := s.mgr.enqueueNotifications keys
    status := fun key => if key ∈ keys then status key else s.status key }

/-- The first lock of `doNotifyAllPending`. -/
def takePending (s : Feed σ) (order : List SubRef) : Feed σ :=
  { s with
    mgr := { s.mgr with pendingNotifications := ∅ }
    round := .next order }

def check (s : Feed σ) : Option (Feed σ) :=
  match s.round with
  | .checking (r :: todo) =>
      let result := s.mgr.checkPending r
      some
        { s with
          mgr := result.2
          round := if result.1 then .checked r todo else .next todo }
  | _ => none

def compute (s : Feed σ) : Option (Feed σ) :=
  match s.round with
  | .checked r todo =>
      some
        { s with
          round := .computed r (s.clock, s.status (s.mgr.objects r).key) todo
          clock := s.clock + 1 }
  | _ => none

/-- The one of two statuses that was computed later. -/
def later (g : Option (Nat × σ)) (t : Nat) (status : σ) : Nat × σ :=
  match g with
  | some (t', status') => if t < t' then (t', status') else (t, status)
  | none => (t, status)

def publish [DecidableEq σ] (s : Feed σ) (now : Int) : Option (Feed σ) :=
  match s.round with
  | .computed r (t, status) todo =>
      let result := s.mgr.publish false r status now
      let key := (s.mgr.objects r).key
      some
        { s with
          mgr := result.2
          round := .next todo
          given := fun c key' =>
            if key' = key ∧ c ∈ result.1 then some (later (s.given c key') t status)
            else s.given c key' }
  | _ => none

/-- The handler of the `k`-th queued call: the client is sent an empty status and is
unsubscribed. -/
def unsubscribeRequested (s : Feed σ) (k : Nat) (now : Int) : Option (Feed σ) :=
  match s.forced[k]? with
  | none => none
  | some (c, key) =>
      some
        { s.setGiven c key none with
          mgr := (s.mgr.unsubscribe c key false now).2
          forced := s.forced.eraseIdx k }

end Feed

section Run

variable {σ : Type}

/-- The signals of `unsubscribeClientsForKeys` queue the calls of the handlers. -/
def Feed.unsubscribeClientsForKeys (s : Feed σ) (keys : Finset HashX)
    (queued : List (ClientId × HashX)) : Feed σ :=
  { s with
    mgr := s.mgr.unsubscribeClientsForKeys keys
    forced := s.forced ++ queued }

/-- One atomic step. -/
inductive FeedOp.Runs [DecidableEq σ] (s : Feed σ) : FeedOp σ → Feed σ → Prop
  | subscribe (c : ClientId) (key : HashX) (now : Int) :
      Runs s (.subscribe c key now) (s.subscribe c key now)
  | answer {t : Feed σ} (k : Nat) : s.answer k = some t → Runs s (.answer k) t
  | change (keys : Finset HashX) (status : HashX → σ) :
      Runs s (.change keys status) (s.change keys status)
  | takePending (order : List SubRef) :
      s.round = .idle → TakesPending s.mgr order →
      Runs s (.takePending order) (s.takePending order)
  | check {t : Feed σ} : s.check = some t → Runs s .check t
  | compute {t : Feed σ} : s.compute = some t → Runs s .compute t
  | publish {t : Feed σ} (now : Int) : s.publish now = some t → Runs s (.publish now) t
  | unsubscribe (c : ClientId) (key : HashX) (now : Int) :
      Runs s (.unsubscribe c key now) { s with mgr := (s.mgr.unsubscribe c key true now).2 }
  | unsubscribeClientsForKeys (keys : Finset HashX) (queued : List (ClientId × HashX)) :
      (∀ p, p ∈ queued ↔ p.2 ∈ keys ∧ p ∈ s.mgr.registered) →
      Runs s (.unsubscribeClientsForKeys keys queued) (s.unsubscribeClientsForKeys keys queued)
  | unsubscribeRequested {t : Feed σ} (k : Nat) (now : Int) :
      s.unsubscribeRequested k now = some t → Runs s (.unsubscribeRequested k now) t

/-- A step of the operations that `P` allows in the state before it. -/
def FeedStep [DecidableEq σ] (P : Feed σ → FeedOp σ → Prop) (s t : Feed σ) : Prop :=
  ∃ op, P s op ∧ op.Runs s t

/-- A manager just constructed. -/
def FeedInit (s : Feed σ) : Prop :=
  s.mgr.subs = (fun _ => none) ∧ s.asking = [] ∧ s.round = .idle ∧ s.forced = [] ∧
    s.given = fun _ _ => none

/--
A notification is held back as a duplicate only if every subscribed client has
the same status already, or is still to be given one.
-/
def Unswallowed (s : Feed σ) : FeedOp σ → Prop
  | .publish _ => ∀ r t status todo, s.round = .computed r (t, status) todo →
      (s.mgr.objects r).lastStatusNotified = some status →
      ∀ c ∈ (s.mgr.objects r).subscribedClientIds,
        (c, (s.mgr.objects r).key) ∈ s.asking ∨
          ∃ t', s.given c (s.mgr.objects r).key = some (t', status)
  | _ => True

/-- A status given is the current one, or a newer one will be given. -/
def Fresh (s : Feed σ) (key : HashX) (r : SubRef) (t : Nat) (status : σ) : Prop :=
  status = s.status key ∨ key ∈ s.mgr.pendingNotifications ∨
    (r ∈ s.round.holds ∧ ∀ t' status' todo, s.round = .computed r (t', status') todo → t < t')

/-- The invariant of the runs in which nothing is swallowed. -/
structure FeedInv (s : Feed σ) : Prop where
  wf : s.mgr.WF
  holds : ∀ r ∈ s.round.holds, s.mgr.subs (s.mgr.objects r).key = some r
  time : ∀ c key t status, s.given c key = some (t, status) → t < s.clock
  computed : ∀ r t status todo, s.round = .computed r (t, status) todo →
    t < s.clock ∧ (status = s.status (s.mgr.objects r).key ∨
      (s.mgr.objects r).key ∈ s.mgr.pendingNotifications)
  given : ∀ key r, s.mgr.subs key = some r → ∀ c ∈ (s.mgr.objects r).subscribedClientIds,
    (c, key) ∈ s.asking ∨
      ∃ t status, s.given c key = some (t, status) ∧ Fresh s key r t status

end Run

section Steps

variable {σ : Type} {s t : Feed σ}

/--
Steps between rounds and changes: every client that is registered afterwards
is still to be given a status, or it was registered before and has what it had.
-/
theorem FeedInv.frame (h : FeedInv s) {m : Manager σ} {asking forced : List (ClientId × HashX)}
    {given : ClientId → HashX → Option (Nat × σ)} (hwf : m.WF)
    (hpending : m.pendingNotifications = s.mgr.pendingNotifications)
    (hholds : ∀ r ∈ s.round.holds, (m.objects r).key = (s.mgr.objects r).key ∧
      m.subs (s.mgr.objects r).key = some r)
    (htime : ∀ c key t status, given c key = some (t, status) → t < s.clock)
    (hclients : ∀ key r, m.subs key = some r → ∀ c ∈ (m.objects r).subscribedClientIds,
      (c, key) ∈ asking ∨ s.mgr.subs key = some r ∧
        c ∈ (s.mgr.objects r).subscribedClientIds ∧
        ((c, key) ∈ s.asking → (c, key) ∈ asking) ∧ given c key = s.given c key) :
    FeedInv ⟨m, s.status, s.clock, asking, s.round, forced, given⟩ := by
  refine ⟨hwf, ?_, htime, ?_, ?_⟩
  · intro r hr
    obtain ⟨hkey, hsub⟩ := hholds r hr
    rw [hkey]
    exact hsub
  · intro r t status todo hround
    have hr : r ∈ s.round.holds := by
      rw [show s.round = .computed r (t, status) todo from hround]
      exact List.mem_cons_self
    rw [hpending, (hholds r hr).1]
    exact h.computed r t status todo hround
  · intro key r hr c hc
    rcases hclients key r hr c hc with hask | ⟨hsub, hmem, hask, hgiven⟩
    · exact .inl hask
    · refine (h.given key r hsub c hmem).imp hask ?_
      rintro ⟨t, status, hsome, hfresh⟩
      refine ⟨t, status, hgiven.trans hsome, ?_⟩
      unfold Fresh at hfresh ⊢
      rw [hpending]
      exact hfresh

/-- An object is replaced by one with the same key. -/
theorem FeedInv.setObject (h : FeedInv s) {r : SubRef} {sub : Subscription σ}
    {asking forced : List (ClientId × HashX)} {given : ClientId → HashX → Option (Nat × σ)}
    {n : Int} (hkey : sub.key = (s.mgr.objects r).key)
    (htime : ∀ c key t status, given c key = some (t, status) → t < s.clock)
    (hclients : ∀ key r', s.mgr.subs key = some r' →
      ∀ c ∈ (if r' = r then sub else s.mgr.objects r').subscribedClientIds,
      (c, key) ∈ asking ∨ c ∈ (s.mgr.objects r').subscribedClientIds ∧
        ((c, key) ∈ s.asking → (c, key) ∈ asking) ∧ given c key = s.given c key) :
    FeedInv ⟨{ s.mgr.setObject r sub with nClientSubsActive := n }, s.status, s.clock, asking,
      s.round, forced, given⟩ := by
  refine h.frame (h.wf.setObject_count hkey) rfl ?_
    htime ?_
  · intro r' hr'
    refine ⟨?_, h.holds r' hr'⟩
    rw [Manager.objects_setObject]
    split_ifs with heq
    · rw [heq, hkey]
    · rfl
  · intro key r' hr' c hc
    rw [Manager.objects_setObject] at hc
    exact (hclients key r' hr' c hc).imp_right fun hold => ⟨hr', hold⟩

/-- A new object has no clients. -/
theorem FeedInv.makeSubRef (h : FeedInv s) {key : HashX} {now : Int}
    (hnone : s.mgr.subs key = none) :
    FeedInv { s with mgr := s.mgr.makeSubRef key now } := by
  refine h.frame h.wf.makeSubRef rfl ?_ h.time ?_
  · intro r hr
    have hsub := h.holds r hr
    have hne : (s.mgr.objects r).key ≠ key := by
      intro heq
      rw [heq, hnone] at hsub
      cases hsub
    rw [Manager.objects_makeSubRef_of_lt (h.wf.lt _ r hsub), Manager.subs_makeSubRef, if_neg hne]
    exact ⟨rfl, hsub⟩
  · intro key' r hr c hc
    rw [Manager.subs_makeSubRef] at hr
    split_ifs at hr with heq
    · cases hr
      rw [Manager.objects_makeSubRef, if_pos rfl] at hc
      simp at hc
    · rw [Manager.objects_makeSubRef_of_lt (h.wf.lt key' r hr)] at hc
      exact .inr ⟨hr, hc, id, rfl⟩

theorem FeedInv.register (h : FeedInv s) {key : HashX} {r : SubRef} {wasnew : Bool}
    {c : ClientId} {now : Int} (hr : s.mgr.subs key = some r) :
    FeedInv
      { s with
        mgr := (s.mgr.register r wasnew c false false now).2
        asking := (c, key) :: s.asking } := by
  by_cases hold : false = true ∨ wasnew = false ∧ c ∈ (s.mgr.objects r).subscribedClientIds
  · rw [Manager.register_old hold]
    refine h.setObject (n := s.mgr.nClientSubsActive) rfl h.time ?_
    intro key' r' hr' c' hc'
    refine .inr ⟨?_, List.mem_cons_of_mem _, rfl⟩
    split_ifs at hc' with heq
    · rw [heq]
      exact hc'
    · exact hc'
  · rw [Manager.register_new hold]
    refine h.setObject rfl h.time ?_
    intro key' r' hr' c' hc'
    split_ifs at hc' with heq
    · subst heq
      obtain rfl := h.wf.eq_of_ref hr hr'
      rcases Finset.mem_insert.mp hc' with rfl | hmem
      · exact .inl List.mem_cons_self
      · exact .inr ⟨hmem, List.mem_cons_of_mem _, rfl⟩
    · exact .inr ⟨hc', List.mem_cons_of_mem _, rfl⟩

theorem FeedInv.subscribe (h : FeedInv s) (c : ClientId) (key : HashX) (now : Int) :
    FeedInv (s.subscribe c key now) := by
  unfold Feed.subscribe
  rcases s.mgr.subscribe_cases c key false false now with ⟨r, hr, heq⟩ | ⟨hnone, heq⟩
  · rw [heq]
    exact h.register hr
  · rw [heq]
    exact (h.makeSubRef hnone).register (by rw [Manager.subs_makeSubRef, if_pos rfl])

/-- A client leaves, and what was given to it for the key may be forgotten. -/
theorem FeedInv.leave (h : FeedInv s) {c : ClientId} {key : HashX} {updateTS : Bool} {now : Int}
    {forced : List (ClientId × HashX)} {given : ClientId → HashX → Option (Nat × σ)}
    (htime : ∀ c key t status, given c key = some (t, status) → t < s.clock)
    (hgiven : ∀ c' key', (c', key') ≠ (c, key) → given c' key' = s.given c' key') :
    FeedInv
      { s with
        mgr := (s.mgr.unsubscribe c key updateTS now).2
        forced := forced
        given := given } := by
  rcases s.mgr.unsubscribe_cases c key updateTS now with ⟨hno, heq⟩ | ⟨r, hr, -, heq⟩
  · rw [heq]
    refine h.frame h.wf rfl (fun r hr => ⟨rfl, h.holds r hr⟩) htime ?_
    intro key' r hr c' hc'
    refine .inr ⟨hr, hc', id, hgiven c' key' ?_⟩
    intro hpair
    exact hno (hpair ▸ ⟨r, hr, hc'⟩)
  · rw [heq]
    refine h.setObject rfl htime ?_
    intro key' r' hr' c' hc'
    by_cases href : r' = r
    · rw [if_pos href] at hc'
      obtain ⟨hne, hmem⟩ := Finset.mem_erase.mp hc'
      rw [href]
      exact .inr ⟨hmem, id, hgiven c' key' fun hpair => hne (congrArg Prod.fst hpair)⟩
    · rw [if_neg href] at hc'
      refine .inr ⟨hc', id, hgiven c' key' ?_⟩
      intro hpair
      obtain rfl : key' = key := congrArg Prod.snd hpair
      rw [hr] at hr'
      exact href (Option.some.inj hr').symm

theorem FeedInv.unsubscribeRequested (h : FeedInv s) {k : Nat} {now : Int}
    (ht : s.unsubscribeRequested k now = some t) : FeedInv t := by
  unfold Feed.unsubscribeRequested at ht
  split at ht
  · cases ht
  · next c key hget =>
      cases ht
      refine h.leave ?_ ?_
      · intro c' key' t status hsome
        rw [Feed.given_setGiven] at hsome
        split_ifs at hsome
        exact h.time c' key' t status hsome
      · intro c' key' hne
        exact if_neg fun heq => hne (Prod.ext heq.1 heq.2)

theorem FeedInv.unsubscribeClientsForKeys (h : FeedInv s) (keys : Finset HashX)
    (queued : List (ClientId × HashX)) : FeedInv (s.unsubscribeClientsForKeys keys queued) := by
  refine h.frame (h.wf.unsubscribeClientsForKeys keys) rfl ?_ h.time ?_
  · intro r hr
    refine ⟨?_, h.holds r hr⟩
    simp only [Manager.unsubscribeClientsForKeys]
    split_ifs <;> rfl
  · intro key r hr c hc
    rw [Manager.subscribedClientIds_unsubscribeClientsForKeys] at hc
    exact .inr ⟨hr, hc, id, rfl⟩

/-- The status of a subscribe call is current when it is given. -/
theorem FeedInv.answer (h : FeedInv s) {k : Nat} (ht : s.answer k = some t) : FeedInv t := by
  unfold Feed.answer at ht
  split at ht
  · cases ht
  · next c key hget =>
      cases ht
      refine ⟨h.wf, h.holds, ?_, ?_, ?_⟩
      · intro c' key' t status hsome
        rw [Feed.given_setGiven] at hsome
        split_ifs at hsome
        · cases hsome
          exact Nat.lt_succ_self _
        · exact Nat.lt_succ_of_lt (h.time c' key' t status hsome)
      · intro r t status todo hround
        obtain ⟨hlt, hcur⟩ := h.computed r t status todo hround
        exact ⟨Nat.lt_succ_of_lt hlt, hcur⟩
      · intro key' r hr c' hc'
        rw [Feed.given_setGiven]
        by_cases hpair : c' = c ∧ key' = key
        · right
          rw [if_pos hpair, hpair.2]
          exact ⟨_, _, rfl, .inl rfl⟩
        · rw [if_neg hpair]
          refine (h.given key' r hr c' hc').imp_left ?_
          intro hask
          obtain ⟨i, hi⟩ := List.mem_iff_getElem?.mp hask
          refine List.mem_eraseIdx_iff_getElem?.mpr ⟨i, ?_, hi⟩
          rintro rfl
          rw [hget] at hi
          cases hi
          exact hpair ⟨rfl, rfl⟩

theorem FeedInv.change (h : FeedInv s) (keys : Finset HashX) (status : HashX → σ) :
    FeedInv (s.change keys status) := by
  have hmove : ∀ key st, st = s.status key ∨ key ∈ s.mgr.pendingNotifications →
      st = (s.change keys status).status key ∨
        key ∈ (s.change keys status).mgr.pendingNotifications := by
    intro key st hst
    by_cases hkey : key ∈ keys
    · exact .inr (Finset.mem_union_right _ hkey)
    · refine hst.imp ?_ (fun hp => Finset.mem_union_left _ hp)
      intro hcur
      simp only [Feed.change, if_neg hkey]
      exact hcur
  refine ⟨h.wf.congr (fun _ _ hr => hr) rfl (fun _ => rfl), h.holds, h.time, ?_, ?_⟩
  · intro r t st todo hround
    obtain ⟨hlt, hcur⟩ := h.computed r t st todo hround
    exact ⟨hlt, hmove _ st hcur⟩
  · intro key r hr c hc
    refine (h.given key r hr c hc).imp_right ?_
    rintro ⟨t, st, hsome, hfresh⟩
    refine ⟨t, st, hsome, ?_⟩
    rcases hfresh with hcur | hpend | hheld
    · exact (hmove key st (.inl hcur)).imp_right .inl
    · exact (hmove key st (.inr hpend)).imp_right .inl
    · exact .inr (.inr hheld)

theorem FeedInv.takePending (h : FeedInv s) {order : List SubRef} (hidle : s.round = .idle)
    (horder : TakesPending s.mgr order) : FeedInv (s.takePending order) := by
  refine ⟨h.wf.congr (fun _ _ hr => hr) rfl (fun _ => rfl), ?_, h.time, ?_, ?_⟩
  · intro r hr
    simp only [Feed.takePending, Round.holds_next] at hr ⊢
    obtain ⟨key, -, hsub⟩ := (horder.2 r).mp hr
    rw [h.wf.key_eq key r hsub]
    exact hsub
  · intro r t st todo hround
    cases order <;> cases hround
  · intro key r hr c hc
    refine (h.given key r hr c hc).imp_right ?_
    rintro ⟨t, st, hsome, hfresh⟩
    refine ⟨t, st, hsome, ?_⟩
    rcases hfresh with hcur | hpend | ⟨hheld, -⟩
    · exact .inl hcur
    · refine .inr (.inr ⟨?_, ?_⟩)
      · simp only [Feed.takePending, Round.holds_next]
        exact (horder.2 r).mpr ⟨key, hpend, hr⟩
      · intro t' st' todo hround
        cases order <;> cases hround
    · rw [hidle] at hheld
      cases hheld

/--
The round is done with a subscription: its clients have what they need, and
the other subscriptions are still held by the round if they were.
-/
theorem FeedInv.done (h : FeedInv s) {r : SubRef} {todo : List SubRef} {sub : Subscription σ}
    {given : ClientId → HashX → Option (Nat × σ)} (hholds : s.round.holds = r :: todo)
    (hkey : sub.key = (s.mgr.objects r).key)
    (hids : sub.subscribedClientIds = (s.mgr.objects r).subscribedClientIds)
    (htime : ∀ c key t status, given c key = some (t, status) → t < s.clock)
    (hothers : ∀ c key, key ≠ (s.mgr.objects r).key → given c key = s.given c key)
    (hdone : ∀ c ∈ (s.mgr.objects r).subscribedClientIds,
      (c, (s.mgr.objects r).key) ∈ s.asking ∨
        ∃ t status, given c (s.mgr.objects r).key = some (t, status) ∧
          (status = s.status (s.mgr.objects r).key ∨
            (s.mgr.objects r).key ∈ s.mgr.pendingNotifications)) :
    FeedInv { s with mgr := s.mgr.setObject r sub, round := .next todo, given := given } := by
  have hnext : ∀ r' g todo', (Round.next todo : Round (Nat × σ)) ≠ .computed r' g todo' := by
    intro r' g todo' hcomp
    cases todo <;> cases hcomp
  have hobj : ∀ r', ((s.mgr.setObject r sub).objects r').key = (s.mgr.objects r').key := by
    intro r'
    rw [Manager.objects_setObject]
    split_ifs with heq
    · rw [heq, hkey]
    · rfl
  refine ⟨h.wf.setObject hkey, ?_, htime, ?_, ?_⟩
  · intro r' hr'
    rw [Round.holds_next] at hr'
    rw [hobj]
    exact h.holds r' (hholds ▸ List.mem_cons_of_mem _ hr')
  · intro r' t status todo' hcomp
    exact absurd hcomp (hnext _ _ _)
  · intro key r' hr' c hc
    rw [Manager.objects_setObject] at hc
    by_cases href : r' = r
    · rw [if_pos href, hids] at hc
      subst href
      have hdone := hdone c hc
      rw [h.wf.key_eq key r' hr'] at hdone
      refine hdone.imp_right ?_
      rintro ⟨t, status, hsome, hcur⟩
      exact ⟨t, status, hsome, hcur.imp_right .inl⟩
    · rw [if_neg href] at hc
      have hne : key ≠ (s.mgr.objects r).key := by
        rintro rfl
        have hr := h.holds r (hholds ▸ List.mem_cons_self)
        exact href (Option.some.inj (hr'.symm.trans hr))
      refine (h.given key r' hr' c hc).imp_right ?_
      rintro ⟨t, status, hsome, hfresh⟩
      refine ⟨t, status, (hothers c key hne).trans hsome, hfresh.imp_right (Or.imp_right ?_)⟩
      rintro ⟨hheld, -⟩
      rw [hholds] at hheld
      rw [Round.holds_next]
      exact ⟨(List.mem_cons.mp hheld).resolve_left href, fun _ _ _ hcomp =>
        absurd hcomp (hnext _ _ _)⟩

theorem FeedInv.check (h : FeedInv s) (ht : s.check = some t) : FeedInv t := by
  unfold Feed.check at ht
  split at ht
  · next r todo hround =>
      have hholds : s.round.holds = r :: todo := by
        rw [hround]
        rfl
      rcases s.mgr.checkPending_cases r with ⟨hempty, heq⟩ | ⟨-, heq⟩
      · simp only [heq, Bool.false_eq_true, if_false] at ht
        cases ht
        refine h.done hholds rfl rfl h.time (fun _ _ _ => rfl) ?_
        simp [hempty]
      · simp only [heq, if_true] at ht
        cases ht
        refine ⟨h.wf, ?_, h.time, ?_, ?_⟩
        · intro r' hr'
          exact h.holds r' (hholds ▸ hr')
        · intro r' t st todo' hcomp
          cases hcomp
        · intro key r' hr' c hc
          refine (h.given key r' hr' c hc).imp_right ?_
          rintro ⟨t, st, hsome, hfresh⟩
          refine ⟨t, st, hsome, hfresh.imp_right (Or.imp_right ?_)⟩
          rintro ⟨hheld, -⟩
          rw [hholds] at hheld
          refine ⟨hheld, ?_⟩
          intro t' st' todo' hcomp
          cases hcomp
  · cases ht

theorem FeedInv.compute (h : FeedInv s) (ht : s.compute = some t) : FeedInv t := by
  unfold Feed.compute at ht
  split at ht
  · next r todo hround =>
      have hholds : s.round.holds = r :: todo := by
        rw [hround]
        rfl
      cases ht
      refine ⟨h.wf, ?_, ?_, ?_, ?_⟩
      · intro r' hr'
        exact h.holds r' (hholds ▸ hr')
      · intro c key t st hsome
        exact Nat.lt_succ_of_lt (h.time c key t st hsome)
      · intro r' t st todo' hcomp
        cases hcomp
        exact ⟨Nat.lt_succ_self _, .inl rfl⟩
      · intro key r' hr' c hc
        refine (h.given key r' hr' c hc).imp_right ?_
        rintro ⟨t, st, hsome, hfresh⟩
        refine ⟨t, st, hsome, hfresh.imp_right (Or.imp_right ?_)⟩
        rintro ⟨hheld, -⟩
        rw [hholds] at hheld
        refine ⟨hheld, ?_⟩
        intro t' st' todo' hcomp
        cases hcomp
        exact h.time c key t st hsome
  · cases ht

theorem feedInv_of_init (h : FeedInit s) : FeedInv s := by
  obtain ⟨hsubs, -, hround, -, hgiven⟩ := h
  refine ⟨⟨?_, ?_⟩, ?_, ?_, ?_, ?_⟩
  · simp [hsubs]
  · simp [hsubs]
  · simp [hround, Round.holds]
  · simp [hgiven]
  · simp [hround]
  · simp [hsubs]

/-- Of two statuses the later one is either of them. -/
theorem Feed.later_cases (g : Option (Nat × σ)) (t : Nat) (status : σ) :
    Feed.later g t status = (t, status) ∨
      ∃ t' status', g = some (t', status') ∧ t < t' ∧ Feed.later g t status = (t', status') := by
  rcases g with _ | ⟨t', status'⟩
  · exact .inl rfl
  · by_cases hlt : t < t'
    · exact .inr ⟨t', status', rfl, hlt, if_pos hlt⟩
    · exact .inl (if_neg hlt)

variable [DecidableEq σ]

/--
A notification reaches every client of the subscription unless the client has
a status computed after it.  One that is held back is what every client has.
-/
theorem FeedInv.publish (h : FeedInv s) {now : Int} (hkept : Unswallowed s (.publish now))
    (ht : s.publish now = some t) : FeedInv t := by
  unfold Feed.publish at ht
  split at ht
  · next r t status todo hround =>
      have hholds : s.round.holds = r :: todo := by
        rw [hround]
        rfl
      obtain ⟨hlt, hcur⟩ := h.computed r t status todo hround
      cases ht
      refine h.done hholds rfl rfl ?_ ?_ ?_
      · intro c key t' status' hsome
        split at hsome
        · have hlater := Option.some.inj hsome
          rcases Feed.later_cases (s.given c key) t status with heq | ⟨t₀, status₀, hold, -, heq⟩
          · rw [heq] at hlater
            cases hlater
            exact hlt
          · rw [heq] at hlater
            cases hlater
            exact h.time c key _ _ hold
        · exact h.time c key t' status' hsome
      · intro c key hne
        exact if_neg fun heq => hne heq.1
      · intro c hc
        rcases h.given _ r (h.holds r (hholds ▸ List.mem_cons_self)) c hc with hask | hgiven
        · exact .inl hask
        by_cases hlast : (s.mgr.objects r).lastStatusNotified = some status
        · have hnone : (s.mgr.publish false r status now).1 = ∅ := by
            simp [Manager.publish, hlast]
          simp only [hnone, Finset.notMem_empty, and_false, if_false]
          refine (hkept r t status todo hround hlast c hc).imp_right ?_
          rintro ⟨t', hsome⟩
          exact ⟨t', status, hsome, hcur⟩
        · have hall : (s.mgr.publish false r status now).1 =
              (s.mgr.objects r).subscribedClientIds := by
            simp [Manager.publish, hlast]
          right
          simp only [hall, hc, and_self, if_true]
          obtain ⟨t₀, status₀, hsome, hfresh⟩ := hgiven
          rcases Feed.later_cases (s.given c (s.mgr.objects r).key) t status with
            heq | ⟨t₁, status₁, hold, hlater, heq⟩
          · exact ⟨t, status, congrArg some heq, hcur⟩
          · rw [hsome] at hold
            cases hold
            refine ⟨t₀, status₀, congrArg some heq, ?_⟩
            rcases hfresh with hnow | hpend | ⟨-, htime⟩
            · exact .inl hnow
            · exact .inr hpend
            · exact absurd (htime t status todo hround) (Nat.lt_asymm hlater)
  · cases ht

theorem FeedInv.step (h : FeedInv s) {op : FeedOp σ} (hkept : Unswallowed s op)
    (ht : op.Runs s t) : FeedInv t := by
  cases ht with
  | subscribe c key now => exact h.subscribe c key now
  | answer k ht => exact h.answer ht
  | change keys status => exact h.change keys status
  | takePending order hidle horder => exact h.takePending hidle horder
  | check ht => exact h.check ht
  | compute ht => exact h.compute ht
  | publish now ht => exact h.publish hkept ht
  | unsubscribe c key now => exact h.leave h.time fun _ _ _ => rfl
  | unsubscribeClientsForKeys keys queued _ => exact h.unsubscribeClientsForKeys keys queued
  | unsubscribeRequested k now ht => exact h.unsubscribeRequested ht

/--
In every run in which nothing is held back from a client that has another
status: with nothing in flight and nothing pending, the latest status given to
a subscribed client is the current status of the key.
-/
theorem latest_status_current (hs : Reachable FeedInit (FeedStep Unswallowed) s)
    (hrest : s.asking = [] ∧ s.round = .idle ∧ s.forced = [] ∧
      s.mgr.pendingNotifications = ∅) :
    ∀ c key, (c, key) ∈ s.mgr.registered → ∃ t, s.given c key = some (t, s.status key) := by
  have hinv : FeedInv s := by
    refine hs.invariant (fun s h => feedInv_of_init h) ?_
    rintro s t hst ⟨op, hkept, hop⟩
    exact hst.step hkept hop
  obtain ⟨hasking, hidle, -, hpending⟩ := hrest
  rintro c key ⟨r, hr, hc⟩
  rcases hinv.given key r hr c hc with hask | ⟨t, status, hsome, hfresh⟩
  · rw [hasking] at hask
    cases hask
  · refine ⟨t, ?_⟩
    rcases hfresh with hcur | hpend | ⟨hheld, -⟩
    · rw [hsome, hcur]
    · rw [hpending] at hpend
      simp at hpend
    · rw [hidle] at hheld
      cases hheld

end Steps

theorem feedInit_zero : FeedInit { status := fun _ => 0 : Feed Nat } :=
  ⟨rfl, rfl, rfl, rfl, rfl⟩

/-- A client subscribes, the status changes, and it is told. -/
theorem latest_status_current_changed :
    ∃ s : Feed Nat, (1, 7) ∈ s.mgr.registered ∧ ∃ t, s.given 1 7 = some (t, 1) := by
  have hchanged : Reachable FeedInit (FeedStep Unswallowed) _ :=
    .next (.next (.next (.start feedInit_zero)
      ⟨.subscribe 1 7 0, trivial, .subscribe 1 7 0⟩)
      ⟨.answer 0, trivial, .answer 0 rfl⟩)
      ⟨.change {7} fun _ => 1, trivial, .change {7} fun _ => 1⟩
  have hcomputed : Reachable FeedInit (FeedStep Unswallowed) _ :=
    .next (.next (.next hchanged
      ⟨.takePending [0], trivial, .takePending [0] rfl (takesPending_singleton rfl rfl)⟩)
      ⟨.check, trivial, .check rfl⟩)
      ⟨.compute, trivial, .compute rfl⟩
  obtain ⟨s, hrun, hregistered, hstatus, hrest⟩ : ∃ s : Feed Nat,
      Reachable FeedInit (FeedStep Unswallowed) s ∧ (1, 7) ∈ s.mgr.registered ∧ s.status 7 = 1 ∧
        s.asking = [] ∧ s.round = .idle ∧ s.forced = [] ∧ s.mgr.pendingNotifications = ∅ := by
    refine ⟨_, hcomputed.next ⟨.publish 0, ?_, .publish 0 rfl⟩, ⟨0, rfl, by decide⟩, rfl, rfl, rfl,
      rfl, rfl⟩
    intro r t status todo hround hlast
    have hsame : (Round.computed 0 (1, 1) [] : Round (Nat × Nat)) = .computed r (t, status) todo :=
      hround
    cases hsame
    have hstale : (none : Option Nat) = some 1 := hlast
    cases hstale
  obtain ⟨t, ht⟩ := latest_status_current hrun hrest 1 7 hregistered
  exact ⟨s, hregistered, t, hstatus ▸ ht⟩

/--
The status goes from `0` to `1`, which is sent, and to `2`, which a second
client gets when it subscribes; it is `1` again when the round computes it, and
nothing is sent.
-/
theorem change_back_is_swallowed :
    ¬ ∀ s : Feed Nat, Reachable FeedInit (FeedStep fun _ _ => True) s →
      s.asking = [] ∧ s.round = .idle ∧ s.forced = [] ∧ s.mgr.pendingNotifications = ∅ →
      ∀ c key, (c, key) ∈ s.mgr.registered → ∃ t, s.given c key = some (t, s.status key) := by
  intro h
  have hfirst : Reachable FeedInit (FeedStep fun _ _ => True) _ :=
    .next (.next (.next (.start feedInit_zero)
      ⟨_, trivial, .subscribe 1 7 0⟩)
      ⟨_, trivial, .answer 0 rfl⟩)
      ⟨_, trivial, .change {7} fun _ => 1⟩
  have hsent : Reachable FeedInit (FeedStep fun _ _ => True) _ :=
    .next (.next (.next (.next hfirst
      ⟨_, trivial, .takePending [0] rfl (takesPending_singleton rfl rfl)⟩)
      ⟨_, trivial, .check rfl⟩)
      ⟨_, trivial, .compute rfl⟩)
      ⟨_, trivial, .publish 0 rfl⟩
  have hsecond : Reachable FeedInit (FeedStep fun _ _ => True) _ :=
    .next (.next (.next (.next hsent
      ⟨_, trivial, .change {7} fun _ => 2⟩)
      ⟨_, trivial, .subscribe 2 7 0⟩)
      ⟨_, trivial, .answer 0 rfl⟩)
      ⟨_, trivial, .change {7} fun _ => 1⟩
  have hrun : Reachable FeedInit (FeedStep fun _ _ => True) _ :=
    .next (.next (.next (.next hsecond
      ⟨_, trivial, .takePending [0] rfl (takesPending_singleton rfl rfl)⟩)
      ⟨_, trivial, .check rfl⟩)
      ⟨_, trivial, .compute rfl⟩)
      ⟨_, trivial, .publish 0 rfl⟩
  obtain ⟨t, hgiven⟩ := h _ hrun ⟨rfl, rfl, rfl, rfl⟩ 2 7 ⟨0, rfl, by decide⟩
  have hstale : some (2, 2) = some (t, 1) := hgiven
  simp at hstale

end SubsMgr
end Shulcrum
