import Mathlib.Data.Finset.Card
import Mathlib.Data.Set.Card
import Mathlib.Logic.Function.Basic
import Mathlib.Tactic
import Shulcrum.Types

/-!
# The subscriptions manager

A manager keeps a table from keys to `Subscription` objects.  The objects are
shared: the table, a call of `subscribe` and a notification round may hold a
reference to the same object, and an object that has left the table lives on
while something else refers to it.  They are therefore kept in a heap, and the
table maps keys to references.

A status is a value of any type `σ`; "no value" is `none`.  Times are in
milliseconds and given to every operation that reads the clock.

**Results.**
* `WF`: what holds of every table and heap.
* `registered_setObject`, `registered_removeZombies`, `registered_destroyClient`:
  what the operations do to the registered pairs of a client and a key.
* `Round`: the states of `doNotifyAllPending`.
-/

namespace Shulcrum
namespace SubsMgr

abbrev ClientId := Nat

/-- `SubRef`: the place of an object in the heap. -/
abbrev SubRef := Nat

/-- `Subscription`, without its lock and signals.  A client is connected to the signals of the
object exactly while its id is in `subscribedClientIds`. -/
structure Subscription (σ : Type) where
  key : HashX
  subscribedClientIds : Finset ClientId := ∅
  lastStatusNotified : Option σ := none
  cachedStatus : Option σ := none
  tsMsec : Int := 0

/-- The table, the heap, and the counters. -/
structure Manager (σ : Type) where
  subs : HashX → Option SubRef := fun _ => none
  objects : SubRef → Subscription σ := fun _ => { key := 0 }
  nextRef : SubRef := 0
  pendingNotifications : Finset HashX := ∅
  nClientSubsActive : Int := 0

/-- `kRemoveZombiesTimerIntervalMS`. -/
def removeZombiesTimerIntervalMS : Int := 60000

namespace Manager

variable {σ : Type}

/-- Replace an object. -/
def setObject (m : Manager σ) (r : SubRef) (sub : Subscription σ) : Manager σ :=
  { m with objects := Function.update m.objects r sub }

/-- `SubsMgr::makeSubRef`, and the entry of the new object. -/
def makeSubRef (m : Manager σ) (key : HashX) (now : Int) : Manager σ :=
  { m with
    subs := Function.update m.subs key (some m.nextRef)
    objects := Function.update m.objects m.nextRef { key := key, tsMsec := now }
    nextRef := m.nextRef + 1 }

/-- `SubsMgr::getOrMakeSubRef`, when the limit is not reached. -/
def getOrMakeSubRef (m : Manager σ) (key : HashX) (now : Int) : (SubRef × Bool) × Manager σ :=
  match m.subs key with
  | some r => ((r, false), m)
  | none => ((m.nextRef, true), m.makeSubRef key now)

/--
The part of `SubsMgr::subscribe` under the lock of the object.  A weak
subscription registers nobody.  The result says whether the client is new, and
gives the cached status if the manager uses the cache.
-/
def register (m : Manager σ) (r : SubRef) (wasnew : Bool) (c : ClientId) (weak useCache : Bool)
    (now : Int) : (Bool × Option σ) × Manager σ :=
  let sub := m.objects r
  let cached := if useCache then sub.cachedStatus else none
  if weak = true ∨ wasnew = false ∧ c ∈ sub.subscribedClientIds then
    ((false, cached), m.setObject r { sub with tsMsec := now })
  else
    ((true, cached),
      { m.setObject r
          { sub with subscribedClientIds := insert c sub.subscribedClientIds, tsMsec := now } with
        nClientSubsActive := m.nClientSubsActive + 1 })

/-- A weak call, or one of a client that is registered. -/
theorem register_old {m : Manager σ} {r : SubRef} {wasnew : Bool} {c : ClientId}
    {weak useCache : Bool} {now : Int}
    (h : weak = true ∨ wasnew = false ∧ c ∈ (m.objects r).subscribedClientIds) :
    m.register r wasnew c weak useCache now =
      ((false, if useCache then (m.objects r).cachedStatus else none),
        m.setObject r { m.objects r with tsMsec := now }) := by
  rw [register, if_pos h]

/-- A call that registers its client. -/
theorem register_new {m : Manager σ} {r : SubRef} {wasnew : Bool} {c : ClientId}
    {weak useCache : Bool} {now : Int}
    (h : ¬ (weak = true ∨ wasnew = false ∧ c ∈ (m.objects r).subscribedClientIds)) :
    m.register r wasnew c weak useCache now =
      ((true, if useCache then (m.objects r).cachedStatus else none),
        { m.setObject r
            { m.objects r with
              subscribedClientIds := insert c (m.objects r).subscribedClientIds
              tsMsec := now } with
          nClientSubsActive := m.nClientSubsActive + 1 }) := by
  rw [register, if_neg h]

/-- `SubsMgr::subscribe` with nothing in between. -/
def subscribe (m : Manager σ) (c : ClientId) (key : HashX) (weak useCache : Bool) (now : Int) :
    (Bool × Option σ) × Manager σ :=
  let ((r, wasnew), m) := m.getOrMakeSubRef key now
  m.register r wasnew c weak useCache now

/-- `SubsMgr::unsubscribe`. -/
def unsubscribe (m : Manager σ) (c : ClientId) (key : HashX) (updateTS : Bool) (now : Int) :
    Bool × Manager σ :=
  match m.subs key with
  | none => (false, m)
  | some r =>
      let sub := m.objects r
      if c ∈ sub.subscribedClientIds then
        (true,
          { m.setObject r
              { sub with
                subscribedClientIds := sub.subscribedClientIds.erase c
                tsMsec := if updateTS then now else sub.tsMsec } with
            nClientSubsActive := m.nClientSubsActive - 1 })
      else (false, m)

/-- The objects connected to the `destroyed` signal of a client.  An object that only `held`
refers to, besides the table, still exists; any other object outside the table is deleted. -/
def connected (m : Manager σ) (held : List SubRef) (c : ClientId) : List SubRef :=
  (List.range m.nextRef).filter fun r =>
    c ∈ (m.objects r).subscribedClientIds ∧ (m.subs (m.objects r).key = some r ∨ r ∈ held)

/-- The handlers of a client's `destroyed` signal. -/
def destroyClient (m : Manager σ) (held : List SubRef) (c : ClientId) (now : Int) : Manager σ :=
  { m with
    objects := fun r =>
      let sub := m.objects r
      if r ∈ m.connected held c then
        { sub with subscribedClientIds := sub.subscribedClientIds.erase c, tsMsec := now }
      else sub
    nClientSubsActive := m.nClientSubsActive - (m.connected held c).length }

/-- The test of `removeZombies`. -/
def isZombie (m : Manager σ) (forced : Bool) (now : Int) (r : SubRef) : Bool :=
  (m.objects r).subscribedClientIds = ∅ ∧
    (forced = true ∨ now - (m.objects r).tsMsec > removeZombiesTimerIntervalMS)

/-- `SubsMgr::removeZombies`. -/
def removeZombies (m : Manager σ) (forced : Bool) (now : Int) : Manager σ :=
  { m with
    subs := fun key =>
      match m.subs key with
      | none => none
      | some r => if m.isZombie forced now r then none else some r }

/-- `SubsMgr::enqueueNotifications`. -/
def enqueueNotifications (m : Manager σ) (s : Finset HashX) : Manager σ :=
  { m with pendingNotifications := m.pendingNotifications ∪ s }

/-- `SubsMgr::maybeCacheStatusResult`; `cacheable` is the test of the value itself. -/
def maybeCacheStatusResult (cacheable : σ → Bool) (useCache : Bool) (m : Manager σ) (key : HashX)
    (status : σ) : Manager σ :=
  if useCache = false ∨ cacheable status = false then m
  else
    match m.subs key with
    | none => m
    | some r =>
        let sub := m.objects r
        if sub.lastStatusNotified = none ∧ sub.cachedStatus = none then
          m.setObject r { sub with cachedStatus := some status }
        else m

/-- The check of one subscription in `doNotifyAllPending`: is there anybody to notify?  If not,
both statuses are forgotten. -/
def checkPending (m : Manager σ) (r : SubRef) : Bool × Manager σ :=
  let sub := m.objects r
  if sub.subscribedClientIds = ∅ then
    (false, m.setObject r { sub with lastStatusNotified := none, cachedStatus := none })
  else (true, m)

/-- The end of the loop body of `doNotifyAllPending`: the clients to notify, and the manager with
the status recorded. -/
def publish [DecidableEq σ] (m : Manager σ) (useCache : Bool) (r : SubRef) (status : σ)
    (now : Int) : Finset ClientId × Manager σ :=
  let sub := m.objects r
  let doemit := sub.lastStatusNotified ≠ some status
  (if doemit then sub.subscribedClientIds else ∅,
    m.setObject r
      { sub with
        lastStatusNotified := some status
        cachedStatus := if useCache then some status else sub.cachedStatus
        tsMsec := if doemit then now else sub.tsMsec })

/-- What `SubsMgr::unsubscribeClientsForKeys` does before its signals: the cached statuses of the
keys are forgotten. -/
def unsubscribeClientsForKeys (m : Manager σ) (keys : Finset HashX) : Manager σ :=
  { m with
    objects := fun r =>
      let sub := m.objects r
      if sub.key ∈ keys ∧ m.subs sub.key = some r then { sub with cachedStatus := none }
      else sub }

/-! ## The registered pairs -/

/-- The client is in the object that the table has for the key. -/
def registered (m : Manager σ) : Set (ClientId × HashX) :=
  {p | ∃ r, m.subs p.2 = some r ∧ p.1 ∈ (m.objects r).subscribedClientIds}

/-- References in the table are allocated, and an object is under its own key. -/
structure WF (m : Manager σ) : Prop where
  lt : ∀ key r, m.subs key = some r → r < m.nextRef
  key_eq : ∀ key r, m.subs key = some r → (m.objects r).key = key

@[simp] theorem subs_setObject (m : Manager σ) (r : SubRef) (sub : Subscription σ) :
    (m.setObject r sub).subs = m.subs := rfl

@[simp] theorem objects_setObject (m : Manager σ) (r r' : SubRef) (sub : Subscription σ) :
    (m.setObject r sub).objects r' = if r' = r then sub else m.objects r' := by
  simp [setObject, Function.update_apply]

section Registered

variable {m m' : Manager σ}

theorem mem_registered {p : ClientId × HashX} :
    p ∈ m.registered ↔ ∃ r, m.subs p.2 = some r ∧ p.1 ∈ (m.objects r).subscribedClientIds :=
  Iff.rfl

theorem mem_registered_of_subs {c : ClientId} {key : HashX} {r : SubRef}
    (hr : m.subs key = some r) :
    (c, key) ∈ m.registered ↔ c ∈ (m.objects r).subscribedClientIds := by
  constructor
  · rintro ⟨r', hr', hc⟩
    obtain rfl : r = r' := Option.some.inj (hr.symm.trans hr')
    exact hc
  · intro hc
    exact ⟨r, hr, hc⟩

/-- The pairs depend on the table and the client ids only. -/
theorem registered_congr (hsubs : m'.subs = m.subs)
    (hids : ∀ key r, m.subs key = some r →
      (m'.objects r).subscribedClientIds = (m.objects r).subscribedClientIds) :
    m'.registered = m.registered := by
  ext p
  simp only [mem_registered, hsubs]
  constructor
  · rintro ⟨r, hr, hc⟩
    rw [hids _ r hr] at hc
    exact ⟨r, hr, hc⟩
  · rintro ⟨r, hr, hc⟩
    rw [← hids _ r hr] at hc
    exact ⟨r, hr, hc⟩

theorem WF.eq_of_ref (h : m.WF) {key key' : HashX} {r : SubRef} (hr : m.subs key = some r)
    (hr' : m.subs key' = some r) : key = key' :=
  (h.key_eq key r hr).symm.trans (h.key_eq key' r hr')

theorem WF.congr (h : m.WF) (hsubs : ∀ key r, m'.subs key = some r → m.subs key = some r)
    (hnext : m'.nextRef = m.nextRef)
    (hkey : ∀ r, (m'.objects r).key = (m.objects r).key) : m'.WF := by
  constructor
  · intro key r hr
    rw [hnext]
    exact h.lt key r (hsubs key r hr)
  · intro key r hr
    rw [hkey]
    exact h.key_eq key r (hsubs key r hr)

theorem WF.setObject (h : m.WF) {r : SubRef} {sub : Subscription σ}
    (hkey : sub.key = (m.objects r).key) : (m.setObject r sub).WF := by
  refine h.congr (fun _ _ hr => hr) rfl ?_
  intro r'
  rw [objects_setObject]
  split_ifs with heq
  · rw [heq, hkey]
  · rfl

theorem WF.setObject_count (h : m.WF) {r : SubRef} {sub : Subscription σ} {n : Int}
    (hkey : sub.key = (m.objects r).key) :
    ({ m.setObject r sub with nClientSubsActive := n } : Manager σ).WF :=
  (h.setObject hkey).congr (fun _ _ hr => hr) rfl (fun _ => rfl)

/-- One object of the table gets other client ids. -/
theorem registered_setObject (h : m.WF) {key : HashX} {r : SubRef} {sub : Subscription σ}
    (hr : m.subs key = some r) (p : ClientId × HashX) :
    p ∈ (m.setObject r sub).registered ↔
      if p.2 = key then p.1 ∈ sub.subscribedClientIds else p ∈ m.registered := by
  simp only [mem_registered, subs_setObject, objects_setObject]
  split_ifs with heq
  · rw [heq]
    constructor
    · rintro ⟨r', hr', hc⟩
      rw [hr] at hr'
      cases hr'
      rwa [if_pos rfl] at hc
    · intro hc
      exact ⟨r, hr, by rwa [if_pos rfl]⟩
  · refine exists_congr fun r' => and_congr_right fun hr' => ?_
    have hne : r' ≠ r := by
      rintro rfl
      exact heq (h.eq_of_ref hr' hr)
    rw [if_neg hne]

end Registered

/-! ## The operations -/

section Operations

variable {m : Manager σ} {c : ClientId} {key : HashX} {now : Int}

/-- The object is found, or it is made. -/
theorem getOrMakeSubRef_cases (m : Manager σ) (key : HashX) (now : Int) :
    (∃ r, m.subs key = some r ∧ m.getOrMakeSubRef key now = ((r, false), m)) ∨
      (m.subs key = none ∧
        m.getOrMakeSubRef key now = ((m.nextRef, true), m.makeSubRef key now)) := by
  unfold getOrMakeSubRef
  cases m.subs key with
  | some r => exact .inl ⟨r, rfl, rfl⟩
  | none => exact .inr ⟨rfl, rfl⟩

/-- What the table has for a key after a new entry. -/
theorem subs_makeSubRef {key' : HashX} :
    (m.makeSubRef key now).subs key' = if key' = key then some m.nextRef else m.subs key' := by
  simp [makeSubRef, Function.update_apply]

theorem objects_makeSubRef {r : SubRef} :
    (m.makeSubRef key now).objects r =
      if r = m.nextRef then { key := key, tsMsec := now } else m.objects r := by
  simp [makeSubRef, Function.update_apply]

/-- Objects that have been made are not touched by a new one. -/
theorem objects_makeSubRef_of_lt {r : SubRef} (hr : r < m.nextRef) :
    (m.makeSubRef key now).objects r = m.objects r := by
  rw [objects_makeSubRef, if_neg hr.ne]

theorem WF.makeSubRef (h : m.WF) : (m.makeSubRef key now).WF := by
  constructor
  · intro key' r hr
    rw [subs_makeSubRef] at hr
    split_ifs at hr
    · cases hr
      exact Nat.lt_succ_self _
    · exact Nat.lt_succ_of_lt (h.lt key' r hr)
  · intro key' r hr
    rw [subs_makeSubRef] at hr
    split_ifs at hr with heq
    · cases hr
      rw [objects_makeSubRef, if_pos rfl, heq]
    · rw [objects_makeSubRef_of_lt (h.lt key' r hr)]
      exact h.key_eq key' r hr

/-- A new object has no clients. -/
theorem registered_makeSubRef (h : m.WF) (hnone : m.subs key = none) :
    (m.makeSubRef key now).registered = m.registered := by
  ext p
  simp only [mem_registered, subs_makeSubRef]
  split_ifs with heq
  · rw [heq, hnone]
    constructor
    · rintro ⟨r, hr, hc⟩
      cases hr
      rw [objects_makeSubRef, if_pos rfl] at hc
      simp at hc
    · rintro ⟨r, hr, -⟩
      cases hr
  · refine exists_congr fun r => and_congr_right fun hr => ?_
    rw [objects_makeSubRef_of_lt (h.lt p.2 r hr)]

/-- The client was not registered, or it is taken out of the object of the key. -/
theorem unsubscribe_cases (m : Manager σ) (c : ClientId) (key : HashX) (updateTS : Bool)
    (now : Int) :
    (c, key) ∉ m.registered ∧ m.unsubscribe c key updateTS now = (false, m) ∨
      ∃ r, m.subs key = some r ∧ c ∈ (m.objects r).subscribedClientIds ∧
        m.unsubscribe c key updateTS now = (true,
          { m.setObject r
              { m.objects r with
                subscribedClientIds := (m.objects r).subscribedClientIds.erase c
                tsMsec := if updateTS then now else (m.objects r).tsMsec } with
            nClientSubsActive := m.nClientSubsActive - 1 }) := by
  unfold unsubscribe
  cases hsub : m.subs key with
  | none =>
      left
      refine ⟨?_, rfl⟩
      rintro ⟨r, hr, -⟩
      rw [hsub] at hr
      cases hr
  | some r =>
      by_cases hc : c ∈ (m.objects r).subscribedClientIds
      · exact .inr ⟨r, rfl, hc, if_pos hc⟩
      · exact .inl ⟨fun hreg => hc ((mem_registered_of_subs hsub).mp hreg), if_neg hc⟩

theorem WF.unsubscribe (h : m.WF) {updateTS : Bool} :
    (m.unsubscribe c key updateTS now).2.WF := by
  rcases m.unsubscribe_cases c key updateTS now with ⟨-, heq⟩ | ⟨r, -, -, heq⟩
  · rw [heq]
    exact h
  · rw [heq]
    exact h.setObject_count rfl

/-- The result says whether the client was registered. -/
theorem unsubscribe_fst {updateTS : Bool} :
    (m.unsubscribe c key updateTS now).1 = true ↔ (c, key) ∈ m.registered := by
  rcases m.unsubscribe_cases c key updateTS now with ⟨hno, heq⟩ | ⟨r, hr, hc, heq⟩
  · simp [heq, hno]
  · simp [heq, (mem_registered_of_subs hr).mpr hc]

theorem registered_unsubscribe (h : m.WF) {updateTS : Bool} (p : ClientId × HashX) :
    p ∈ (m.unsubscribe c key updateTS now).2.registered ↔ p ∈ m.registered ∧ p ≠ (c, key) := by
  rcases m.unsubscribe_cases c key updateTS now with ⟨hno, heq⟩ | ⟨r, hr, -, heq⟩
  · rw [heq]
    exact ⟨fun hp => ⟨hp, fun hpair => hno (hpair ▸ hp)⟩, fun hp => hp.1⟩
  · rw [heq]
    refine (registered_setObject h hr p).trans ?_
    obtain ⟨c', key'⟩ := p
    by_cases hkey : key' = key
    · simp [hkey, mem_registered_of_subs hr, and_comm]
    · simp [hkey]

/-- `subscribe` finds the object, or makes it, and registers the client there. -/
theorem subscribe_cases (m : Manager σ) (c : ClientId) (key : HashX) (weak useCache : Bool)
    (now : Int) :
    (∃ r, m.subs key = some r ∧
        m.subscribe c key weak useCache now = m.register r false c weak useCache now) ∨
      (m.subs key = none ∧ m.subscribe c key weak useCache now =
        (m.makeSubRef key now).register m.nextRef true c weak useCache now) := by
  unfold subscribe
  rcases m.getOrMakeSubRef_cases key now with ⟨r, hr, heq⟩ | ⟨hnone, heq⟩
  · exact .inl ⟨r, hr, by rw [heq]⟩
  · exact .inr ⟨hnone, by rw [heq]⟩

theorem WF.register (h : m.WF) {r : SubRef} {wasnew weak useCache : Bool} :
    (m.register r wasnew c weak useCache now).2.WF := by
  by_cases hold : weak = true ∨ wasnew = false ∧ c ∈ (m.objects r).subscribedClientIds
  · rw [register_old hold]
    exact h.setObject rfl
  · rw [register_new hold]
    exact h.setObject_count rfl

/-- The client is registered, and the result says whether it was not before. -/
theorem registered_register (h : m.WF) {r : SubRef} {wasnew useCache : Bool}
    (hr : m.subs key = some r)
    (hnew : wasnew = true → c ∉ (m.objects r).subscribedClientIds) :
    ((m.register r wasnew c false useCache now).1.1 = true ↔ (c, key) ∉ m.registered) ∧
      ∀ p, p ∈ (m.register r wasnew c false useCache now).2.registered ↔
        p = (c, key) ∨ p ∈ m.registered := by
  rw [mem_registered_of_subs hr]
  by_cases hc : c ∈ (m.objects r).subscribedClientIds
  · have hold : wasnew = false := by
      cases wasnew with
      | false => rfl
      | true => exact absurd hc (hnew rfl)
    rw [register_old (.inr ⟨hold, hc⟩)]
    refine ⟨by simp [hc], ?_⟩
    rintro ⟨c', key'⟩
    rw [registered_setObject h hr]
    by_cases hkey : key' = key
    · simp only [hkey, if_true, mem_registered_of_subs hr, Prod.mk.injEq, and_true]
      exact ⟨.inr, fun hc' => hc'.elim (fun heq => heq ▸ hc) id⟩
    · simp [hkey]
  · rw [register_new (by simp [hc])]
    refine ⟨by simp [hc], ?_⟩
    rintro ⟨c', key'⟩
    refine (registered_setObject h hr _).trans ?_
    by_cases hkey : key' = key
    · simp [hkey, mem_registered_of_subs hr]
    · simp [hkey]

theorem WF.subscribe (h : m.WF) {weak useCache : Bool} :
    (m.subscribe c key weak useCache now).2.WF := by
  rcases m.subscribe_cases c key weak useCache now with ⟨r, -, heq⟩ | ⟨-, heq⟩
  · rw [heq]
    exact h.register
  · rw [heq]
    exact h.makeSubRef.register

theorem registered_subscribe (h : m.WF) {useCache : Bool} :
    ((m.subscribe c key false useCache now).1.1 = true ↔ (c, key) ∉ m.registered) ∧
      ∀ p, p ∈ (m.subscribe c key false useCache now).2.registered ↔
        p = (c, key) ∨ p ∈ m.registered := by
  rcases m.subscribe_cases c key false useCache now with ⟨r, hr, heq⟩ | ⟨hnone, heq⟩
  · rw [heq]
    exact registered_register h hr (fun hnew => by cases hnew)
  · rw [heq, ← registered_makeSubRef h hnone]
    refine registered_register h.makeSubRef ?_ ?_
    · rw [subs_makeSubRef, if_pos rfl]
    · rw [objects_makeSubRef, if_pos rfl]
      simp

/-- The statuses are forgotten, or nothing changes. -/
theorem checkPending_cases (m : Manager σ) (r : SubRef) :
    (m.objects r).subscribedClientIds = ∅ ∧ m.checkPending r = (false,
        m.setObject r { m.objects r with lastStatusNotified := none, cachedStatus := none }) ∨
      (m.objects r).subscribedClientIds ≠ ∅ ∧ m.checkPending r = (true, m) := by
  by_cases hempty : (m.objects r).subscribedClientIds = ∅
  · exact .inl ⟨hempty, if_pos hempty⟩
  · exact .inr ⟨hempty, if_neg hempty⟩

/-- The offer is not taken, or it is the first status of the subscription. -/
theorem maybeCacheStatusResult_cases (cacheable : σ → Bool) (useCache : Bool) (m : Manager σ)
    (key : HashX) (status : σ) :
    m.maybeCacheStatusResult cacheable useCache key status = m ∨
      ∃ r, m.subs key = some r ∧ (m.objects r).lastStatusNotified = none ∧
        (m.objects r).cachedStatus = none ∧
        m.maybeCacheStatusResult cacheable useCache key status =
          m.setObject r { m.objects r with cachedStatus := some status } := by
  unfold maybeCacheStatusResult
  split
  · exact .inl rfl
  · cases m.subs key with
    | none => exact .inl rfl
    | some r =>
        by_cases hempty : (m.objects r).lastStatusNotified = none ∧
            (m.objects r).cachedStatus = none
        · exact .inr ⟨r, rfl, hempty.1, hempty.2, if_pos hempty⟩
        · exact .inl (if_neg hempty)

/-- The table only loses entries. -/
theorem subs_of_removeZombies {forced : Bool} {r : SubRef}
    (hr : (m.removeZombies forced now).subs key = some r) : m.subs key = some r := by
  simp only [removeZombies] at hr
  cases hsub : m.subs key with
  | none =>
      rw [hsub] at hr
      cases hr
  | some r' =>
      rw [hsub] at hr
      simp only at hr
      split_ifs at hr
      exact hr

theorem WF.removeZombies (h : m.WF) (forced : Bool) : (m.removeZombies forced now).WF := by
  exact h.congr (fun _ _ hr => subs_of_removeZombies hr) rfl (fun _ => rfl)

/-- Only entries without clients are removed. -/
theorem registered_removeZombies (m : Manager σ) (forced : Bool) :
    (m.removeZombies forced now).registered = m.registered := by
  ext p
  simp only [mem_registered, removeZombies]
  refine exists_congr fun r => ?_
  cases hsub : m.subs p.2 with
  | none => simp
  | some r' =>
      simp only
      split_ifs with hz
      · constructor
        · rintro ⟨hr, -⟩
          cases hr
        · rintro ⟨hr, hc⟩
          cases hr
          simp only [isZombie, decide_eq_true_eq] at hz
          rw [hz.1] at hc
          simp at hc
      · rfl

theorem WF.destroyClient (h : m.WF) (held : List SubRef) : (m.destroyClient held c now).WF := by
  refine h.congr (fun _ _ hr => hr) rfl ?_
  intro r
  simp only [Manager.destroyClient]
  split_ifs <;> rfl

theorem WF.unsubscribeClientsForKeys (h : m.WF) (keys : Finset HashX) :
    (m.unsubscribeClientsForKeys keys).WF := by
  refine h.congr (fun _ _ hr => hr) rfl ?_
  intro r
  simp only [Manager.unsubscribeClientsForKeys]
  split_ifs <;> rfl

theorem subscribedClientIds_unsubscribeClientsForKeys (keys : Finset HashX) (r : SubRef) :
    ((m.unsubscribeClientsForKeys keys).objects r).subscribedClientIds =
      (m.objects r).subscribedClientIds := by
  simp only [unsubscribeClientsForKeys]
  split_ifs <;> rfl

theorem mem_connected {held : List SubRef} {r : SubRef} :
    r ∈ m.connected held c ↔ r < m.nextRef ∧ c ∈ (m.objects r).subscribedClientIds ∧
      (m.subs (m.objects r).key = some r ∨ r ∈ held) := by
  simp [connected]

/-- A destroyed client is in no object of the table. -/
theorem registered_destroyClient (h : m.WF) (held : List SubRef) (p : ClientId × HashX) :
    p ∈ (m.destroyClient held c now).registered ↔ p ∈ m.registered ∧ p.1 ≠ c := by
  simp only [mem_registered, destroyClient]
  rw [← exists_and_right]
  refine exists_congr fun r => ?_
  rw [and_assoc]
  refine and_congr_right fun hr => ?_
  split_ifs with hconn
  · rw [Finset.mem_erase, and_comm]
  · have hno : c ∉ (m.objects r).subscribedClientIds := by
      intro hc
      refine hconn (mem_connected.mpr ⟨h.lt p.2 r hr, hc, .inl ?_⟩)
      rw [h.key_eq p.2 r hr]
      exact hr
    constructor
    · intro hc
      refine ⟨hc, ?_⟩
      intro heq
      exact hno (heq ▸ hc)
    · exact fun hc => hc.1

end Operations

end Manager

/-! ## Notification rounds -/

/-- Where `doNotifyAllPending` is: outside, before the check of the first of the remaining
subscriptions, after it, or after the status was computed. -/
inductive Round (σ : Type) where
  | idle
  | checking (todo : List SubRef)
  | checked (r : SubRef) (todo : List SubRef)
  | computed (r : SubRef) (status : σ) (todo : List SubRef)

namespace Round

variable {σ : Type}

/-- The loop goes on with the remaining subscriptions, if any. -/
def next : List SubRef → Round σ
  | [] => .idle
  | r :: todo => .checking (r :: todo)

/-- The subscriptions whose publication is still to come. -/
def holds : Round σ → List SubRef
  | .idle => []
  | .checking todo => todo
  | .checked r todo => r :: todo
  | .computed r _ todo => r :: todo

@[simp] theorem holds_next (todo : List SubRef) :
    (Round.next todo : Round σ).holds = todo := by
  cases todo <;> rfl

end Round

/-- The references that a round starts with: those of the pending keys, once each. -/
def TakesPending {σ : Type} (m : Manager σ) (order : List SubRef) : Prop :=
  order.Nodup ∧ ∀ r, r ∈ order ↔ ∃ key ∈ m.pendingNotifications, m.subs key = some r

theorem takesPending_singleton {σ : Type} {m : Manager σ} {key : HashX} {r : SubRef}
    (hpending : m.pendingNotifications = {key}) (hr : m.subs key = some r) :
    TakesPending m [r] := by
  refine ⟨List.nodup_singleton r, ?_⟩
  intro r'
  simp [hpending, hr, eq_comm]

end SubsMgr
end Shulcrum
