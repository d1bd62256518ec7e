import Shulcrum.Lib.Invariant
import Shulcrum.SubsMgr.Model

/-!
# Subscriptions that the table still knows

`subscribe` looks its object up under the lock of the table and registers the
client under the lock of the object.  In between the zombie collector can take
the object out of the table; the client is then registered with an object that
no notification finds.

**Results.**
* `OrphanInv`: in the runs in which the collector leaves the objects of running
  calls alone, the table knows every subscription and the counter is right.
* `no_orphans`: the statement about the clients.
-/

namespace Shulcrum
namespace SubsMgr

open Invariant

/-- A call of `subscribe` between its two locks. -/
structure Call where
  client : ClientId
  key : HashX
  ref : SubRef
  wasnew : Bool
  weak : Bool
  deriving DecidableEq, Repr

/-- The manager, the calls of `subscribe` between their locks, and the pairs of a client that was
told it is subscribed and the key. -/
structure Registry (σ : Type) where
  mgr : Manager σ := {}
  calls : List Call := []
  told : Finset (ClientId × HashX) := ∅

/-- The atomic steps.  A client lives in one thread, so its own calls do not overlap. -/
inductive RegistryOp where
  | getOrMakeSubRef (c : ClientId) (key : HashX) (weak : Bool) (now : Int)
  | register (k : Nat) (now : Int)
  | unsubscribe (c : ClientId) (key : HashX) (now : Int)
  | destroyClient (c : ClientId) (now : Int)
  | removeZombies (forced : Bool) (now : Int)

namespace Registry

variable {σ : Type}

/-- The client has no call between its locks. -/
def Idle (s : Registry σ) (c : ClientId) : Prop := ∀ call ∈ s.calls, call.client ≠ c

instance (s : Registry σ) (c : ClientId) : Decidable (s.Idle c) :=
  inferInstanceAs (Decidable (∀ call ∈ s.calls, call.client ≠ c))

/-- The first lock of `subscribe`. -/
def begin (s : Registry σ) (c : ClientId) (key : HashX) (weak : Bool) (now : Int) :
    Option (Registry σ) :=
  if s.Idle c then
    let ((r, wasnew), mgr) := s.mgr.getOrMakeSubRef key now
    some { s with mgr := mgr, calls := ⟨c, key, r, wasnew, weak⟩ :: s.calls }
  else none

/-- The second lock of the `k`-th call. -/
def finish (useCache : Bool) (s : Registry σ) (k : Nat) (now : Int) : Option (Registry σ) :=
  match s.calls[k]? with
  | none => none
  | some call =>
      some
        { mgr := (s.mgr.register call.ref call.wasnew call.client call.weak useCache now).2
          calls := s.calls.eraseIdx k
          told := if call.weak then s.told else insert (call.client, call.key) s.told }

def unsubscribe (s : Registry σ) (c : ClientId) (key : HashX) (now : Int) :
    Option (Registry σ) :=
  if s.Idle c then
    some { s with mgr := (s.mgr.unsubscribe c key true now).2, told := s.told.erase (c, key) }
  else none

def destroyClient (s : Registry σ) (c : ClientId) (now : Int) : Option (Registry σ) :=
  if s.Idle c then
    some
      { s with
        mgr := s.mgr.destroyClient (s.calls.map Call.ref) c now
        told := s.told.filter fun p => p.1 ≠ c }
  else none

def apply (useCache : Bool) (s : Registry σ) : RegistryOp → Option (Registry σ)
  | .getOrMakeSubRef c key weak now => s.begin c key weak now
  | .register k now => s.finish useCache k now
  | .unsubscribe c key now => s.unsubscribe c key now
  | .destroyClient c now => s.destroyClient c now
  | .removeZombies forced now => some { s with mgr := s.mgr.removeZombies forced now }

end Registry

/-- The collector does not take away the object of a call between its locks.  Weak calls register
nobody and do not matter. -/
def Spares {σ : Type} (s : Registry σ) : RegistryOp → Prop
  | .removeZombies forced now =>
      ∀ call ∈ s.calls, call.weak = false → s.mgr.isZombie forced now call.ref = false
  | _ => True

/-- One step of the operations that `P` allows in the state before it. -/
def RegistryStep {σ : Type} (useCache : Bool) (P : Registry σ → RegistryOp → Prop)
    (s t : Registry σ) : Prop :=
  ∃ op, P s op ∧ s.apply useCache op = some t

/-- A manager just constructed. -/
def RegistryInit {σ : Type} (s : Registry σ) : Prop :=
  s.mgr.subs = (fun _ => none) ∧ s.mgr.nextRef = 0 ∧ s.mgr.nClientSubsActive = 0 ∧
    s.calls = [] ∧ s.told = ∅

/-- The invariant of the runs in which the collector spares the running calls. -/
structure OrphanInv {σ : Type} (s : Registry σ) : Prop where
  wf : s.mgr.WF
  /-- An object with clients is in the table. -/
  attached : ∀ r < s.mgr.nextRef, ∀ c ∈ (s.mgr.objects r).subscribedClientIds,
    s.mgr.subs (s.mgr.objects r).key = some r
  oneCall : (s.calls.map Call.client).Nodup
  /-- The object of a call is in the table, and does not have the client yet if it is new. -/
  calls : ∀ call ∈ s.calls, call.weak = false →
    s.mgr.subs call.key = some call.ref ∧
      (call.wasnew = true → call.client ∉ (s.mgr.objects call.ref).subscribedClientIds)
  told : ∀ p, p ∈ s.told ↔ p ∈ s.mgr.registered
  count : s.mgr.nClientSubsActive = s.told.card

section Steps

variable {σ : Type} {useCache : Bool} {s t : Registry σ}

theorem OrphanInv.nodup_cons (h : OrphanInv s) {call : Call} (hidle : s.Idle call.client) :
    ((call :: s.calls).map Call.client).Nodup := by
  rw [List.map_cons, List.nodup_cons]
  refine ⟨?_, h.oneCall⟩
  rw [List.mem_map]
  rintro ⟨other, hmem, hc⟩
  exact hidle other hmem hc

theorem OrphanInv.begin (h : OrphanInv s) {c : ClientId} {key : HashX} {weak : Bool} {now : Int}
    (ht : s.begin c key weak now = some t) : OrphanInv t := by
  unfold Registry.begin at ht
  split_ifs at ht with hidle
  rcases s.mgr.getOrMakeSubRef_cases key now with ⟨r, hr, heq⟩ | ⟨hnone, heq⟩
  · simp only [heq] at ht
    cases ht
    refine ⟨h.wf, h.attached, h.nodup_cons hidle, ?_, h.told, h.count⟩
    intro call hcall hweak
    rcases List.mem_cons.mp hcall with rfl | hcall
    · exact ⟨hr, by simp⟩
    · exact h.calls call hcall hweak
  · simp only [heq] at ht
    cases ht
    refine ⟨h.wf.makeSubRef, ?_, h.nodup_cons hidle, ?_, ?_, h.count⟩
    · intro r hlt c' hc'
      rw [Manager.objects_makeSubRef] at hc' ⊢
      split_ifs at hc' ⊢ with hnext
      · simp at hc'
      · have hold : r < s.mgr.nextRef := Nat.lt_of_le_of_ne (Nat.le_of_lt_succ hlt) hnext
        have hattached := h.attached r hold c' hc'
        have hne : (s.mgr.objects r).key ≠ key := by
          intro hkey
          rw [hkey, hnone] at hattached
          cases hattached
        rw [Manager.subs_makeSubRef, if_neg hne]
        exact hattached
    · intro call hcall hweak
      rcases List.mem_cons.mp hcall with rfl | hcall
      · simp [Manager.subs_makeSubRef, Manager.objects_makeSubRef]
      · obtain ⟨hsub, hnew⟩ := h.calls call hcall hweak
        have hne : call.key ≠ key := by
          intro hkey
          rw [hkey, hnone] at hsub
          cases hsub
        rw [Manager.subs_makeSubRef, if_neg hne,
          Manager.objects_makeSubRef_of_lt (h.wf.lt call.key call.ref hsub)]
        exact ⟨hsub, hnew⟩
    · intro p
      rw [Manager.registered_makeSubRef h.wf hnone]
      exact h.told p

/-- A step that replaces one object of the table. -/
theorem OrphanInv.setObject (h : OrphanInv s) {key : HashX} {r : SubRef} {sub : Subscription σ}
    {calls : List Call} {told : Finset (ClientId × HashX)} {n : Int}
    (hr : s.mgr.subs key = some r) (hkey : sub.key = (s.mgr.objects r).key)
    (hcalls : ∀ call ∈ calls, call ∈ s.calls ∧ (call.ref = r → call.weak = false →
      call.wasnew = true → call.client ∉ sub.subscribedClientIds))
    (hone : (calls.map Call.client).Nodup)
    (htold : ∀ p, p ∈ told ↔
      if p.2 = key then p.1 ∈ sub.subscribedClientIds else p ∈ s.told)
    (hcount : n = told.card) :
    OrphanInv ⟨{ s.mgr.setObject r sub with nClientSubsActive := n }, calls, told⟩ := by
  have hobj : ∀ r', (s.mgr.setObject r sub).objects r' =
      if r' = r then sub else s.mgr.objects r' := fun r' => Manager.objects_setObject _ _ _ _
  refine ⟨(h.wf.setObject hkey).congr (fun _ _ hk => hk) rfl (fun _ => rfl), ?_, hone, ?_, ?_,
    hcount⟩
  · intro r' hlt c hc
    change s.mgr.subs ((s.mgr.setObject r sub).objects r').key = some r'
    change c ∈ ((s.mgr.setObject r sub).objects r').subscribedClientIds at hc
    rw [hobj] at hc ⊢
    split_ifs at hc ⊢ with heq
    · rw [hkey, h.wf.key_eq key r hr, heq]
      exact hr
    · exact h.attached r' hlt c hc
  · intro call hcall hweak
    obtain ⟨hmem, hnew⟩ := hcalls call hcall
    obtain ⟨hsub, hold⟩ := h.calls call hmem hweak
    refine ⟨hsub, ?_⟩
    intro hwasnew
    change call.client ∉ ((s.mgr.setObject r sub).objects call.ref).subscribedClientIds
    rw [hobj]
    split_ifs with heq
    · exact hnew heq hweak hwasnew
    · exact hold hwasnew
  · intro p
    rw [htold]
    change _ ↔ p ∈ (s.mgr.setObject r sub).registered
    rw [Manager.registered_setObject h.wf hr]
    split_ifs
    · rfl
    · exact h.told p

/-- A step that changes neither the table nor the clients of any object. -/
theorem OrphanInv.frame (h : OrphanInv s) {m : Manager σ} {calls : List Call}
    (hsubs : m.subs = s.mgr.subs) (hnext : m.nextRef = s.mgr.nextRef)
    (hobj : ∀ r, (m.objects r).key = (s.mgr.objects r).key ∧
      (m.objects r).subscribedClientIds = (s.mgr.objects r).subscribedClientIds)
    (hn : m.nClientSubsActive = s.mgr.nClientSubsActive) (hcalls : calls.Sublist s.calls) :
    OrphanInv ⟨m, calls, s.told⟩ := by
  refine ⟨h.wf.congr (fun key r hr => hsubs ▸ hr) hnext (fun r => (hobj r).1), ?_,
    h.oneCall.sublist (hcalls.map _), ?_, ?_, hn.trans h.count⟩
  · intro r hlt c hc
    rw [(hobj r).2] at hc
    rw [(hobj r).1, hsubs]
    exact h.attached r (hnext ▸ hlt) c hc
  · intro call hcall hweak
    rw [hsubs, (hobj call.ref).2]
    exact h.calls call (hcalls.mem hcall) hweak
  · intro p
    rw [Manager.registered_congr hsubs (fun _ r _ => (hobj r).2)]
    exact h.told p

theorem OrphanInv.client_ne (h : OrphanInv s) {k : Nat} {call other : Call}
    (hcall : s.calls[k]? = some call) (hother : other ∈ s.calls.eraseIdx k) :
    other.client ≠ call.client := by
  rw [List.mem_eraseIdx_iff_getElem?] at hother
  obtain ⟨i, hne, hi⟩ := hother
  intro heq
  have hik : (s.calls.map Call.client)[i]? = (s.calls.map Call.client)[k]? := by
    rw [List.getElem?_map, List.getElem?_map, hi, hcall, Option.map_some, Option.map_some, heq]
  have hlt : i < (s.calls.map Call.client).length := by
    rw [List.length_map]
    exact (List.getElem?_eq_some_iff.mp hi).1
  exact hne ((List.getElem?_inj hlt h.oneCall).mp hik)

theorem OrphanInv.finish (h : OrphanInv s) {k : Nat} {now : Int}
    (ht : s.finish useCache k now = some t) : OrphanInv t := by
  unfold Registry.finish at ht
  split at ht
  · cases ht
  · next call hget =>
      have hmem := List.mem_of_getElem? hget
      have htouch : OrphanInv ⟨s.mgr.setObject call.ref
          { s.mgr.objects call.ref with tsMsec := now }, s.calls.eraseIdx k, s.told⟩ := by
        refine h.frame rfl rfl ?_ rfl (List.eraseIdx_sublist _ _)
        intro r
        rw [Manager.objects_setObject]
        split_ifs with heq
        · rw [heq]
          exact ⟨rfl, rfl⟩
        · exact ⟨rfl, rfl⟩
      cases ht
      cases hweak : call.weak with
      | true =>
          rw [Manager.register_old (.inl rfl)]
          exact htouch
      | false =>
          obtain ⟨hsub, hnew⟩ := h.calls call hmem hweak
          have hreg := Manager.mem_registered_of_subs (c := call.client) hsub
          simp only [Bool.false_eq_true, if_false]
          by_cases hdup : call.wasnew = false ∧
              call.client ∈ (s.mgr.objects call.ref).subscribedClientIds
          · -- the client was registered before
            have htold : (call.client, call.key) ∈ s.told := (h.told _).mpr (hreg.mpr hdup.2)
            rw [Manager.register_old (.inr hdup), Finset.insert_eq_of_mem htold]
            exact htouch
          · have hfresh : call.client ∉ (s.mgr.objects call.ref).subscribedClientIds := by
              intro hc
              cases hwas : call.wasnew with
              | true => exact hnew hwas hc
              | false => exact hdup ⟨hwas, hc⟩
            have hnot : (call.client, call.key) ∉ s.told := by
              rw [h.told, hreg]
              exact hfresh
            rw [Manager.register_new (by simp [hdup])]
            refine h.setObject hsub rfl ?_ ?_ ?_ ?_
            · intro other hother
              have hmem' := List.mem_of_mem_eraseIdx hother
              refine ⟨hmem', ?_⟩
              intro href hweak' hwas
              have hold := (h.calls other hmem' hweak').2 hwas
              rw [href] at hold
              rw [Finset.mem_insert, not_or]
              exact ⟨h.client_ne hget hother, hold⟩
            · exact h.oneCall.sublist ((List.eraseIdx_sublist _ _).map _)
            · intro p
              rw [Finset.mem_insert, Prod.ext_iff]
              split_ifs with hkey
              · have hp : p ∈ s.told ↔ p.1 ∈ (s.mgr.objects call.ref).subscribedClientIds := by
                  rw [h.told, ← Manager.mem_registered_of_subs hsub, ← hkey]
                rw [Finset.mem_insert, hp]
                simp [hkey]
              · simp [hkey]
            · rw [Finset.card_insert_of_notMem hnot, h.count]
              push_cast
              rfl

theorem OrphanInv.unsubscribe (h : OrphanInv s) {c : ClientId} {key : HashX} {now : Int}
    (ht : s.unsubscribe c key now = some t) : OrphanInv t := by
  unfold Registry.unsubscribe at ht
  split_ifs at ht with hidle
  cases ht
  have hsame : (c, key) ∉ s.told → OrphanInv { s with told := s.told.erase (c, key) } := by
    intro hnot
    rw [Finset.erase_eq_of_notMem hnot]
    exact h
  unfold Manager.unsubscribe
  cases hsub : s.mgr.subs key with
  | none =>
      refine hsame ?_
      rw [h.told]
      rintro ⟨r, hr, -⟩
      rw [hsub] at hr
      cases hr
  | some r =>
      have hreg := Manager.mem_registered_of_subs (c := c) hsub
      simp only
      split_ifs with hc
      · have htold : (c, key) ∈ s.told := (h.told _).mpr (hreg.mpr hc)
        refine h.setObject hsub rfl ?_ h.oneCall ?_ ?_
        · intro call hcall
          refine ⟨hcall, ?_⟩
          intro href hweak hwas hin
          have hold := (h.calls call hcall hweak).2 hwas
          rw [href] at hold
          exact hold (Finset.mem_of_mem_erase hin)
        · intro p
          rw [Finset.mem_erase, Ne, Prod.ext_iff]
          split_ifs with hkey
          · have hp : p ∈ s.told ↔ p.1 ∈ (s.mgr.objects r).subscribedClientIds := by
              rw [h.told, ← Manager.mem_registered_of_subs hsub, ← hkey]
            rw [Finset.mem_erase, hp]
            simp [hkey]
          · simp [hkey]
        · have hpos := Finset.card_pos.mpr ⟨_, htold⟩
          rw [Finset.card_erase_of_mem htold, h.count]
          omega
      · refine hsame ?_
        rw [h.told, hreg]
        exact hc

/-- The objects connected to a client are those of the keys that it was told. -/
theorem OrphanInv.length_connected (h : OrphanInv s) (held : List SubRef) (c : ClientId) :
    (s.mgr.connected held c).length = (s.told.filter fun p => p.1 = c).card := by
  have hnodup : (s.mgr.connected held c).Nodup := List.nodup_range.filter _
  have hinj : Set.InjOn (fun r => (c, (s.mgr.objects r).key))
      (s.mgr.connected held c).toFinset := by
    intro r hr r' hr' heq
    rw [Finset.mem_coe, List.mem_toFinset, Manager.mem_connected] at hr hr'
    have hsub := h.attached r hr.1 c hr.2.1
    have hkeys : (s.mgr.objects r).key = (s.mgr.objects r').key := (Prod.ext_iff.mp heq).2
    rw [hkeys, h.attached r' hr'.1 c hr'.2.1] at hsub
    exact (Option.some.inj hsub).symm
  rw [← List.toFinset_card_of_nodup hnodup, ← Finset.card_image_of_injOn hinj]
  congr 1
  ext p
  simp only [Finset.mem_image, List.mem_toFinset, Manager.mem_connected, Finset.mem_filter,
    h.told, Manager.mem_registered]
  constructor
  · rintro ⟨r, ⟨hlt, hc, -⟩, rfl⟩
    exact ⟨⟨r, h.attached r hlt c hc, hc⟩, rfl⟩
  · rintro ⟨⟨r, hr, hc⟩, rfl⟩
    have hkey := h.wf.key_eq p.2 r hr
    refine ⟨r, ⟨h.wf.lt p.2 r hr, hc, .inl ?_⟩, ?_⟩
    · rw [hkey]
      exact hr
    · rw [hkey]

theorem OrphanInv.destroyClient (h : OrphanInv s) {c : ClientId} {now : Int}
    (ht : s.destroyClient c now = some t) : OrphanInv t := by
  unfold Registry.destroyClient at ht
  split_ifs at ht with hidle
  cases ht
  have hobj : ∀ r, ((s.mgr.destroyClient (s.calls.map Call.ref) c now).objects r).key =
      (s.mgr.objects r).key ∧ ((s.mgr.destroyClient (s.calls.map Call.ref) c now).objects
        r).subscribedClientIds ⊆ (s.mgr.objects r).subscribedClientIds := by
    intro r
    simp only [Manager.destroyClient]
    split_ifs
    · exact ⟨rfl, Finset.erase_subset _ _⟩
    · exact ⟨rfl, subset_rfl⟩
  refine ⟨h.wf.destroyClient _, ?_, h.oneCall, ?_, ?_, ?_⟩
  · intro r hlt c' hc'
    rw [(hobj r).1]
    exact h.attached r hlt c' ((hobj r).2 hc')
  · intro call hcall hweak
    obtain ⟨hsub, hnew⟩ := h.calls call hcall hweak
    exact ⟨hsub, fun hwas hc => hnew hwas ((hobj call.ref).2 hc)⟩
  · intro p
    rw [Manager.registered_destroyClient h.wf, Finset.mem_filter, h.told]
  · have hlen := h.length_connected (s.calls.map Call.ref) c
    have hsplit := Finset.card_filter_add_card_filter_not (s := s.told) (fun p => p.1 = c)
    have hcount := h.count
    simp only [Manager.destroyClient]
    change s.mgr.nClientSubsActive - ((s.mgr.connected (s.calls.map Call.ref) c).length : Int) =
      ((s.told.filter fun p => ¬ p.1 = c).card : Int)
    omega

theorem OrphanInv.removeZombies (h : OrphanInv s) {forced : Bool} {now : Int}
    (hspares : Spares s (.removeZombies forced now)) :
    OrphanInv { s with mgr := s.mgr.removeZombies forced now } := by
  have hkeep : ∀ key r, s.mgr.subs key = some r → s.mgr.isZombie forced now r = false →
      (s.mgr.removeZombies forced now).subs key = some r := by
    intro key r hr hz
    simp [Manager.removeZombies, hr, hz]
  refine ⟨h.wf.removeZombies forced, ?_, h.oneCall, ?_, ?_, h.count⟩
  · intro r hlt c hc
    refine hkeep _ r (h.attached r hlt c hc) ?_
    have hne : (s.mgr.objects r).subscribedClientIds ≠ ∅ := Finset.ne_empty_of_mem hc
    simp [Manager.isZombie, hne]
  · intro call hcall hweak
    obtain ⟨hsub, hnew⟩ := h.calls call hcall hweak
    exact ⟨hkeep _ _ hsub (hspares call hcall hweak), hnew⟩
  · intro p
    rw [Manager.registered_removeZombies]
    exact h.told p

theorem OrphanInv.apply (h : OrphanInv s) {op : RegistryOp} (hspares : Spares s op)
    (ht : s.apply useCache op = some t) : OrphanInv t := by
  cases op with
  | getOrMakeSubRef c key weak now => exact h.begin ht
  | register k now => exact h.finish ht
  | unsubscribe c key now => exact h.unsubscribe ht
  | destroyClient c now => exact h.destroyClient ht
  | removeZombies forced now =>
      cases ht
      exact h.removeZombies hspares

theorem orphanInv_of_init (h : RegistryInit s) : OrphanInv s := by
  obtain ⟨hsubs, hnext, hn, hcalls, htold⟩ := h
  refine ⟨⟨?_, ?_⟩, ?_, ?_, ?_, ?_, ?_⟩
  · simp [hsubs]
  · simp [hsubs]
  · simp [hnext]
  · simp [hcalls]
  · simp [hcalls]
  · simp [htold, Manager.mem_registered, hsubs]
  · simp [htold, hn]

/--
In every run in which the collector spares the objects of running calls: a
client that was told it is subscribed to a key is in the object that the table
has for the key, and the counter is the number of registered pairs.
-/
theorem no_orphans (hs : Reachable RegistryInit (RegistryStep useCache Spares) s) :
    (∀ p ∈ s.told, ∃ r, s.mgr.subs p.2 = some r ∧
        p.1 ∈ (s.mgr.objects r).subscribedClientIds) ∧
      s.mgr.nClientSubsActive = s.mgr.registered.ncard := by
  have hinv : OrphanInv s := by
    refine hs.invariant (fun s h => orphanInv_of_init h) ?_
    rintro s t hst ⟨op, hspares, hop⟩
    exact hst.apply hspares hop
  refine ⟨fun p hp => (hinv.told p).mp hp, ?_⟩
  have hset : s.mgr.registered = ↑s.told := by
    ext p
    exact (hinv.told p).symm
  rw [hset, Set.ncard_coe_finset, hinv.count]

end Steps

theorem registryInit_empty : RegistryInit ({} : Registry Nat) := ⟨rfl, rfl, rfl, rfl, rfl⟩

/-- A collection takes the object of key 8, and leaves the one of key 7 to a running call. -/
theorem no_orphans_collected :
    ∃ s : Registry Nat, (1, 7) ∈ s.told ∧ s.mgr.subs 8 = none ∧
      (∀ p ∈ s.told, ∃ r, s.mgr.subs p.2 = some r ∧
        p.1 ∈ (s.mgr.objects r).subscribedClientIds) ∧
      s.mgr.nClientSubsActive = s.mgr.registered.ncard := by
  have hleft : Reachable RegistryInit (RegistryStep true Spares) _ :=
    .next (.next (.next (.next (.next (.start registryInit_empty)
      ⟨.getOrMakeSubRef 0 7 false 0, trivial, rfl⟩)
      ⟨.register 0 0, trivial, rfl⟩)
      ⟨.getOrMakeSubRef 2 8 false 0, trivial, rfl⟩)
      ⟨.register 0 0, trivial, rfl⟩)
      ⟨.unsubscribe 2 8 0, trivial, rfl⟩
  have hcalled := hleft.next ⟨.getOrMakeSubRef 1 7 false 0, trivial, rfl⟩
  obtain ⟨s, hrun, htold, hgone⟩ : ∃ s : Registry Nat,
      Reachable RegistryInit (RegistryStep true Spares) s ∧ (1, 7) ∈ s.told ∧
        s.mgr.subs 8 = none := by
    refine ⟨_, (hcalled.next ⟨.removeZombies true 0, ?_, rfl⟩).next ⟨.register 0 0, trivial, rfl⟩,
      Finset.mem_insert_self _ _, rfl⟩
    intro call hcall _
    obtain rfl := List.mem_singleton.mp hcall
    rfl
  exact ⟨s, htold, hgone, no_orphans hrun⟩

/-- The collector runs between the two locks of a `subscribe`. -/
theorem collected_during_subscribe :
    ¬ ∀ s : Registry Nat, Reachable RegistryInit (RegistryStep true (fun _ _ => True)) s →
      (∀ p ∈ s.told, ∃ r, s.mgr.subs p.2 = some r ∧
        p.1 ∈ (s.mgr.objects r).subscribedClientIds) ∧
      s.mgr.nClientSubsActive = s.mgr.registered.ncard := by
  intro h
  have hrun : Reachable RegistryInit (RegistryStep true (fun _ _ => True)) _ :=
    .next (.next (.next (.start registryInit_empty)
      ⟨.getOrMakeSubRef 0 7 false 0, trivial, rfl⟩)
      ⟨.removeZombies true 0, trivial, rfl⟩)
      ⟨.register 0 0, trivial, rfl⟩
  obtain ⟨r, hr, -⟩ := (h _ hrun).1 (0, 7) (Finset.mem_insert_self _ _)
  have hgone : (none : Option SubRef) = some r := hr
  cases hgone

end SubsMgr
end Shulcrum
