import Shulcrum.ThreadSafeHashTable.Invariant

/-!
# Runs of the table of shared objects

The deleter of an object that was replaced holds a reference to the replacement
for a moment, under the lock.  If all others drop theirs in that moment, the
replacement dies there, and its deleter asks for the lock that the thread holds.

**Results.**
* `no_lockedDeleter`, `lockedDeleter_of_not_tempShared`: when a deleter runs under
  the lock.
* `perKey_table`: this, and that the table finds the objects that are alive.
* `exists_lockedDeleter`: a run with a deleter under the lock.
-/

namespace Shulcrum
namespace ThreadSafeHashTable

open Invariant

section Run

variable {Tid Key : Type} [DecidableEq Tid] [DecidableEq Key] {s s' : State Tid Key} {t : Tid}

/-- What must hold when a thread is about to drop the temporary reference of a deleter: there
is another reference to the object. -/
def State.TempShared (s : State Tid Key) (t : Tid) : Prop :=
  ∀ p q rest, s.stack t = .deleterDecided p (some q) :: rest →
    (s.setStack t (.deleterDone p :: rest)).Live q

/-- A step that meets this condition. -/
def SharedStep (s s' : State Tid Key) : Prop := ∃ t, s.TempShared t ∧ Step t s s'

/-- With the condition, no thread has a second call. -/
theorem length_stack_le (h : Reachable Initial SharedStep s) (t : Tid) :
    (s.stack t).length ≤ 1 := by
  refine h.invariant (I := fun s => ∀ t, (s.stack t).length ≤ 1) ?_ ?_ t
  · rintro s rfl t
    exact Nat.zero_le 1
  · rintro s s' hlen ⟨v, hshared, hstep⟩ u
    have hset : ∀ {l : List (Frame Key)} {base : State Tid Key}, base.stack = s.stack →
        l.length ≤ 1 → ((base.setStack v l).stack u).length ≤ 1 := by
      intro l base hbase hl
      by_cases hu : u = v
      · subst hu
        rwa [State.setStack_stack_self]
      · rw [State.setStack_stack_of_ne _ _ hu, hbase]
        exact hlen u
    have hv := hlen v
    cases hstep with
    | call key createIfMissing h => exact hset rfl le_rfl
    | move h hmove =>
        rw [h] at hv
        exact hset rfl hv
    | create h =>
        rw [h] at hv
        exact hset rfl hv
    | insert h =>
        rw [h] at hv
        exact hset rfl hv
    | finish h =>
        rw [h] at hv
        exact hset rfl (Nat.le_of_succ_le hv)
    | copy h ho => exact hlen u
    | drop h ho hlive => exact hlen u
    | dropLast h ho hlast => exact hset rfl le_rfl
    | erase h hown =>
        rw [h] at hv
        exact hset rfl hv
    | dropTemp h hlive =>
        rw [h] at hv
        exact hset rfl hv
    | dropTempLast h hlast => exact absurd (hshared _ _ _ h) hlast
    | unlockDeleter h =>
        rw [h] at hv
        exact hset rfl (Nat.le_of_succ_le hv)

/-- With the condition, no deleter runs under the lock. -/
theorem no_lockedDeleter (h : Reachable Initial SharedStep s) (t : Tid) :
    ¬ s.LockedDeleter t := by
  rintro ⟨f, rest, hstack, -, g, hg, -⟩
  have hlen := length_stack_le h t
  have hpos : 0 < rest.length := List.length_pos_of_mem hg
  rw [hstack, List.length_cons] at hlen
  omega

/-- Without the condition, the next step of the thread is to run a deleter under the lock. -/
theorem lockedDeleter_of_not_tempShared (h : Step t s s') (hnot : ¬ s.TempShared t) :
    s'.LockedDeleter t := by
  obtain ⟨p, q, rest, hstack, hlast⟩ : ∃ p q rest,
      s.stack t = .deleterDecided p (some q) :: rest ∧
        ¬ (s.setStack t (.deleterDone p :: rest)).Live q := by
    rw [State.TempShared] at hnot
    push Not at hnot
    exact hnot
  have hself := hstack
  cases h with
  | dropTempLast h hlast' =>
      refine ⟨_, _, State.setStack_stack_self _ _ _, rfl, _, List.mem_cons_self, Or.inr rfl⟩
  | dropTemp h hlive =>
      rw [h, List.cons.injEq] at hself
      obtain ⟨hframe, rfl⟩ := hself
      cases hframe
      exact absurd hlive hlast
  | move h hmove =>
      rw [h, List.cons.injEq] at hself
      obtain ⟨rfl, -⟩ := hself
      cases hmove
  | call key createIfMissing h => simp [h] at hself
  | create h => simp [h] at hself
  | insert h => simp [h] at hself
  | finish h => simp [h] at hself
  | copy h ho => simp [h] at hself
  | drop h ho hlive => simp [h] at hself
  | dropLast h ho hlast' => simp [h] at hself
  | erase h hown => simp [h] at hself
  | unlockDeleter h => simp [h] at hself

end Run

section Claim

variable (Tid Key : Type) [DecidableEq Tid] [DecidableEq Key]

/--
In all runs, while nobody holds the lock exclusively, at most one object of a key is
alive, and its entry refers to it, so that a search finds it.  If the temporary
reference of a deleter is never the last one when it is dropped, no thread that holds
the lock runs a deleter; but a thread that drops it as the last one does.
-/
theorem perKey_table :
    (∀ s : State Tid Key, Reachable Initial AnyStep s → (∀ t, ¬ s.HoldsExclusive t) →
      (∀ o o', s.Live o → s.Live o' → o.key = o'.key → o = o') ∧
      ∀ o, s.Live o → s.table o.key = some o ∧ ∀ ret, s.Lookup o.key ret → ret = some o) ∧
    (∀ s : State Tid Key, Reachable Initial SharedStep s → ∀ t, ¬ s.LockedDeleter t) ∧
    ∀ (s s' : State Tid Key) (t : Tid), Step t s s' → ¬ s.TempShared t → s'.LockedDeleter t := by
  refine ⟨?_, ?_, ?_⟩
  · intro s hs hno
    have hinv := Inv.reachable hs
    refine ⟨fun o o' ho ho' hkey => hinv.unique hno ho ho' hkey, ?_⟩
    intro o ho
    have htable := hinv.table_eq hno ho
    refine ⟨htable, ?_⟩
    intro ret hret
    rcases hret with ⟨hnone, -⟩ | ⟨e, he, hup⟩
    · rw [htable] at hnone
      cases hnone
    · rw [htable, Option.some.injEq] at he
      subst he
      cases ret with
      | none => exact absurd ho hup
      | some r => rw [hup.1]
  · intro s hs t
    exact no_lockedDeleter hs t
  · intro s s' t hstep hnot
    exact lockedDeleter_of_not_tempShared hstep hnot

end Claim

section Counterexample

variable {Tid Key : Type} [DecidableEq Tid] [DecidableEq Key] {s : State Tid Key} {t : Tid}

omit [DecidableEq Key] in
@[simp] theorem State.setStack_setStack (s : State Tid Key) (t : Tid) (l l' : List (Frame Key)) :
    (s.setStack t l).setStack t l' = s.setStack t l' := by
  simp [State.setStack]

/-- A thread that is in one call moves on. -/
theorem Move.reachable {f f' : Frame Key} {rest : List (Frame Key)}
    (h : Reachable Initial AnyStep (s.setStack t (f :: rest)))
    (hmove : Move (s.setStack t (f :: rest)) f f') :
    Reachable Initial AnyStep (s.setStack t (f' :: rest)) := by
  have hstep := h.next ⟨t, Step.move (State.setStack_stack_self s t (f :: rest)) hmove⟩
  rwa [State.setStack_setStack] at hstep

omit [DecidableEq Key] in
theorem State.Free.setStack (hfree : s.Free) {l : List (Frame Key)}
    (hsh : ∀ f ∈ l, f.holdsShared = false) (hex : ∀ f ∈ l, f.holdsExclusive = false) :
    (s.setStack t l).Free := by
  intro u
  by_cases hu : u = t
  · subst hu
    simp only [State.HoldsShared, State.HoldsExclusive, State.setStack_stack_self]
    constructor
    · rintro ⟨f, hf, h⟩
      rw [hsh f hf] at h
      cases h
    · rintro ⟨f, hf, h⟩
      rw [hex f hf] at h
      cases h
  · simp only [State.HoldsShared, State.HoldsExclusive, State.setStack_stack_of_ne s l hu]
    exact hfree u

/-- Nobody else being at the table, a thread gets a new object for a key without a live one. -/
theorem reachable_create (h : Reachable Initial AnyStep s) (hfree : s.Free)
    (hidle : s.stack t = []) (key : Key) (hdead : ∀ o, s.table key = some o → ¬ s.Live o) :
    Reachable Initial AnyStep
      { s with table := Function.update s.table key (some ⟨key, s.next⟩)
               next := s.next + 1
               users := ⟨key, s.next⟩ :: s.users } := by
  have hlookup : ∀ f : Frame Key, f.ref = none → (s.setStack t [f]).Lookup key none := by
    intro f hf
    cases hentry : s.table key with
    | none => exact Or.inl ⟨hentry, rfl⟩
    | some o =>
        refine Or.inr ⟨o, hentry, ?_⟩
        intro hlive
        refine hdead o hentry ?_
        rcases State.live_setStack hlive with hu | ⟨g, hg, hr⟩ | ⟨u, -, g, hg, hr⟩
        · exact Or.inl hu
        · rw [List.mem_singleton.mp hg, hf] at hr
          cases hr
        · exact State.live_of_mem hg hr
  have hfree' : ∀ f : Frame Key, f.holdsShared = false → f.holdsExclusive = false →
      (s.setStack t [f]).Free := fun f hsh hex =>
    hfree.setStack (List.forall_mem_singleton.mpr hsh) (List.forall_mem_singleton.mpr hex)
  have h1 := h.next ⟨t, .call key true hidle⟩
  have h2 := Move.reachable h1 (.lockShared fun u => (hfree' _ rfl rfl u).2)
  have h3 := Move.reachable h2 (.lookupShared (hlookup _ rfl))
  have h4 := Move.reachable h3 .unlockShared
  have h5 := Move.reachable h4 (.lockExclusive (hfree' _ rfl rfl))
  have h6 := Move.reachable h5 (.lookupExclusive (hlookup _ rfl))
  have h7 := h6.next ⟨t, .create (State.setStack_stack_self _ _ _)⟩
  have h8 := h7.next ⟨t, .insert (State.setStack_stack_self _ _ _)⟩
  have h9 := Move.reachable h8 .unlockExclusive
  have h10 := h9.next ⟨t, .finish (State.setStack_stack_self _ _ _)⟩
  simp [State.setStack, ← hidle] at h10
  exact h10

/-- One object, referred to by one caller. -/
def one : State (Fin 2) Unit where
  table := fun _ => some ⟨(), 0⟩
  next := 1
  users := [⟨(), 0⟩]

theorem free_empty : ({} : State (Fin 2) Unit).Free := by
  simp [State.Free, State.HoldsShared, State.HoldsExclusive]

theorem reachable_one : Reachable Initial AnyStep one :=
  reachable_create (t := 0) (.start rfl) free_empty rfl () (by simp)

/-- The table and the references after the first object was replaced. -/
def replaced : State (Fin 2) Unit where
  table := fun _ => some ⟨(), 1⟩
  next := 2
  users := [⟨(), 1⟩]

/-- One thread drops its reference, and another one replaces the object before the deleter of
the first looks at it. -/
theorem reachable_upgraded : Reachable Initial AnyStep
    (replaced.setStack 0 [.deleterUpgraded ⟨(), 0⟩ (some ⟨(), 1⟩)]) := by
  have h2 := reachable_one.next ⟨0, .dropLast rfl List.mem_cons_self (by decide)⟩
  -- the deleter waits for the lock, and leaves it free
  have hwait : ∀ base : State (Fin 2) Unit, base.Free →
      (base.setStack 0 [.deleter ⟨(), 0⟩]).Free := fun base hbase =>
    hbase.setStack (by simp [Frame.holdsShared]) (by simp [Frame.holdsExclusive])
  have h3 : Reachable Initial AnyStep (replaced.setStack 0 [.deleter ⟨(), 0⟩]) :=
    reachable_create (t := 1) h2 (hwait _ free_empty) rfl () (by
      intro o ho
      cases ho
      decide)
  have h4 := Move.reachable h3 (.lockDeleter (hwait _ free_empty))
  have h5 := Move.reachable h4 .find
  exact Move.reachable h5
    (.upgrade ⟨rfl, by decide⟩ : Move _ _ (.deleterUpgraded ⟨(), 0⟩ (some ⟨(), 1⟩)))

/-- The deleter leaves the entry of the replacement, and the table finds it. -/
theorem perKey_table_replaced : ¬ replaced.Live ⟨(), 0⟩ ∧ replaced.Live ⟨(), 1⟩ ∧
    replaced.table () = some ⟨(), 1⟩ := by
  have h7 := Move.reachable reachable_upgraded (.keep (by decide))
  have h8 := h7.next ⟨0, .dropTemp (State.setStack_stack_self _ _ _) (by decide)⟩
  have h9 := h8.next ⟨0, .unlockDeleter (State.setStack_stack_self _ _ _)⟩
  have hend : Reachable Initial AnyStep replaced := by
    simpa [State.setStack, replaced] using h9
  have hlive : replaced.Live ⟨(), 1⟩ := by decide
  have hno : ∀ t, ¬ replaced.HoldsExclusive t := by
    simp [State.HoldsExclusive, replaced]
  exact ⟨by decide, hlive, (((perKey_table (Fin 2) Unit).1 replaced hend hno).2 _ hlive).1⟩

/-- The other thread drops the replacement while the deleter looks at it. -/
theorem exists_lockedDeleter :
    ∃ s : State (Fin 2) Unit, Reachable Initial AnyStep s ∧ ∃ t, s.LockedDeleter t := by
  have h7 : Reachable Initial AnyStep ({ replaced with users := [] }.setStack 0
      [.deleterUpgraded ⟨(), 0⟩ (some ⟨(), 1⟩)]) :=
    reachable_upgraded.next ⟨1, .drop (o := ⟨(), 1⟩) rfl List.mem_cons_self (by decide)⟩
  have h8 := Move.reachable h7 (.keep (by decide))
  have h9 := h8.next ⟨0, .dropTempLast (State.setStack_stack_self _ _ _) (by decide)⟩
  exact ⟨_, h9, 0, _, _, State.setStack_stack_self _ _ _, rfl, _, List.mem_cons_self, Or.inr rfl⟩

end Counterexample

end ThreadSafeHashTable
end Shulcrum
