import Mathlib.Data.Fintype.Basic
import Shulcrum.ThreadSafeHashTable.Model

/-!
# What the calls know about the objects

The invariant says of every call in progress what it knows about the objects that
are alive.  It holds in all runs, so that a live object is found in the table
whenever nobody holds the exclusive lock.

**Results.**
* `Inv.step`, `Inv.reachable`: the invariant.
* `Inv.unique`, `Inv.table_eq`: what it says of the table.
-/

namespace Shulcrum
namespace ThreadSafeHashTable

open Invariant

variable {Tid Key : Type}

section Invariant

/-- The object has lost its last reference. -/
def State.Dead (s : State Tid Key) (p : Obj Key) : Prop := p.id < s.next ∧ ¬ s.Live p

/-- What a call knows about the objects. -/
def State.FrameOk (s : State Tid Key) : Frame Key → Prop
  | .missing key => ∀ o, s.Live o → o.key ≠ key
  | .created ret => ∀ o, s.Live o → o.key = ret.key → o = ret
  | .deleter p => s.Dead p
  | .deleterLocked p => s.Dead p
  | .deleterFound p entry => s.Dead p ∧ s.table p.key = some entry
  | .deleterUpgraded p existingRef =>
      s.Dead p ∧ (existingRef = none → ∀ o, s.Live o → o.key ≠ p.key)
  | .deleterDecided p _ => s.Dead p
  | .deleterDone p => s.Dead p
  | _ => True

/-- The calls that a thread may be in. -/
inductive Shape : List (Frame Key) → Prop
  | idle : Shape []
  | single (f : Frame Key) : Shape [f]
  | nested (p q : Obj Key) : Shape [.deleter p, .deleterDone q]

/-- The invariant of all runs. -/
structure Inv (s : State Tid Key) : Prop where
  shape : ∀ t, Shape (s.stack t)
  mutex : ∀ t u, s.HoldsExclusive t → s.HoldsShared u ∨ s.HoldsExclusive u → u = t
  frames : ∀ t, ∀ f ∈ s.stack t, s.FrameOk f
  fresh : ∀ o, s.Live o → o.id < s.next
  table : ∀ o, s.Live o → s.table o.key = some o ∨ ∃ t, .created o ∈ s.stack t

variable {s s' : State Tid Key} {t u : Tid} {f f' : Frame Key} {rest : List (Frame Key)}
  {o p : Obj Key}

theorem State.live_of_mem (hf : f ∈ s.stack t) (hr : f.ref = some o) : s.Live o :=
  Or.inr ⟨t, f, hf, hr⟩

/-- The call on top of a thread in the middle of one that is not the deleter of a
replacement is its only call. -/
theorem Inv.rest_eq_nil (hinv : Inv s) (hf : s.stack t = f :: rest)
    (hdel : ∀ p, f ≠ .deleter p) : rest = [] := by
  have hshape := hinv.shape t
  rw [hf] at hshape
  cases hshape with
  | single => rfl
  | nested p q => exact absurd rfl (hdel p)

/-- No call of a thread has created an object, unless the one on top has. -/
theorem Inv.not_created (hinv : Inv s) (hf : s.stack t = f :: rest)
    (hne : ∀ o, f ≠ .created o) (o : Obj Key) : .created o ∉ s.stack t := by
  intro ho
  have hshape := hinv.shape t
  rw [hf] at hshape ho
  cases hshape with
  | single => exact hne o (List.mem_singleton.mp ho).symm
  | nested p q => simp at ho

/-- While a call holds the exclusive lock, no other call has created an object. -/
theorem Inv.created_eq (hinv : Inv s) (hf : s.stack t = f :: rest)
    (hex : f.holdsExclusive = true) (ho : .created o ∈ s.stack u) : f = .created o := by
  have ht : s.HoldsExclusive t := ⟨f, hf ▸ List.mem_cons_self, hex⟩
  obtain rfl : u = t := hinv.mutex t u ht (Or.inr ⟨_, ho, rfl⟩)
  have hrest : rest = [] := by
    refine hinv.rest_eq_nil hf ?_
    rintro p rfl
    cases hex
  rw [hf, hrest, List.mem_singleton] at ho
  exact ho.symm

/-- A search under the exclusive lock that fails shows that no object of the key is alive. -/
theorem Inv.dead_of_lookup (hinv : Inv s) (hf : s.stack t = f :: rest)
    (hex : f.holdsExclusive = true) (hnot : ∀ o, f ≠ .created o) {key : Key}
    (hdead : ∀ o, s.table key = some o → ¬ s.Live o) : ∀ o, s.Live o → o.key ≠ key := by
  rintro o hlive rfl
  rcases hinv.table o hlive with htable | ⟨u, hu⟩
  · exact hdead o htable hlive
  · exact hnot o (hinv.created_eq hf hex hu)

/-- An upgrade or a search gives an object that is alive. -/
theorem State.Upgrade.live {ret : Option (Obj Key)} (h : s.Upgrade p ret) (hr : ret = some o) :
    s.Live o := by
  subst hr
  exact h.1 ▸ h.2

theorem State.Lookup.live {key : Key} {ret : Option (Obj Key)} (h : s.Lookup key ret)
    (hr : ret = some o) : s.Live o := by
  rcases h with ⟨-, hnone⟩ | ⟨e, -, hup⟩
  · rw [hnone] at hr
    cases hr
  · exact hup.live hr

theorem State.Lookup.dead {key : Key} (h : s.Lookup key none) (o : Obj Key)
    (ho : s.table key = some o) : ¬ s.Live o := by
  rcases h with ⟨hnone, -⟩ | ⟨e, he, hup⟩
  · rw [hnone] at ho
    cases ho
  · rw [he, Option.some.injEq] at ho
    exact ho ▸ hup

theorem Inv.initial : Inv ({} : State Tid Key) where
  shape := fun _ => .idle
  mutex := by simp [State.HoldsExclusive]
  frames := by simp
  fresh := by simp [State.Live]
  table := by simp [State.Live]

/-- The entry of a key that has a live object refers to it. -/
theorem Inv.table_eq (hinv : Inv s) (hno : ∀ t, ¬ s.HoldsExclusive t) {o : Obj Key}
    (ho : s.Live o) : s.table o.key = some o := by
  rcases hinv.table o ho with h | ⟨t, ht⟩
  · exact h
  · exact absurd ⟨_, ht, rfl⟩ (hno t)

/-- At most one object of a key is alive. -/
theorem Inv.unique (hinv : Inv s) (hno : ∀ t, ¬ s.HoldsExclusive t) {o o' : Obj Key}
    (ho : s.Live o) (ho' : s.Live o') (hkey : o.key = o'.key) : o = o' := by
  have h := hinv.table_eq hno ho
  rw [hkey, hinv.table_eq hno ho'] at h
  exact (Option.some.inj h).symm

end Invariant

section Change

variable {s s' : State Tid Key} {t u : Tid} {f : Frame Key} {o : Obj Key}

/--
A step changes the calls of one thread.  Objects come alive only by creation, and
the table is changed under the exclusive lock only.
-/
structure Change (t : Tid) (s s' : State Tid Key) : Prop where
  stack : ∀ u, u ≠ t → s'.stack u = s.stack u
  next : s.next ≤ s'.next
  live : ∀ o, s'.Live o → s.Live o ∨ s.HoldsExclusive t ∧ s.next ≤ o.id ∧ o.id < s'.next
  table : s'.table = s.table ∨ s.HoldsExclusive t
  exclusive : s'.HoldsExclusive t → s.HoldsExclusive t ∨ s.Free
  shared : s'.HoldsShared t → s.HoldsShared t ∨ ∀ u, ¬ s.HoldsExclusive u

/-- What a call knows stays true while the table stays and no object comes alive. -/
theorem State.FrameOk.mono (hok : s.FrameOk f) (hnext : s.next ≤ s'.next)
    (hlive : ∀ o, s'.Live o → s.Live o) (htable : s'.table = s.table) : s'.FrameOk f := by
  have hdead : ∀ p, s.Dead p → s'.Dead p := by
    rintro p ⟨hlt, hnot⟩
    exact ⟨lt_of_lt_of_le hlt hnext, fun hp => hnot (hlive p hp)⟩
  cases f with
  | missing key => exact fun o ho => hok o (hlive o ho)
  | created ret => exact fun o ho => hok o (hlive o ho)
  | deleter p => exact hdead p hok
  | deleterLocked p => exact hdead p hok
  | deleterFound p entry => exact ⟨hdead p hok.1, htable ▸ hok.2⟩
  | deleterUpgraded p ret => exact ⟨hdead p hok.1, fun hnone o ho => hok.2 hnone o (hlive o ho)⟩
  | deleterDecided p ret => exact hdead p hok
  | deleterDone p => exact hdead p hok
  | _ => trivial

/-- The dead stay dead. -/
theorem Change.dead (h : Change t s s') {p : Obj Key} (hp : s.Dead p) : s'.Dead p := by
  obtain ⟨hlt, hnot⟩ := hp
  refine ⟨lt_of_lt_of_le hlt h.next, ?_⟩
  intro hlive
  rcases h.live p hlive with hold | ⟨-, hge, -⟩
  · exact hnot hold
  · omega

/-- What a call of another thread knows stays true. -/
theorem Change.frameOk (h : Change t s s') (hinv : Inv s) (hu : u ≠ t) (hf : f ∈ s.stack u) :
    s'.FrameOk f := by
  have hok := hinv.frames u f hf
  by_cases hex : f.holdsExclusive = true
  · -- the step is not under the lock, since this call holds it
    have hnot : ¬ s.HoldsExclusive t := by
      intro ht
      exact hu (hinv.mutex t u ht (Or.inr ⟨f, hf, hex⟩))
    refine hok.mono h.next ?_ (h.table.resolve_right hnot)
    intro o ho
    exact (h.live o ho).resolve_right fun hnew => hnot hnew.1
  · cases f with
    | deleter p => exact h.dead hok
    | getOrCreate => trivial
    | sharedLocked => trivial
    | sharedFound => trivial
    | wantExclusive => trivial
    | returning => trivial
    | _ => exact absurd rfl hex

theorem Change.holdsExclusive_iff (h : Change t s s') (hu : u ≠ t) :
    s'.HoldsExclusive u ↔ s.HoldsExclusive u := by
  rw [State.HoldsExclusive, h.stack u hu]
  rfl

theorem Change.holdsShared_iff (h : Change t s s') (hu : u ≠ t) :
    s'.HoldsShared u ↔ s.HoldsShared u := by
  rw [State.HoldsShared, h.stack u hu]
  rfl

/-- The lock stays with one thread, or with readers. -/
theorem Change.mutex (h : Change t s s') (hinv : Inv s) (v w : Tid)
    (hv : s'.HoldsExclusive v) (hw : s'.HoldsShared w ∨ s'.HoldsExclusive w) : w = v := by
  by_cases hvt : v = t
  · subst hvt
    by_contra hne
    rw [h.holdsShared_iff hne, h.holdsExclusive_iff hne] at hw
    rcases h.exclusive hv with hold | hfree
    · exact hne (hinv.mutex v w hold hw)
    · rcases hw with hw | hw
      · exact absurd hw (hfree w).1
      · exact absurd hw (hfree w).2
  · rw [h.holdsExclusive_iff hvt] at hv
    by_cases hwt : w = t
    · subst hwt
      rcases hw with hw | hw
      · rcases h.shared hw with hold | hfree
        · exact hinv.mutex v w hv (Or.inl hold)
        · exact absurd hv (hfree v)
      · rcases h.exclusive hw with hold | hfree
        · exact hinv.mutex v w hv (Or.inr hold)
        · exact absurd hv (hfree v).2
    · rw [h.holdsShared_iff hwt, h.holdsExclusive_iff hwt] at hw
      exact hinv.mutex v w hv hw

/-- The invariant after a change, from what the acting thread has to show. -/
theorem Change.inv (h : Change t s s') (hinv : Inv s) (hshape : Shape (s'.stack t))
    (hframes : ∀ f ∈ s'.stack t, s'.FrameOk f)
    (htable : ∀ o, s'.Live o → s'.table o.key = some o ∨ ∃ u, .created o ∈ s'.stack u) :
    Inv s' where
  shape := by
    intro u
    by_cases hu : u = t
    · exact hu ▸ hshape
    · rw [h.stack u hu]
      exact hinv.shape u
  mutex := h.mutex hinv
  frames := by
    intro u f hf
    by_cases hu : u = t
    · subst hu
      exact hframes f hf
    · rw [h.stack u hu] at hf
      exact h.frameOk hinv hu hf
  fresh := by
    intro o ho
    rcases h.live o ho with hold | ⟨-, -, hlt⟩
    · exact lt_of_lt_of_le (hinv.fresh o hold) h.next
    · exact hlt
  table := htable

/-- The table part for a step that leaves the table alone. -/
theorem Change.table_of_eq (h : Change t s s') (hinv : Inv s) (heq : s'.table = s.table)
    (hlive : ∀ o, s'.Live o → s.Live o) (hnot : ∀ o, .created o ∉ s.stack t) (o : Obj Key)
    (ho : s'.Live o) : s'.table o.key = some o ∨ ∃ u, .created o ∈ s'.stack u := by
  rcases hinv.table o (hlive o ho) with hold | ⟨u, hu⟩
  · exact Or.inl (heq ▸ hold)
  · by_cases hut : u = t
    · exact absurd (hut ▸ hu) (hnot o)
    · exact Or.inr ⟨u, by rwa [h.stack u hut]⟩

end Change

section Steps

variable [DecidableEq Tid] {s s' : State Tid Key} {t u : Tid} {f f' : Frame Key}
  {l rest : List (Frame Key)} {o p : Obj Key}

@[simp] theorem State.setStack_stack_self (s : State Tid Key) (t : Tid) (l : List (Frame Key)) :
    (s.setStack t l).stack t = l := by
  simp [State.setStack]

theorem State.setStack_stack_of_ne (s : State Tid Key) (l : List (Frame Key)) (h : u ≠ t) :
    (s.setStack t l).stack u = s.stack u := by
  simp [State.setStack, h]

/-- What is alive after a thread got other calls. -/
theorem State.live_setStack (h : (s.setStack t l).Live o) :
    o ∈ s.users ∨ (∃ f ∈ l, f.ref = some o) ∨ ∃ u, u ≠ t ∧ ∃ f ∈ s.stack u, f.ref = some o := by
  rcases h with h | ⟨u, f, hf, hr⟩
  · exact Or.inl h
  · by_cases hu : u = t
    · subst hu
      rw [State.setStack_stack_self] at hf
      exact Or.inr (Or.inl ⟨f, hf, hr⟩)
    · rw [State.setStack_stack_of_ne s l hu] at hf
      exact Or.inr (Or.inr ⟨u, hu, f, hf, hr⟩)

/-- A change of the calls of a thread, in a state that has the old calls. -/
theorem change_setStack {base : State Tid Key} (hstack : base.stack = s.stack)
    (hnext : s.next ≤ base.next) (husers : ∀ o ∈ base.users, s.Live o)
    (hrefs : ∀ f ∈ l, ∀ o, f.ref = some o →
      s.Live o ∨ s.HoldsExclusive t ∧ s.next ≤ o.id ∧ o.id < base.next)
    (htable : base.table = s.table ∨ s.HoldsExclusive t)
    (hex : ∀ f ∈ l, f.holdsExclusive = true → s.HoldsExclusive t ∨ s.Free)
    (hsh : ∀ f ∈ l, f.holdsShared = true → s.HoldsShared t ∨ ∀ u, ¬ s.HoldsExclusive u) :
    Change t s (base.setStack t l) where
  stack := by
    intro u hu
    rw [State.setStack_stack_of_ne base l hu, hstack]
  next := hnext
  live := by
    intro o ho
    rcases State.live_setStack ho with h | ⟨f, hf, hr⟩ | ⟨u, -, f, hf, hr⟩
    · exact Or.inl (husers o h)
    · exact hrefs f hf o hr
    · rw [hstack] at hf
      exact Or.inl (State.live_of_mem hf hr)
  table := htable
  exclusive := by
    rintro ⟨f, hf, hfex⟩
    rw [State.setStack_stack_self] at hf
    exact hex f hf hfex
  shared := by
    rintro ⟨f, hf, hfsh⟩
    rw [State.setStack_stack_self] at hf
    exact hsh f hf hfsh

/-- The invariant after a step that leaves the table alone and creates nothing. -/
theorem Inv.setStack {base : State Tid Key} (hinv : Inv s) (hstack : base.stack = s.stack)
    (hnext : base.next = s.next) (htable : base.table = s.table)
    (husers : ∀ o ∈ base.users, s.Live o) (hrefs : ∀ f ∈ l, ∀ o, f.ref = some o → s.Live o)
    (hex : ∀ f ∈ l, f.holdsExclusive = true → s.HoldsExclusive t ∨ s.Free)
    (hsh : ∀ f ∈ l, f.holdsShared = true → s.HoldsShared t ∨ ∀ u, ¬ s.HoldsExclusive u)
    (hshape : Shape l) (hframes : ∀ f ∈ l, (base.setStack t l).FrameOk f)
    (hnot : ∀ o, .created o ∉ s.stack t) : Inv (base.setStack t l) := by
  have hchange : Change t s (base.setStack t l) :=
    change_setStack hstack hnext.ge husers (fun f hf o ho => Or.inl (hrefs f hf o ho))
      (Or.inl htable) hex hsh
  have hlive : ∀ o, (base.setStack t l).Live o → s.Live o := by
    intro o ho
    rcases hchange.live o ho with h | ⟨-, hge, hlt⟩
    · exact h
    · have hsame : (base.setStack t l).next = s.next := hnext
      omega
  refine hchange.inv hinv ?_ ?_ (hchange.table_of_eq hinv htable hlive hnot)
  · rwa [State.setStack_stack_self]
  · rwa [State.setStack_stack_self]

end Steps

section Moves

variable {s : State Tid Key} {t : Tid} {f f' : Frame Key} {rest : List (Frame Key)} {o : Obj Key}

/-- A nested deleter waits for a lock that its own thread holds. -/
theorem Move.rest_eq_nil (hinv : Inv s) (hf : s.stack t = f :: rest) (h : Move s f f') :
    rest = [] := by
  have hshape := hinv.shape t
  rw [hf] at hshape
  cases hshape with
  | single => rfl
  | nested p q =>
      cases h with
      | lockDeleter hfree =>
          exact absurd ⟨.deleterDone q, by simp [hf], rfl⟩ (hfree t).2

theorem Move.live (h : Move s f f') (hf : s.stack t = f :: rest) (hr : f'.ref = some o) :
    s.Live o := by
  have hmem : f ∈ s.stack t := hf ▸ List.mem_cons_self
  cases h with
  | lockShared => cases hr
  | lookupShared hlook => exact hlook.live hr
  | @unlockShared key createIfMissing ret =>
      cases ret with
      | none =>
          cases createIfMissing
          · cases hr
          · cases hr
      | some r => exact State.live_of_mem hmem hr
  | lockExclusive => cases hr
  | @lookupExclusive key ret hlook =>
      cases ret with
      | none => cases hr
      | some r => exact hlook.live hr
  | unlockExclusive => exact State.live_of_mem hmem hr
  | lockDeleter => cases hr
  | @find p =>
      cases hentry : s.table p.key with
      | none =>
          rw [hentry] at hr
          cases hr
      | some e =>
          rw [hentry] at hr
          cases hr
  | upgrade hup => exact hup.live hr
  | keep => exact State.live_of_mem hmem hr
  | dropNone => cases hr

theorem Move.exclusive (h : Move s f f') (hex : f'.holdsExclusive = true) :
    f.holdsExclusive = true ∨ s.Free := by
  cases h with
  | @unlockShared key createIfMissing ret =>
      cases ret with
      | none =>
          cases createIfMissing
          · cases hex
          · cases hex
      | some r => cases hex
  | lockExclusive hfree => exact Or.inr hfree
  | lockDeleter hfree => exact Or.inr hfree
  | lookupExclusive => exact Or.inl rfl
  | find => exact Or.inl rfl
  | upgrade => exact Or.inl rfl
  | keep => exact Or.inl rfl
  | dropNone => exact Or.inl rfl
  | _ => cases hex

theorem Move.shared (h : Move s f f') (hsh : f'.holdsShared = true) :
    f.holdsShared = true ∨ ∀ u, ¬ s.HoldsExclusive u := by
  cases h with
  | lockShared hno => exact Or.inr hno
  | lookupShared => exact Or.inl rfl
  | @unlockShared key createIfMissing ret => exact Or.inl rfl
  | @lookupExclusive key ret =>
      cases ret with
      | none => cases hsh
      | some r => cases hsh
  | @find p =>
      cases hentry : s.table p.key with
      | none =>
          rw [hentry] at hsh
          cases hsh
      | some e =>
          rw [hentry] at hsh
          cases hsh
  | _ => cases hsh

/-- What the call knows after the move. -/
theorem Move.frameOk (hinv : Inv s) (hf : s.stack t = f :: rest) (h : Move s f f') :
    s.FrameOk f' := by
  have hok := hinv.frames t f (hf ▸ List.mem_cons_self)
  cases h with
  | @unlockShared key createIfMissing ret =>
      cases ret with
      | none =>
          cases createIfMissing
          · trivial
          · trivial
      | some r => trivial
  | @lookupExclusive key ret hlook =>
      cases ret with
      | none => exact hinv.dead_of_lookup hf rfl (by simp) hlook.dead
      | some r => trivial
  | lockDeleter => exact hok
  | @find p =>
      cases hentry : s.table p.key with
      | none => exact hok
      | some e => exact ⟨hok, hentry⟩
  | @upgrade p entry ret hup =>
      refine ⟨hok.1, ?_⟩
      rintro rfl
      refine hinv.dead_of_lookup hf rfl (by simp) ?_
      intro o ho
      rw [hok.2, Option.some.injEq] at ho
      exact ho ▸ hup
  | keep => exact hok.1
  | dropNone => exact hok
  | _ => trivial

/-- A call that has created an object does not just move on. -/
theorem Move.ne_created (h : Move s f f') (o : Obj Key) : f ≠ .created o := by
  rintro rfl
  cases h

end Moves

section Calls

variable [DecidableEq Tid] {s : State Tid Key} {t : Tid}

theorem State.setStack_self {l : List (Frame Key)} (h : s.stack t = l) : s.setStack t l = s := by
  subst h
  simp [State.setStack]

theorem Inv.move (hinv : Inv s) {f f' : Frame Key} {rest : List (Frame Key)}
    (hf : s.stack t = f :: rest) (h : Move s f f') : Inv (s.setStack t (f' :: rest)) := by
  obtain rfl := h.rest_eq_nil hinv hf
  have hmem : f ∈ s.stack t := hf ▸ List.mem_cons_self
  refine hinv.setStack rfl rfl rfl (fun o ho => Or.inl ho)
    (List.forall_mem_singleton.mpr fun o ho => h.live hf ho)
    (List.forall_mem_singleton.mpr fun hex =>
      (h.exclusive hex).imp_left fun hold => ⟨f, hmem, hold⟩)
    (List.forall_mem_singleton.mpr fun hsh =>
      (h.shared hsh).imp_left fun hold => ⟨f, hmem, hold⟩)
    (.single f') (List.forall_mem_singleton.mpr ?_) (hinv.not_created hf h.ne_created)
  refine (h.frameOk hinv hf).mono le_rfl ?_ rfl
  intro o ho
  rcases State.live_setStack ho with husers | ⟨g, hg, hr⟩ | ⟨u, -, g, hg, hr⟩
  · exact Or.inl husers
  · rw [List.mem_singleton.mp hg] at hr
    exact h.live hf hr
  · exact State.live_of_mem hg hr

/-- A thread without calls takes a call that holds nothing, or drops a reference. -/
theorem Inv.idle (hinv : Inv s) (h : s.stack t = []) {users : List (Obj Key)}
    (husers : ∀ o ∈ users, s.Live o) {l : List (Frame Key)} (hshape : Shape l)
    (href : ∀ f ∈ l, f.ref = none) (hex : ∀ f ∈ l, f.holdsExclusive = false)
    (hsh : ∀ f ∈ l, f.holdsShared = false)
    (hframes : ∀ f ∈ l, ({ s with users := users }.setStack t l).FrameOk f) :
    Inv ({ s with users := users }.setStack t l) := by
  refine hinv.setStack rfl rfl rfl husers ?_ ?_ ?_ hshape hframes ?_
  · intro f hf o ho
    rw [href f hf] at ho
    cases ho
  · intro f hf hfex
    rw [hex f hf] at hfex
    cases hfex
  · intro f hf hfsh
    rw [hsh f hf] at hfsh
    cases hfsh
  · intro o ho
    rw [h] at ho
    cases ho

/-- References of the callers come and go. -/
theorem Inv.users (hinv : Inv s) (h : s.stack t = []) {users : List (Obj Key)}
    (husers : ∀ o ∈ users, s.Live o) : Inv { s with users := users } := by
  have hidle : Inv ({ s with users := users }.setStack t []) :=
    hinv.idle h husers .idle (by simp) (by simp) (by simp) (by simp)
  have hsame : State.setStack { s with users := users } t [] = { s with users := users } :=
    State.setStack_self h
  rwa [hsame] at hidle

theorem Inv.create (hinv : Inv s) {key : Key} {rest : List (Frame Key)}
    (hf : s.stack t = .missing key :: rest) :
    Inv ({ s with next := s.next + 1 }.setStack t (.created ⟨key, s.next⟩ :: rest)) := by
  obtain rfl := hinv.rest_eq_nil hf (by simp)
  have hmem : .missing key ∈ s.stack t := hf ▸ List.mem_cons_self
  have hex : s.HoldsExclusive t := ⟨_, hmem, rfl⟩
  have hnone : ∀ o, s.Live o → o.key ≠ key := hinv.frames t _ hmem
  have hchange : Change t s
      ({ s with next := s.next + 1 }.setStack t [.created ⟨key, s.next⟩]) := by
    refine change_setStack rfl (Nat.le_succ _) (fun o ho => Or.inl ho)
      (List.forall_mem_singleton.mpr ?_) (Or.inl rfl)
      (List.forall_mem_singleton.mpr fun _ => Or.inl hex) (List.forall_mem_singleton.mpr nofun)
    intro o ho
    cases ho
    exact Or.inr ⟨hex, le_rfl, Nat.lt_succ_self _⟩
  -- the new object is the only one that has come alive
  have hlive : ∀ o, ({ s with next := s.next + 1 }.setStack t
      [.created ⟨key, s.next⟩]).Live o → s.Live o ∨ o = ⟨key, s.next⟩ := by
    intro o ho
    rcases State.live_setStack ho with h | ⟨g, hg, hr⟩ | ⟨u, -, g, hg, hr⟩
    · exact Or.inl (Or.inl h)
    · rw [List.mem_singleton.mp hg] at hr
      exact Or.inr (Option.some.inj hr).symm
    · exact Or.inl (State.live_of_mem hg hr)
  refine hchange.inv hinv ?_ ?_ ?_
  · rw [State.setStack_stack_self]
    exact .single _
  · rw [State.setStack_stack_self]
    refine List.forall_mem_singleton.mpr ?_
    intro o ho hkey
    exact (hlive o ho).resolve_left fun hold => hnone o hold hkey
  · intro o ho
    rcases hlive o ho with hold | rfl
    · rcases hinv.table o hold with htable | ⟨u, hu⟩
      · exact Or.inl htable
      · exact absurd (hinv.created_eq hf rfl hu) (by simp)
    · exact Or.inr ⟨t, by simp⟩

/-- The temporary reference of a deleter is dropped. -/
theorem Inv.dropTemp (hinv : Inv s) {p q : Obj Key} {rest l : List (Frame Key)}
    (hf : s.stack t = .deleterDecided p (some q) :: rest)
    (hl : l = [] ∨ l = [.deleter q] ∧ ¬ (s.setStack t (.deleterDone p :: rest)).Live q) :
    Inv (s.setStack t (l ++ .deleterDone p :: rest)) := by
  obtain rfl := hinv.rest_eq_nil hf (by simp)
  have hmem : .deleterDecided p (some q) ∈ s.stack t := hf ▸ List.mem_cons_self
  have hex : s.HoldsExclusive t := ⟨_, hmem, rfl⟩
  have hq : s.Live q := State.live_of_mem hmem rfl
  have hdead : s.Dead p := hinv.frames t _ hmem
  have hnot := hinv.not_created hf (by simp)
  have hdone : ∀ l' : List (Frame Key), (∀ f ∈ l', f.ref = none) →
      (s.setStack t l').Dead p := by
    intro l' hl'
    refine ⟨hdead.1, ?_⟩
    intro hlive
    rcases State.live_setStack hlive with h | ⟨g, hg, hr⟩ | ⟨u, -, g, hg, hr⟩
    · exact hdead.2 (Or.inl h)
    · rw [hl' g hg] at hr
      cases hr
    · exact hdead.2 (State.live_of_mem hg hr)
  rcases hl with rfl | ⟨rfl, hlast⟩
  · exact hinv.setStack rfl rfl rfl (fun o ho => Or.inl ho) (List.forall_mem_singleton.mpr nofun)
      (List.forall_mem_singleton.mpr fun _ => Or.inl hex) (List.forall_mem_singleton.mpr nofun)
      (.single _) (List.forall_mem_singleton.mpr (hdone _ (by simp [Frame.ref]))) hnot
  · refine hinv.setStack rfl rfl rfl (fun o ho => Or.inl ho) (by simp [Frame.ref])
      (fun _ _ _ => Or.inl hex) (by simp [Frame.holdsShared]) (.nested q p) ?_ hnot
    intro f hmemf
    rcases List.mem_cons.mp hmemf with rfl | hmemf
    · refine ⟨hinv.fresh q hq, ?_⟩
      intro hlive
      refine hlast ?_
      rcases State.live_setStack hlive with h | ⟨g, hg, hr⟩ | ⟨u, hu, g, hg, hr⟩
      · exact Or.inl h
      · simp at hg
        rcases hg with rfl | rfl
        · cases hr
        · cases hr
      · refine Or.inr ⟨u, g, ?_, hr⟩
        rwa [State.setStack_stack_of_ne _ _ hu]
    · rw [List.mem_singleton.mp hmemf]
      exact hdone _ (by simp [Frame.ref])

end Calls

section Table

variable [DecidableEq Tid] [DecidableEq Key] {s : State Tid Key} {t : Tid}

theorem Inv.insert (hinv : Inv s) {ret : Obj Key} {rest : List (Frame Key)}
    (hf : s.stack t = .created ret :: rest) :
    Inv ({ s with table := Function.update s.table ret.key (some ret) }.setStack t
      (.ready ret :: rest)) := by
  obtain rfl := hinv.rest_eq_nil hf (by simp)
  have hmem : .created ret ∈ s.stack t := hf ▸ List.mem_cons_self
  have hex : s.HoldsExclusive t := ⟨_, hmem, rfl⟩
  have honly : ∀ o, s.Live o → o.key = ret.key → o = ret := hinv.frames t _ hmem
  have hret : s.Live ret := State.live_of_mem hmem rfl
  have hchange : Change t s
      ({ s with table := Function.update s.table ret.key (some ret) }.setStack t [.ready ret]) := by
    refine change_setStack rfl le_rfl (fun o ho => Or.inl ho)
      (List.forall_mem_singleton.mpr ?_) (Or.inr hex)
      (List.forall_mem_singleton.mpr fun _ => Or.inl hex) (List.forall_mem_singleton.mpr nofun)
    intro o ho
    cases ho
    exact Or.inl hret
  refine hchange.inv hinv ?_ ?_ ?_
  · rw [State.setStack_stack_self]
    exact .single _
  · rw [State.setStack_stack_self]
    exact List.forall_mem_singleton.mpr trivial
  · intro o ho
    have hold : s.Live o := (hchange.live o ho).resolve_right fun h => by
      have hlt : o.id < s.next := h.2.2
      omega
    refine Or.inl ?_
    by_cases hkey : o.key = ret.key
    · obtain rfl := honly o hold hkey
      exact Function.update_self _ _ _
    · have hne : Function.update s.table ret.key (some ret) o.key = s.table o.key :=
        Function.update_of_ne hkey _ _
      refine hne.trans ?_
      rcases hinv.table o hold with htable | ⟨u, hu⟩
      · exact htable
      · cases hinv.created_eq hf rfl hu
        exact absurd rfl hkey

theorem Inv.erase (hinv : Inv s) {p : Obj Key} {existingRef : Option (Obj Key)}
    {rest : List (Frame Key)} (hf : s.stack t = .deleterUpgraded p existingRef :: rest)
    (hown : existingRef = none ∨ existingRef = some p) :
    Inv ({ s with table := Function.update s.table p.key none }.setStack t
      (.deleterDecided p existingRef :: rest)) := by
  obtain rfl := hinv.rest_eq_nil hf (by simp)
  have hmem : .deleterUpgraded p existingRef ∈ s.stack t := hf ▸ List.mem_cons_self
  have hex : s.HoldsExclusive t := ⟨_, hmem, rfl⟩
  obtain ⟨hdead, hnone⟩ := hinv.frames t _ hmem
  obtain rfl : existingRef = none := by
    rcases hown with h | rfl
    · exact h
    · -- a dead object cannot be upgraded
      exact absurd (State.live_of_mem hmem rfl) hdead.2
  have hchange : Change t s ({ s with table := Function.update s.table p.key none }.setStack t
      [.deleterDecided p none]) :=
    change_setStack rfl le_rfl (fun o ho => Or.inl ho) (List.forall_mem_singleton.mpr nofun)
      (Or.inr hex) (List.forall_mem_singleton.mpr fun _ => Or.inl hex)
      (List.forall_mem_singleton.mpr nofun)
  refine hchange.inv hinv ?_ ?_ ?_
  · rw [State.setStack_stack_self]
    exact .single _
  · rw [State.setStack_stack_self]
    exact List.forall_mem_singleton.mpr (hchange.dead hdead)
  · intro o ho
    have hold : s.Live o := (hchange.live o ho).resolve_right fun h => by
      have hlt : o.id < s.next := h.2.2
      omega
    have hne : Function.update s.table p.key none o.key = s.table o.key :=
      Function.update_of_ne (hnone rfl o hold) _ _
    rcases hinv.table o hold with htable | ⟨u, hu⟩
    · exact Or.inl (hne.trans htable)
    · exact absurd (hinv.created_eq hf rfl hu) (by simp)

end Table

section Run

variable [DecidableEq Tid] [DecidableEq Key] {s s' : State Tid Key} {t : Tid}

/-- Every step keeps the invariant. -/
theorem Inv.step (hinv : Inv s) (h : Step t s s') : Inv s' := by
  cases h with
  | call key createIfMissing h =>
      exact hinv.idle h (fun o ho => Or.inl ho) (.single _) (by simp [Frame.ref])
        (by simp [Frame.holdsExclusive]) (by simp [Frame.holdsShared])
        (List.forall_mem_singleton.mpr trivial)
  | move h hmove => exact hinv.move h hmove
  | create h => exact hinv.create h
  | insert h => exact hinv.insert h
  | @finish ret rest h =>
      obtain rfl := hinv.rest_eq_nil h (by simp)
      refine hinv.setStack rfl rfl rfl ?_ (by simp) (by simp) (by simp) .idle (by simp)
        (hinv.not_created h (by simp))
      intro o ho
      rcases List.mem_append.mp ho with hret | hold
      · refine State.live_of_mem (h ▸ List.mem_cons_self) ?_
        rwa [Option.mem_toList] at hret
      · exact Or.inl hold
  | @copy o h ho =>
      refine hinv.users h ?_
      intro o' ho'
      rcases List.mem_cons.mp ho' with rfl | hold
      · exact Or.inl ho
      · exact Or.inl hold
  | drop h ho hlive => exact hinv.users h fun o' ho' => Or.inl (List.mem_of_mem_erase ho')
  | @dropLast o h ho hlast =>
      refine hinv.idle h (fun o' ho' => Or.inl (List.mem_of_mem_erase ho')) (.single _)
        (by simp [Frame.ref]) (by simp [Frame.holdsExclusive]) (by simp [Frame.holdsShared])
        (List.forall_mem_singleton.mpr ⟨hinv.fresh o (Or.inl ho), ?_⟩)
      intro hlive
      refine hlast ?_
      rcases State.live_setStack hlive with husers | ⟨g, hg, hr⟩ | ⟨u, -, g, hg, hr⟩
      · exact Or.inl husers
      · rw [List.mem_singleton.mp hg] at hr
        cases hr
      · exact Or.inr ⟨u, g, hg, hr⟩
  | erase h hown => exact hinv.erase h hown
  | dropTemp h hlive => exact hinv.dropTemp h (Or.inl rfl)
  | dropTempLast h hlast => exact hinv.dropTemp h (Or.inr ⟨rfl, hlast⟩)
  | unlockDeleter h =>
      obtain rfl := hinv.rest_eq_nil h (by simp)
      exact hinv.setStack rfl rfl rfl (fun o ho => Or.inl ho) (by simp) (by simp) (by simp) .idle
        (by simp) (hinv.not_created h (by simp))

/-- The invariant holds in all runs. -/
theorem Inv.reachable (h : Reachable Initial AnyStep s) : Inv s := by
  refine h.invariant ?_ ?_
  · rintro s rfl
    exact Inv.initial
  · rintro s s' hinv ⟨t, hstep⟩
    exact hinv.step hstep

end Run

end ThreadSafeHashTable
end Shulcrum
