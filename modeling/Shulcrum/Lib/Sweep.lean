import Mathlib.Tactic
import Shulcrum.Lib.TreeMap

/-!
# Sweeping out what depends on a mark

Items are kept in a list and have a key each.  A sweep goes through the list
once; an item that depends on a marked key is taken out and its own key is
marked, so that the items after it already see the new mark.  Sweeps are
repeated until one of them marks nothing new.

**Results.**
* `sweeps_total`: every sweep but the last takes out an item, so the loop ends.
* `mem_sweeps`: the items left are those that do not depend on a mark through
  items of the list, whatever the order of the list.
-/

namespace Shulcrum
namespace Sweep

open TreeMap

universe u v

variable {α : Type u} {κ : Type v} [Ord κ] [Std.TransOrd κ] [Std.LawfulEqOrd κ]

/-- A set of keys. -/
abbrev Marks (κ : Type v) [Ord κ] := Std.ExtTreeSet κ compare

section Defs

variable (key : α → κ) (deps : α → List κ) (extra : κ → Bool)

/-- The item depends on a marked key, or on one of the `extra` keys. -/
def dependsOn (marks : Marks κ) (x : α) : Bool :=
  (deps x).any fun k => decide (k ∈ marks) || extra k

/-- One sweep: the items left and the marks after it. -/
def sweep : List α → Marks κ → List α × Marks κ
  | [], marks => ([], marks)
  | x :: xs, marks =>
      if dependsOn deps extra marks x then sweep xs (marks.insert (key x))
      else
        let r := sweep xs marks
        (x :: r.1, r.2)

/-- Sweep until the number of marks stays the same. -/
def sweeps : Nat → List α → Marks κ → Option (List α × Marks κ)
  | 0, _, _ => none
  | fuel + 1, xs, marks =>
      let r := sweep key deps extra xs marks
      if r.2.size = marks.size then some r else sweeps fuel r.1 r.2

/-- An item of the list that depends on a start key, through other items of the list. -/
inductive Tainted (start : κ → Prop) (xs : List α) : α → Prop
  | start {x : α} {k : κ} : x ∈ xs → k ∈ deps x → start k → Tainted start xs x
  | through {x y : α} : x ∈ xs → key y ∈ deps x → Tainted start xs y → Tainted start xs x

end Defs

variable {key : α → κ} {deps : α → List κ} {extra : κ → Bool}

omit [Std.LawfulEqOrd κ] in
theorem dependsOn_iff {marks : Marks κ} {x : α} :
    dependsOn deps extra marks x = true ↔ ∃ k ∈ deps x, k ∈ marks ∨ extra k = true := by
  simp [dependsOn]

omit [Std.LawfulEqOrd κ] in
theorem dependsOn_mono {marks marks' : Marks κ} (h : ∀ k ∈ marks, k ∈ marks') {x : α}
    (hx : dependsOn deps extra marks' x = false) : dependsOn deps extra marks x = false := by
  rw [← Bool.not_eq_true, dependsOn_iff] at hx ⊢
  rintro ⟨k, hk, hm⟩
  exact hx ⟨k, hk, hm.imp (h k) id⟩

/-! ## One sweep -/

theorem subset_marks_sweep (xs : List α) (marks : Marks κ) :
    ∀ k ∈ marks, k ∈ (sweep key deps extra xs marks).2 := by
  induction xs generalizing marks with
  | nil => exact fun k hk => hk
  | cons x xs ih =>
      intro k hk
      rw [sweep]
      split_ifs
      · exact ih _ k (mem_set_insert.mpr (.inr hk))
      · exact ih _ k hk

omit [Std.LawfulEqOrd κ] in
theorem sweep_sublist (xs : List α) (marks : Marks κ) :
    (sweep key deps extra xs marks).1.Sublist xs := by
  induction xs generalizing marks with
  | nil => exact .slnil
  | cons x xs ih =>
      rw [sweep]
      split_ifs
      · exact (ih _).cons x
      · exact (ih _).cons_cons x

/-- An item is left only if it does not depend on the marks the sweep started with. -/
theorem dependsOn_of_mem_sweep {xs : List α} {marks : Marks κ} {x : α}
    (hx : x ∈ (sweep key deps extra xs marks).1) : dependsOn deps extra marks x = false := by
  induction xs generalizing marks with
  | nil => cases hx
  | cons y xs ih =>
      rw [sweep] at hx
      split_ifs at hx with hdep
      · exact dependsOn_mono (fun k hk => mem_set_insert.mpr (.inr hk)) (ih hx)
      · rcases List.mem_cons.mp hx with rfl | hx
        · exact Bool.not_eq_true _ ▸ hdep
        · exact ih hx

/-- A sweep that takes nothing out marks nothing. -/
theorem marks_sweep_eq {xs : List α} {marks : Marks κ}
    (h : (sweep key deps extra xs marks).1.length = xs.length) :
    (sweep key deps extra xs marks).2 = marks := by
  induction xs generalizing marks with
  | nil => rfl
  | cons x xs ih =>
      rw [sweep] at h ⊢
      split_ifs at h ⊢ with hdep
      · have hle : (sweep key deps extra xs (marks.insert (key x))).1.length ≤ xs.length :=
          (sweep_sublist xs _).length_le
        rw [List.length_cons] at h
        omega
      · exact ih (by simpa using h)

/-- A sweep that marks something takes out an item. -/
theorem length_sweep_lt {xs : List α} {marks : Marks κ}
    (h : (sweep key deps extra xs marks).2.size ≠ marks.size) :
    (sweep key deps extra xs marks).1.length < xs.length := by
  refine lt_of_le_of_ne (sweep_sublist xs marks).length_le fun heq => h ?_
  rw [marks_sweep_eq heq]

/-! ## The loop -/

theorem sweeps_total {fuel : Nat} {xs : List α} {marks : Marks κ} (hfuel : xs.length < fuel) :
    ∃ r, sweeps key deps extra fuel xs marks = some r := by
  induction fuel generalizing xs marks with
  | zero => omega
  | succ fuel ih =>
      rw [sweeps]
      split_ifs with hsize
      · exact ⟨_, rfl⟩
      · have hlt := length_sweep_lt hsize
        exact ih (by omega)

/-- Marks that only grew and have the same number are the same. -/
theorem eq_of_size_eq {marks marks' : Marks κ} (h : ∀ k ∈ marks, k ∈ marks')
    (hsize : marks'.size = marks.size) : marks' = marks := by
  have hperm : marks.toList.Perm marks'.toList := by
    refine (List.subperm_of_subset (nodup_set_toList marks) ?_).perm_of_length_le ?_
    · intro k hk
      rw [Std.ExtTreeSet.mem_toList] at hk ⊢
      exact h k hk
    · rw [Std.ExtTreeSet.length_toList, Std.ExtTreeSet.length_toList, hsize]
  apply Std.ExtTreeSet.ext_mem
  intro k
  rw [← Std.ExtTreeSet.mem_toList, ← Std.ExtTreeSet.mem_toList, hperm.mem_iff]

section Loop

variable (key deps extra) (start : κ → Prop) (xs₀ : List α)

/-- Every mark is a start key or the key of a tainted item. -/
def Sound (marks : Marks κ) : Prop :=
  ∀ k, k ∈ marks ∨ extra k = true → start k ∨ ∃ x, Tainted key deps start xs₀ x ∧ key x = k

/-- An item is still in the list, or it is tainted and its key is marked. -/
def Settled (xs : List α) (marks : Marks κ) (x : α) : Prop :=
  x ∈ xs ∨ (Tainted key deps start xs₀ x ∧ key x ∈ marks)

variable {key deps extra start xs₀}

omit [Std.LawfulEqOrd κ] in
theorem Sound.tainted {marks : Marks κ} (h : Sound key deps extra start xs₀ marks) {x : α}
    (hx : x ∈ xs₀) (hdep : dependsOn deps extra marks x = true) :
    Tainted key deps start xs₀ x := by
  obtain ⟨k, hk, hm⟩ := dependsOn_iff.mp hdep
  rcases h k hm with hs | ⟨y, hy, rfl⟩
  · exact .start hx hk hs
  · exact .through hx hk hy

theorem Sound.sweep {xs : List α} {marks : Marks κ} (h : Sound key deps extra start xs₀ marks)
    (hxs : ∀ x ∈ xs, x ∈ xs₀) :
    Sound key deps extra start xs₀ (sweep key deps extra xs marks).2 ∧
      ∀ x ∈ xs, Settled key deps start xs₀ (Sweep.sweep key deps extra xs marks).1
        (Sweep.sweep key deps extra xs marks).2 x := by
  induction xs generalizing marks with
  | nil =>
      refine ⟨h, ?_⟩
      intro x hx
      cases hx
  | cons x xs ih =>
      rw [Sweep.sweep]
      have hrest : ∀ y ∈ xs, y ∈ xs₀ := fun y hy => hxs y (List.mem_cons_of_mem _ hy)
      split_ifs with hdep
      · have htaint := h.tainted (hxs x List.mem_cons_self) hdep
        have hsound : Sound key deps extra start xs₀ (marks.insert (key x)) := by
          rintro k (hk | hk)
          · rcases mem_set_insert.mp hk with rfl | hk
            · exact .inr ⟨x, htaint, rfl⟩
            · exact h k (.inl hk)
          · exact h k (.inr hk)
        obtain ⟨hsound', hsettled⟩ := ih hsound hrest
        refine ⟨hsound', ?_⟩
        intro y hy
        rcases List.mem_cons.mp hy with rfl | hy
        · exact .inr ⟨htaint, subset_marks_sweep _ _ _ (mem_set_insert.mpr (.inl rfl))⟩
        · exact hsettled y hy
      · obtain ⟨hsound', hsettled⟩ := ih h hrest
        refine ⟨hsound', ?_⟩
        intro y hy
        rcases List.mem_cons.mp hy with rfl | hy
        · exact .inl List.mem_cons_self
        · exact (hsettled y hy).imp_left (List.mem_cons_of_mem _)

/-- What the loop leaves, from any of its rounds on. -/
theorem sweeps_settled {fuel : Nat} {xs : List α} {marks : Marks κ} {r : List α × Marks κ}
    (hsound : Sound key deps extra start xs₀ marks) (hxs : ∀ x ∈ xs, x ∈ xs₀)
    (hset : ∀ x ∈ xs₀, Settled key deps start xs₀ xs marks x)
    (hr : sweeps key deps extra fuel xs marks = some r) :
    (∀ k ∈ marks, k ∈ r.2) ∧ Sound key deps extra start xs₀ r.2 ∧
      (∀ x ∈ xs₀, Settled key deps start xs₀ r.1 r.2 x) ∧ r.1.Sublist xs ∧
      ∀ x ∈ r.1, dependsOn deps extra r.2 x = false := by
  induction fuel generalizing xs marks with
  | zero => cases hr
  | succ fuel ih =>
      rw [sweeps] at hr
      have hmono : ∀ k ∈ marks, k ∈ (Sweep.sweep key deps extra xs marks).2 :=
        subset_marks_sweep xs marks
      have hsub : (Sweep.sweep key deps extra xs marks).1.Sublist xs := sweep_sublist xs marks
      obtain ⟨hsound', hsettled⟩ := hsound.sweep hxs
      have hset' : ∀ x ∈ xs₀, Settled key deps start xs₀ (Sweep.sweep key deps extra xs marks).1
          (Sweep.sweep key deps extra xs marks).2 x := by
        intro x hx
        rcases hset x hx with hx | ⟨htaint, hm⟩
        · exact hsettled x hx
        · exact .inr ⟨htaint, hmono _ hm⟩
      split_ifs at hr with hsize
      · cases hr
        refine ⟨hmono, hsound', hset', hsub, ?_⟩
        intro x hx
        rw [eq_of_size_eq hmono hsize]
        exact dependsOn_of_mem_sweep hx
      · obtain ⟨hmono', hrest⟩ := ih hsound' (fun x hx => hxs x (hsub.subset hx)) hset' hr
        obtain ⟨hs, hse, hsub', hdep⟩ := hrest
        exact ⟨fun k hk => hmono' k (hmono k hk), hs, hse, hsub'.trans hsub, hdep⟩

end Loop

/-- The items left are those that are not tainted, in the order of the list. -/
theorem mem_sweeps {fuel : Nat} {xs : List α} {marks : Marks κ} {r : List α × Marks κ}
    (hr : sweeps key deps extra fuel xs marks = some r) :
    r.1.Sublist xs ∧ ∀ x, x ∈ r.1 ↔
      x ∈ xs ∧ ¬ Tainted key deps (fun k => k ∈ marks ∨ extra k = true) xs x := by
  have hsound : Sound key deps extra (fun k => k ∈ marks ∨ extra k = true) xs marks :=
    fun k hk => .inl hk
  obtain ⟨hmono, -, hset, hsub, hdep⟩ :=
    sweeps_settled hsound (fun _ h => h) (fun _ h => .inl h) hr
  -- a tainted item depends on a mark of the end, so it is not left
  have hout : ∀ x, Tainted key deps (fun k => k ∈ marks ∨ extra k = true) xs x →
      x ∉ r.1 ∧ key x ∈ r.2 := by
    intro x hx
    have hstep : ∀ y ∈ xs, dependsOn deps extra r.2 y = true → y ∉ r.1 ∧ key y ∈ r.2 := by
      intro y hy hyes
      have hnot : y ∉ r.1 := by
        intro hmem
        rw [hdep y hmem] at hyes
        cases hyes
      exact ⟨hnot, ((hset y hy).resolve_left hnot).2⟩
    induction hx with
    | start hx hk hs => exact hstep _ hx (dependsOn_iff.mpr ⟨_, hk, hs.imp (hmono _) id⟩)
    | through hx hk _ ih => exact hstep _ hx (dependsOn_iff.mpr ⟨_, hk, .inl ih.2⟩)
  refine ⟨hsub, fun x => ⟨fun hx => ⟨hsub.subset hx, fun ht => (hout x ht).1 hx⟩, ?_⟩⟩
  rintro ⟨hx, hnot⟩
  exact (hset x hx).resolve_right fun h => hnot h.1

end Sweep
end Shulcrum
