import Mathlib.Data.List.Sort
import Mathlib.Tactic

/-!
# Sorting and removing neighbours that are equal

The pair of calls `std::sort` and `std::unique`: a list is sorted by an order
`le` and of every run of equal neighbours one element is kept.

**Results.**
* `mem_sortUnique`, `pairwise_sortUnique`: the result has the same elements and
  is strictly increasing; `strict_sort` is the case without repetitions.
* `eq_of_strict`: a strictly increasing list is determined by its elements.
-/

namespace Shulcrum
namespace SortUnique

universe u

variable {α : Type u}

/-- Keep one element of every run of equal neighbours. -/
def unique [DecidableEq α] : List α → List α
  | [] => []
  | [a] => [a]
  | a :: b :: l => if a = b then unique (b :: l) else a :: unique (b :: l)

/-- Sort by `le`. -/
def sort (le : α → α → Bool) (l : List α) : List α :=
  l.insertionSort fun a b => le a b = true

/-- Sort by `le` and remove equal neighbours. -/
def sortUnique [DecidableEq α] (le : α → α → Bool) (l : List α) : List α :=
  unique (sort le l)

@[simp] theorem mem_unique [DecidableEq α] {a : α} {l : List α} : a ∈ unique l ↔ a ∈ l := by
  induction l using unique.induct with
  | case1 => rfl
  | case2 b => rfl
  | case3 b l ih =>
      rw [unique, if_pos rfl, ih]
      simp
  | case4 b c l hbc ih =>
      rw [unique, if_neg hbc, List.mem_cons, ih]
      simp

theorem pairwise_unique [DecidableEq α] {le : α → α → Prop}
    (hanti : ∀ a b, le a b → le b a → a = b) {l : List α} (h : l.Pairwise le) :
    (unique l).Pairwise fun a b => le a b ∧ a ≠ b := by
  induction l using unique.induct with
  | case1 => simp [unique]
  | case2 b => simp [unique]
  | case3 b l ih =>
      rw [unique, if_pos rfl]
      exact ih (List.pairwise_cons.mp h).2
  | case4 b c l hbc ih =>
      obtain ⟨hhead, htail⟩ := List.pairwise_cons.mp h
      rw [unique, if_neg hbc, List.pairwise_cons]
      refine ⟨?_, ih htail⟩
      intro x hx
      rw [mem_unique] at hx
      refine ⟨hhead x hx, ?_⟩
      rintro rfl
      -- the head would also come after its right neighbour
      rcases List.mem_cons.mp hx with rfl | hxl
      · exact hbc rfl
      · have hcb := (List.pairwise_cons.mp htail).1 b hxl
        exact hbc (hanti b c (hhead c (by simp)) hcb)

@[simp] theorem mem_sort {le : α → α → Bool} {a : α} {l : List α} : a ∈ sort le l ↔ a ∈ l :=
  (List.perm_insertionSort _ l).mem_iff

@[simp] theorem mem_sortUnique [DecidableEq α] {le : α → α → Bool} {a : α} {l : List α} :
    a ∈ sortUnique le l ↔ a ∈ l := by
  simp [sortUnique]

/-- The order laws of a Boolean comparison. -/
structure IsOrder (le : α → α → Bool) : Prop where
  trans : ∀ a b c, le a b = true → le b c = true → le a c = true
  total : ∀ a b, (le a b || le b a) = true
  antisymm : ∀ a b, le a b = true → le b a = true → a = b

theorem pairwise_sort {le : α → α → Bool} (hle : IsOrder le) (l : List α) :
    (sort le l).Pairwise fun a b => le a b = true := by
  have : Std.Total fun a b : α => le a b = true :=
    ⟨fun a b => by simpa using hle.total a b⟩
  have : IsTrans α fun a b : α => le a b = true := ⟨hle.trans⟩
  exact List.pairwise_insertionSort _ l

theorem pairwise_sortUnique [DecidableEq α] {le : α → α → Bool} (hle : IsOrder le) (l : List α) :
    (sortUnique le l).Pairwise fun a b => le a b = true ∧ a ≠ b :=
  pairwise_unique hle.antisymm (pairwise_sort hle l)

/-- Sorting a list without repetitions. -/
theorem strict_sort {le : α → α → Bool} (hle : IsOrder le) {l : List α} (h : l.Nodup) :
    (sort le l).Pairwise fun a b => le a b = true ∧ a ≠ b :=
  (pairwise_sort hle l).and ((List.perm_insertionSort _ l).nodup_iff.mpr h)

theorem nodup_of_strict {le : α → α → Prop} {l : List α}
    (h : l.Pairwise fun a b => le a b ∧ a ≠ b) : l.Nodup :=
  h.imp fun hab => hab.2

/-- A strictly increasing list is determined by its elements. -/
theorem eq_of_strict {le : α → α → Bool} (hle : IsOrder le) {l₁ l₂ : List α}
    (h₁ : l₁.Pairwise fun a b => le a b = true ∧ a ≠ b)
    (h₂ : l₂.Pairwise fun a b => le a b = true ∧ a ≠ b) (hmem : ∀ a, a ∈ l₁ ↔ a ∈ l₂) :
    l₁ = l₂ := by
  have hperm : l₁.Perm l₂ :=
    (List.perm_ext_iff_of_nodup (nodup_of_strict h₁) (nodup_of_strict h₂)).mpr hmem
  refine hperm.eq_of_pairwise ?_ h₁ h₂
  intro a b _ _ hab hba
  exact hle.antisymm a b hab.1 hba.1

end SortUnique
end Shulcrum
