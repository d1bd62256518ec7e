import Mathlib.Tactic

/-!
# Binary search for a boundary

A search over positions keeps the first position and the number of positions
that are left, and halves the number.  It needs only the answers of a test; on
a sequence where no position that passes the test follows one that fails it,
the search ends at the boundary.

**Results.**
* `lowerBound_bounds`: the result lies in the range, whatever the test is.
* `lowerBound_congr`: it depends on the test inside the range only.
* `lt_lowerBound_iff`: the positions before the result are those that pass.
-/

namespace Shulcrum
namespace LowerBound

/-- The search over `len` positions from `first` on. -/
def lowerBound (before : Nat → Bool) (first len : Nat) : Nat :=
  if len = 0 then first
  else
    let half := len / 2
    if before (first + half) then lowerBound before (first + half + 1) (len - half - 1)
    else lowerBound before first half
termination_by len

section Search

variable {before before' : Nat → Bool} {first len : Nat}

theorem lowerBound_zero : lowerBound before first 0 = first := by
  rw [lowerBound, if_pos rfl]

theorem lowerBound_right (hlen : len ≠ 0) (h : before (first + len / 2) = true) :
    lowerBound before first len =
      lowerBound before (first + len / 2 + 1) (len - len / 2 - 1) := by
  rw [lowerBound, if_neg hlen]
  exact if_pos h

theorem lowerBound_left (hlen : len ≠ 0) (h : ¬ before (first + len / 2) = true) :
    lowerBound before first len = lowerBound before first (len / 2) := by
  rw [lowerBound, if_neg hlen]
  exact if_neg h

/-- The result is a position of the range or its end. -/
theorem lowerBound_bounds (before : Nat → Bool) (first len : Nat) :
    first ≤ lowerBound before first len ∧ lowerBound before first len ≤ first + len := by
  induction len using Nat.strong_induction_on generalizing first with
  | _ len ih =>
      by_cases hlen : len = 0
      · rw [hlen, lowerBound_zero]
        omega
      · by_cases h : before (first + len / 2) = true
        · rw [lowerBound_right hlen h]
          have := ih (len - len / 2 - 1) (by omega) (first + len / 2 + 1)
          omega
        · rw [lowerBound_left hlen h]
          have := ih (len / 2) (by omega) first
          omega

/-- Two tests that agree inside the range lead to one result. -/
theorem lowerBound_congr
    (h : ∀ i, first ≤ i → i < first + len → before i = before' i) :
    lowerBound before first len = lowerBound before' first len := by
  induction len using Nat.strong_induction_on generalizing first with
  | _ len ih =>
      by_cases hlen : len = 0
      · rw [hlen, lowerBound_zero, lowerBound_zero]
      · have hmid := h (first + len / 2) (by omega) (by omega)
        by_cases hb : before (first + len / 2) = true
        · rw [lowerBound_right hlen hb, lowerBound_right hlen (hmid ▸ hb)]
          exact ih _ (by omega) fun i hi hi' => h i (by omega) (by omega)
        · rw [lowerBound_left hlen hb, lowerBound_left hlen (hmid ▸ hb)]
          exact ih _ (by omega) fun i hi hi' => h i hi (by omega)

/-- No position that passes follows one that fails. -/
def Partitioned (before : Nat → Bool) (first len : Nat) : Prop :=
  ∀ i j, first ≤ i → i ≤ j → j < first + len → before j = true → before i = true

/-- The positions before the result are those that pass the test. -/
theorem lt_lowerBound_iff (h : Partitioned before first len) {i : Nat} (hi : first ≤ i)
    (hi' : i < first + len) : i < lowerBound before first len ↔ before i = true := by
  induction len using Nat.strong_induction_on generalizing first with
  | _ len ih =>
      have hlen : len ≠ 0 := by omega
      by_cases hb : before (first + len / 2) = true
      · rw [lowerBound_right hlen hb]
        rcases Nat.lt_or_ge i (first + len / 2 + 1) with hlow | hhigh
        · -- a position up to the middle passes as the middle does
          have hpass := h i (first + len / 2) hi (by omega) (by omega) hb
          have hle := (lowerBound_bounds before (first + len / 2 + 1) (len - len / 2 - 1)).1
          exact iff_of_true (by omega) hpass
        · refine ih _ (by omega) ?_ hhigh (by omega)
          exact fun a b ha hab hb' => h a b (by omega) hab (by omega)
      · rw [lowerBound_left hlen hb]
        rcases Nat.lt_or_ge i (first + len / 2) with hlow | hhigh
        · refine ih _ (by omega) ?_ hi hlow
          exact fun a b ha hab hb' => h a b ha hab (by omega)
        · -- a position from the middle on fails as the middle does
          have hfail : ¬ before i = true := fun hp =>
            hb (h (first + len / 2) i (by omega) hhigh hi' hp)
          have hle := (lowerBound_bounds before first (len / 2)).2
          exact iff_of_false (by omega) hfail

end Search

end LowerBound
end Shulcrum
