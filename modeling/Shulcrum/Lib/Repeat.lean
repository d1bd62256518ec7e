import Mathlib.Order.Basic

/-!
# Repeating a pass until it changes nothing

A pass over a state returns the number of changes it made.  It is repeated
until that number is zero.  If every change is one of finitely many that can
still be made, the repetition ends in a state that a further pass leaves as it
is.

**Results.**
* `untilZero_spec`: the last pass is one that made no change.
-/

namespace Shulcrum
namespace Repeat

universe u

variable {σ : Type u}

/-- Repeat a pass until it makes no change, at most `fuel` times. -/
def untilZero (pass : σ → Nat × σ) : Nat → σ → σ
  | 0, s => s
  | fuel + 1, s => if (pass s).1 = 0 then (pass s).2 else untilZero pass fuel (pass s).2

variable {pass : σ → Nat × σ}

/-- With more fuel than changes that can be made the last pass makes none. -/
theorem untilZero_spec {I : σ → Prop} {m : σ → Nat} (hkeep : ∀ s, I s → I (pass s).2)
    (hcount : ∀ s, I s → (pass s).1 + m (pass s).2 = m s) {fuel : Nat} {s : σ}
    (hfuel : m s < fuel) (hs : I s) :
    ∃ t, I t ∧ (pass t).1 = 0 ∧ untilZero pass fuel s = (pass t).2 := by
  induction fuel generalizing s with
  | zero => exact absurd hfuel (Nat.not_lt_zero _)
  | succ fuel ih =>
      by_cases hzero : (pass s).1 = 0
      · exact ⟨s, hs, hzero, if_pos hzero⟩
      · have hless : m (pass s).2 < fuel := by
          have := hcount s hs
          omega
        obtain ⟨t, ht, hlast, heq⟩ := ih hless (hkeep s hs)
        refine ⟨t, ht, hlast, ?_⟩
        rw [← heq]
        exact if_neg hzero

end Repeat
end Shulcrum
