import Mathlib.Logic.Relation

/-!
# Runs and invariants of transition systems

A transition system is given by the states it may start in and a step
relation.  An invariant holds initially and is kept by every step, so that it
holds in every reachable state.

**Results.**
* `Reachable.invariant`: the induction rule for whole runs.
* `Reachable.mono`: runs of a system with more steps.
-/

namespace Shulcrum
namespace Invariant

universe u

variable {σ : Type u} {init : σ → Prop} {step : σ → σ → Prop}

/-- The states of all finite runs. -/
inductive Reachable (init : σ → Prop) (step : σ → σ → Prop) : σ → Prop
  | start {s : σ} : init s → Reachable init step s
  | next {s t : σ} : Reachable init step s → step s t → Reachable init step t

/-- What holds initially and is kept by every step holds in every run. -/
theorem Reachable.invariant {I : σ → Prop} (hinit : ∀ s, init s → I s)
    (hstep : ∀ s t, I s → step s t → I t) {s : σ} (h : Reachable init step s) : I s := by
  induction h with
  | start h => exact hinit _ h
  | next _ hst ih => exact hstep _ _ ih hst

/-- A run is a run of every system with more steps. -/
theorem Reachable.mono {step' : σ → σ → Prop} (hstep : ∀ s t, step s t → step' s t) {s : σ}
    (h : Reachable init step s) : Reachable init step' s := by
  induction h with
  | start h => exact .start h
  | next _ hst ih => exact .next ih (hstep _ _ hst)

end Invariant
end Shulcrum
