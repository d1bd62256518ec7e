import Mathlib.Data.List.Perm.Subperm
import Mathlib.Logic.Relation
import Mathlib.Tactic

/-!
# Closing a set with a work queue

A set is closed under a successor function by a queue of elements whose
successors have not been looked at yet.  Each round takes an element from the
queue and adds those of its successors that are not in the set to both.

**Results.**
* `grow_total`: with enough fuel the loop ends; every element is queued once.
* `mem_grow`: the result is the set of all elements reachable from the start.
-/

namespace Shulcrum
namespace Worklist

universe u

variable {α : Type u} [DecidableEq α]

/-- The loop, with the elements found so far in `seen`. -/
def grow (succ : α → List α) : Nat → List α → List α → Option (List α)
  | _, [], seen => some seen
  | 0, _ :: _, _ => none
  | fuel + 1, a :: queue, seen =>
      let added := (succ a).filter fun b => b ∉ seen
      grow succ fuel (queue ++ added) (seen ++ added)

variable {succ : α → List α}

/-- Elements added without repetitions are no longer missing. -/
theorem length_filter_append {U added seen : List α} (hnodup : added.Nodup)
    (hU : ∀ a ∈ added, a ∈ U) (hseen : ∀ a ∈ added, a ∉ seen) :
    (U.filter fun a => a ∉ seen ++ added).length + added.length ≤
      (U.filter fun a => a ∉ seen).length := by
  have hsplit := List.length_eq_length_filter_add
    (l := U.filter fun a => a ∉ seen) fun a => decide (a ∈ added)
  have hle : added.length ≤ ((U.filter fun a => a ∉ seen).filter fun a => a ∈ added).length := by
    refine (List.subperm_of_subset hnodup fun a ha => ?_).length_le
    simp [hU a ha, hseen a ha, ha]
  have heq : (U.filter fun a => a ∉ seen ++ added) =
      (U.filter fun a => a ∉ seen).filter fun a => !decide (a ∈ added) := by
    rw [List.filter_filter]
    refine List.filter_congr fun a _ => ?_
    simp [and_comm]
  rw [heq]
  omega

/-- Every round takes one element from the queue, and each element is queued once. -/
theorem grow_total (hnodup : ∀ a, (succ a).Nodup) {U : List α} (hU : ∀ a, ∀ b ∈ succ a, b ∈ U)
    {fuel : Nat} {queue seen : List α}
    (hfuel : queue.length + (U.filter fun a => a ∉ seen).length ≤ fuel) :
    ∃ res, grow succ fuel queue seen = some res := by
  induction fuel generalizing queue seen with
  | zero =>
      cases queue with
      | nil => exact ⟨seen, rfl⟩
      | cons a queue => simp at hfuel
  | succ fuel ih =>
      cases queue with
      | nil => exact ⟨seen, rfl⟩
      | cons a queue =>
          refine ih ?_
          have hadded : ((succ a).filter fun b => b ∉ seen).Nodup := (hnodup a).filter _
          have hlen := length_filter_append hadded
            (fun b hb => hU a b (List.mem_filter.mp hb).1)
            (fun b hb => by simpa using (List.mem_filter.mp hb).2)
          rw [List.length_cons] at hfuel
          rw [List.length_append]
          omega

/-- The loop invariant gives the closure at the end. -/
theorem mem_of_grow {start : List α} {fuel : Nat} {queue seen res : List α}
    (hstart : start ⊆ seen)
    (hreach : ∀ a ∈ seen, ∃ s ∈ start, Relation.ReflTransGen (fun a b => b ∈ succ a) s a)
    (hqueue : queue ⊆ seen) (hdone : ∀ a ∈ seen, a ∉ queue → succ a ⊆ seen)
    (hres : grow succ fuel queue seen = some res) (a : α) :
    a ∈ res ↔ ∃ s ∈ start, Relation.ReflTransGen (fun a b => b ∈ succ a) s a := by
  induction fuel, queue, seen using grow.induct succ with
  | case1 fuel seen =>
      rw [grow, Option.some.injEq] at hres
      subst hres
      refine ⟨hreach a, ?_⟩
      rintro ⟨s, hs, hsa⟩
      induction hsa with
      | refl => exact hstart hs
      | tail _ hbc ih => exact hdone _ ih (by simp) hbc
  | case2 b queue seen => simp [grow] at hres
  | case3 fuel b queue seen added ih =>
      rw [grow] at hres
      refine ih ?_ ?_ ?_ ?_ hres
      · exact fun s hs => List.mem_append_left _ (hstart hs)
      · intro c hc
        rcases List.mem_append.mp hc with hc | hc
        · exact hreach c hc
        · obtain ⟨s, hs, hsb⟩ := hreach b (hqueue (by simp))
          exact ⟨s, hs, hsb.tail (List.mem_filter.mp hc).1⟩
      · intro c hc
        rcases List.mem_append.mp hc with hc | hc
        · exact List.mem_append_left _ (hqueue (by simp [hc]))
        · exact List.mem_append_right _ hc
      · intro c hc hcq d hd
        rw [List.mem_append, not_or] at hcq
        have hcseen : c ∈ seen := (List.mem_append.mp hc).resolve_right hcq.2
        by_cases hdseen : d ∈ seen
        · exact List.mem_append_left _ hdseen
        · -- only the element just taken from the queue has successors not seen yet
          have hcb : c = b := by
            by_contra hne
            exact hdseen (hdone c hcseen (by simp [hne, hcq.1]) hd)
          subst hcb
          exact List.mem_append_right _ (by simp [added, hd, hdseen])

/-- The closure of a list contains what is reachable from its elements. -/
theorem mem_grow {fuel : Nat} {start res : List α} (hres : grow succ fuel start start = some res)
    (a : α) :
    a ∈ res ↔ ∃ s ∈ start, Relation.ReflTransGen (fun a b => b ∈ succ a) s a :=
  mem_of_grow (fun _ h => h) (fun s hs => ⟨s, hs, .refl⟩) (fun _ h => h)
    (fun _ h hn => absurd h hn) hres a

end Worklist
end Shulcrum
