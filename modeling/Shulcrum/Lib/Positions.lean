import Mathlib.Data.List.Induction

/-!
# Positions of a list by key

A list is indexed by a key of its elements: the positions of a key are those of
the elements that have it, in ascending order.

**Results.**
* `mem_positions`: which positions these are.
* `positions_append`, `positions_take`: the positions when the list grows or is
  cut.
* `find?_positions`: the first position of an element is the first one of its
  key that holds it.
-/

namespace Shulcrum
namespace Positions

universe u v

variable {α : Type u} {κ : Type v} [DecidableEq κ]

/-- The positions of the elements with the key. -/
def positions (f : α → κ) (k : κ) (l : List α) : List Nat :=
  (l.zipIdx.filter fun e => decide (f e.1 = k)).map Prod.snd

@[simp] theorem positions_nil (f : α → κ) (k : κ) : positions f k [] = [] := rfl

/-- The positions in a longer list. -/
theorem positions_append (f : α → κ) (k : κ) (l l' : List α) :
    positions f k (l ++ l') = positions f k l ++
      ((l'.zipIdx l.length).filter fun e => decide (f e.1 = k)).map Prod.snd := by
  simp only [positions, List.zipIdx_append, List.filter_append, List.map_append, Nat.zero_add]

theorem positions_concat (f : α → κ) (k : κ) (l : List α) (a : α) :
    positions f k (l ++ [a]) = positions f k l ++ if f a = k then [l.length] else [] := by
  rw [positions_append]
  by_cases h : f a = k
  · simp [h]
  · simp [h]

theorem mem_positions {f : α → κ} {k : κ} {l : List α} {n : Nat} :
    n ∈ positions f k l ↔ ∃ a, l[n]? = some a ∧ f a = k := by
  simp only [positions, List.mem_map, List.mem_filter, decide_eq_true_iff]
  constructor
  · rintro ⟨⟨a, i⟩, ⟨hmem, hk⟩, rfl⟩
    exact ⟨a, List.mem_zipIdx_iff_getElem?.mp hmem, hk⟩
  · rintro ⟨a, hget, hk⟩
    exact ⟨(a, n), ⟨List.mem_zipIdx_iff_getElem?.mpr hget, hk⟩, rfl⟩

theorem lt_of_mem_positions {f : α → κ} {k : κ} {l : List α} {n : Nat}
    (h : n ∈ positions f k l) : n < l.length := by
  obtain ⟨a, hget, -⟩ := mem_positions.mp h
  exact (List.getElem?_eq_some_iff.mp hget).1

theorem length_positions_le (f : α → κ) (k : κ) (l : List α) :
    (positions f k l).length ≤ l.length := by
  rw [positions, List.length_map]
  exact Nat.le_trans (List.length_filter_le _ _) (Nat.le_of_eq List.length_zipIdx)

/-- Cutting the list cuts the positions. -/
theorem positions_take (f : α → κ) (k : κ) (l : List α) (m : Nat) :
    positions f k (l.take m) = (positions f k l).filter (· < m) := by
  induction l using List.reverseRecOn with
  | nil => simp
  | append_singleton l a ih =>
      rw [positions_concat, List.filter_append, ← ih]
      by_cases hm : l.length < m
      · rw [List.take_of_length_le (by simp; omega), List.take_of_length_le (by omega),
          positions_concat]
        split_ifs with h
        · simp [hm]
        · rfl
      · have hcut : (l ++ [a]).take m = l.take m := by
          rw [List.take_append_of_le_length (by omega)]
        rw [hcut]
        split_ifs with h
        · simp [hm]
        · simp

theorem find?_congr {l : List α} {p q : α → Bool} (h : ∀ a ∈ l, p a = q a) :
    l.find? p = l.find? q := by
  induction l with
  | nil => rfl
  | cons a l ih =>
      rw [List.find?_cons, List.find?_cons, h a List.mem_cons_self,
        ih fun b hb => h b (List.mem_cons_of_mem a hb)]

variable [DecidableEq α]

/-- The first position of an element is found among those of its key. -/
theorem find?_positions (f : α → κ) (a : α) (l : List α) :
    (positions f (f a) l).find? (fun n => decide (l[n]? = some a)) =
      l.findIdx? fun b => decide (b = a) := by
  induction l using List.reverseRecOn with
  | nil => rfl
  | append_singleton l b ih =>
      have hold : (positions f (f a) l).find? (fun n => decide ((l ++ [b])[n]? = some a)) =
          (positions f (f a) l).find? (fun n => decide (l[n]? = some a)) := by
        apply find?_congr
        intro n hn
        rw [List.getElem?_append_left (lt_of_mem_positions hn)]
      rw [positions_concat, List.find?_append, hold, ih, List.findIdx?_append]
      congr 1
      by_cases hba : b = a
      · simp [hba]
      · by_cases hk : f b = f a
        · simp [hk, hba]
        · simp [hk, hba]

end Positions
end Shulcrum
