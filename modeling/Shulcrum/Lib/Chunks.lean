import Mathlib.Data.List.Basic
import Mathlib.Tactic

/-!
# Lists cut into chunks of one size

The chunks of a list, what appending and cutting the list does to them, and
where an element stands.  A chunk of records of one length is stored as their
concatenation; the second part is about reading that concatenation.

**Results.**
* `chunk_concat`, `chunk_take`: the chunks after an append and after a cut.
* `getElem?_chunk`: an element is found in its chunk.
* `slice_flatten`, `take_flatten`: records inside a concatenation.
-/

namespace Shulcrum
namespace Chunks

universe u

variable {α : Type u}

/-- The `b`-th chunk of `n` elements. -/
def chunk (n : Nat) (l : List α) (b : Nat) : List α := (l.drop (b * n)).take n

theorem chunk_eq_nil_iff {n : Nat} (hn : 0 < n) {l : List α} {b : Nat} :
    chunk n l b = [] ↔ l.length ≤ b * n := by
  rw [chunk, List.take_eq_nil_iff, List.drop_eq_nil_iff]
  constructor
  · rintro (h | h)
    · omega
    · exact h
  · exact Or.inr

theorem length_chunk (n : Nat) (l : List α) (b : Nat) :
    (chunk n l b).length = min n (l.length - b * n) := by
  simp [chunk]

/-- An element is found in its chunk. -/
theorem getElem?_chunk {n : Nat} (hn : 0 < n) (l : List α) (i : Nat) :
    (chunk n l (i / n))[i % n]? = l[i]? := by
  have hmod : i % n < n := Nat.mod_lt i hn
  have hi : i / n * n + i % n = i := Nat.div_add_mod' i n
  rw [chunk, List.getElem?_take_of_lt hmod, List.getElem?_drop, hi]

/-- An append goes into the chunk of the first free place. -/
theorem chunk_concat {n : Nat} (hn : 0 < n) (l : List α) (a : α) (b : Nat) :
    chunk n (l ++ [a]) b =
      if b = l.length / n then chunk n l b ++ [a] else chunk n l b := by
  have hdiv : l.length / n * n ≤ l.length := Nat.div_mul_le_self _ _
  have hlt : l.length < l.length / n * n + n := Nat.lt_div_mul_add hn
  unfold chunk
  split_ifs with hb
  · subst hb
    have hshort : (l.drop (l.length / n * n) ++ [a]).length ≤ n := by
      simp
      omega
    have hshort' : (l.drop (l.length / n * n)).length ≤ n := by
      simp
      omega
    rw [List.drop_append_of_le_length hdiv, List.take_of_length_le hshort,
      List.take_of_length_le hshort']
  · rcases Nat.lt_or_ge b (l.length / n) with hlt' | hge
    · have hfit : b * n + n ≤ l.length := by
        have hmul : (b + 1) * n ≤ l.length / n * n := Nat.mul_le_mul_right n hlt'
        rw [Nat.add_mul] at hmul
        omega
      rw [List.drop_append_of_le_length (by omega), List.take_append_of_le_length]
      rw [List.length_drop]
      omega
    · have hpast : l.length + 1 ≤ b * n := by
        have hmul : (l.length / n + 1) * n ≤ b * n := Nat.mul_le_mul_right n (by omega)
        rw [Nat.add_mul] at hmul
        omega
      rw [List.drop_eq_nil_of_le (by simp; omega), List.drop_eq_nil_of_le (by omega)]

/-- A cut leaves the chunks before it and a part of the chunk it falls into. -/
theorem chunk_take {n : Nat} (hn : 0 < n) (l : List α) (k b : Nat) :
    chunk n (l.take k) b =
      if b < k / n then chunk n l b else if b = k / n then (chunk n l b).take (k % n) else [] := by
  have hdiv : k / n * n + k % n = k := Nat.div_add_mod' k n
  have hmod : k % n < n := Nat.mod_lt k hn
  unfold chunk
  rw [List.drop_take, List.take_take]
  split_ifs with hlt heq
  · have hfit : n ≤ k - b * n := by
      have hmul : (b + 1) * n ≤ k / n * n := Nat.mul_le_mul_right n hlt
      rw [Nat.add_mul] at hmul
      omega
    rw [Nat.min_eq_left hfit]
  · subst heq
    rw [List.take_take]
    congr 1
    omega
  · have hpast : k ≤ b * n := by
      have hmul : (k / n + 1) * n ≤ b * n := Nat.mul_le_mul_right n (by omega)
      rw [Nat.add_mul] at hmul
      omega
    have hzero : k - b * n = 0 := by omega
    rw [hzero, Nat.min_zero, List.take_zero]

section Records

variable {s : Nat} {l : List (List α)}

theorem length_flatten_of_length (h : ∀ r ∈ l, r.length = s) : l.flatten.length = s * l.length := by
  induction l with
  | nil => simp
  | cons r l ih =>
      have hr : r.length = s := h r List.mem_cons_self
      have hl := ih fun r hr => h r (List.mem_cons_of_mem _ hr)
      rw [List.flatten_cons, List.length_append, hr, hl, List.length_cons, Nat.mul_succ]
      omega

theorem drop_flatten (h : ∀ r ∈ l, r.length = s) (j : Nat) :
    l.flatten.drop (s * j) = (l.drop j).flatten := by
  induction l generalizing j with
  | nil => simp
  | cons r l ih =>
      have hr : r.length = s := h r List.mem_cons_self
      cases j with
      | zero => simp
      | succ j =>
          have hlen : s * (j + 1) = r.length + s * j := by
            rw [Nat.mul_succ, hr]
            omega
          rw [List.flatten_cons, hlen, ← List.drop_drop, List.drop_left,
            ih fun r hr => h r (List.mem_cons_of_mem _ hr), List.drop_succ_cons]

/-- The first records of a concatenation. -/
theorem take_flatten (h : ∀ r ∈ l, r.length = s) (j : Nat) :
    l.flatten.take (s * j) = (l.take j).flatten := by
  induction l generalizing j with
  | nil => simp
  | cons r l ih =>
      have hr : r.length = s := h r List.mem_cons_self
      cases j with
      | zero => simp
      | succ j =>
          have hlen : s * (j + 1) = r.length + s * j := by
            rw [Nat.mul_succ, hr]
            omega
          rw [List.flatten_cons, hlen, List.take_length_add_append,
            ih fun r hr => h r (List.mem_cons_of_mem _ hr), List.take_succ_cons,
            List.flatten_cons]

/-- One record of a concatenation. -/
theorem slice_flatten (h : ∀ r ∈ l, r.length = s) {j : Nat} {r : List α} (hr : l[j]? = some r) :
    (l.flatten.drop (s * j)).take s = r := by
  obtain ⟨hj, rfl⟩ := List.getElem?_eq_some_iff.mp hr
  have hlen : l[j].length = s := h l[j] (List.getElem_mem hj)
  rw [drop_flatten h, List.drop_eq_getElem_cons hj, List.flatten_cons, ← hlen, List.take_left]

end Records
end Chunks
end Shulcrum
