import Mathlib.Tactic

/-!
# Flattened lists with positions

`flat f l` lists the elements of all `f a` for `a` in `l`, each with the index
of `a` and its own index in `f a`.

**Results.**
* `mem_flat`: which triples occur.
* `get_flat_iff`: the triple with indices `i` and `n` sits at `offset f l i + n`.
* `nodup_flat`: no triple occurs twice.
-/

namespace Shulcrum
namespace Flatten

universe u v

variable {α : Type u} {β : Type v} {f : α → List β} {l : List α}

/-- All elements of the lists `f a`, with both indices. -/
def flat (f : α → List β) (l : List α) : List (Nat × Nat × β) :=
  l.zipIdx.flatMap fun e => (f e.1).zipIdx.map fun o => (e.2, o.2, o.1)

/-- Where the elements of the `i`-th list start. -/
def offset (f : α → List β) (l : List α) (i : Nat) : Nat := (flat f (l.take i)).length

/-- Lookup in a list extended at its end. -/
theorem get_concat {a : α} {i : Nat} :
    (l ++ [a])[i]? = if i = l.length then some a else l[i]? := by
  rcases Nat.lt_trichotomy i l.length with h | h | h
  · rw [List.getElem?_append_left h, if_neg (by omega)]
  · rw [if_pos h, h]
    simp
  · rw [if_neg (by omega), List.getElem?_eq_none h.le, List.getElem?_eq_none]
    simp
    omega

@[simp] theorem flat_nil : flat f [] = [] := rfl

theorem flat_concat (l : List α) (a : α) :
    flat f (l ++ [a]) = flat f l ++ (f a).zipIdx.map fun o => (l.length, o.2, o.1) := by
  simp [flat, List.zipIdx_append]

theorem mem_flat {i n : Nat} {b : β} :
    (i, n, b) ∈ flat f l ↔ ∃ a, l[i]? = some a ∧ (f a)[n]? = some b := by
  simp only [flat, List.mem_flatMap, List.mem_map]
  constructor
  · rintro ⟨⟨a, j⟩, ha, ⟨c, k⟩, hc, heq⟩
    cases heq
    exact ⟨a, List.mem_zipIdx_iff_getElem?.mp ha, List.mem_zipIdx_iff_getElem?.mp hc⟩
  · rintro ⟨a, ha, hb⟩
    exact ⟨(a, i), List.mem_zipIdx_iff_getElem?.mpr ha, (b, n),
      List.mem_zipIdx_iff_getElem?.mpr hb, rfl⟩

theorem map_flat_eq_flatMap : (flat f l).map (fun e => e.2.2) = l.flatMap f := by
  induction l using List.reverseRecOn with
  | nil => rfl
  | append_singleton l a ih =>
      rw [flat_concat, List.map_append, ih, List.flatMap_append, List.map_map]
      congr 1
      simp only [Function.comp_def, List.flatMap_cons, List.flatMap_nil, List.append_nil]
      exact List.zipIdx_map_fst 0 (f a)

theorem offset_concat {i : Nat} (a : α) (h : i ≤ l.length) :
    offset f (l ++ [a]) i = offset f l i := by
  rw [offset, List.take_append_of_le_length h, offset]

theorem offset_length (l : List α) : offset f l l.length = (flat f l).length := by
  rw [offset, List.take_length]

/-- The triple with indices `i` and `n` has a fixed position. -/
theorem get_flat_iff {p i n : Nat} {b : β} :
    (flat f l)[p]? = some (i, n, b) ↔
      p = offset f l i + n ∧ ∃ a, l[i]? = some a ∧ (f a)[n]? = some b := by
  induction l using List.reverseRecOn generalizing p with
  | nil => simp
  | append_singleton l a ih =>
      rw [flat_concat]
      rcases Nat.lt_or_ge p (flat f l).length with hp | hp
      · rw [List.getElem?_append_left hp, ih]
        constructor
        · rintro ⟨rfl, b', hb', hn⟩
          obtain ⟨hi, -⟩ := List.getElem?_eq_some_iff.mp hb'
          refine ⟨by rw [offset_concat a hi.le], b', ?_, hn⟩
          rw [List.getElem?_append_left hi]
          exact hb'
        · rintro ⟨rfl, b', hb', hn⟩
          rcases Nat.lt_or_ge i l.length with hi | hi
          · rw [List.getElem?_append_left hi] at hb'
            exact ⟨by rw [offset_concat a hi.le], b', hb', hn⟩
          · -- the last list starts where the earlier ones end
            obtain ⟨hi', -⟩ := List.getElem?_eq_some_iff.mp hb'
            rw [List.length_append, List.length_singleton] at hi'
            have hlast : i = l.length := by omega
            rw [hlast, offset_concat a le_rfl, offset_length] at hp
            omega
      · rw [List.getElem?_append_right hp, List.getElem?_map, Option.map_eq_some_iff]
        constructor
        · rintro ⟨o, ho, heq⟩
          obtain ⟨c, k⟩ := o
          cases heq
          rw [List.getElem?_zipIdx, Option.map_eq_some_iff] at ho
          obtain ⟨x, hx, heq⟩ := ho
          cases heq
          refine ⟨?_, a, by simp, ?_⟩
          · rw [offset_concat a le_rfl, offset_length]
            omega
          · simpa using hx
        · rintro ⟨rfl, b', hb', hn⟩
          obtain ⟨hi', -⟩ := List.getElem?_eq_some_iff.mp hb'
          rw [List.length_append, List.length_singleton] at hi'
          have hlast : i = l.length := by
            by_contra hne
            have hi : i < l.length := by omega
            rw [List.getElem?_append_left hi] at hb'
            rw [offset_concat a hi.le] at hp
            have hget := ih.mpr ⟨rfl, b', hb', hn⟩
            obtain ⟨hlt, -⟩ := List.getElem?_eq_some_iff.mp hget
            omega
          subst hlast
          have hab : b' = a := by simpa using hb'.symm
          subst hab
          refine ⟨(b, n), ?_, rfl⟩
          rw [offset_concat b' le_rfl, offset_length, Nat.add_sub_cancel_left,
            List.getElem?_zipIdx, hn]
          simp

/-- No triple occurs twice. -/
theorem nodup_flat (f : α → List β) (l : List α) : (flat f l).Nodup := by
  rw [List.nodup_iff_getElem?_ne_getElem?]
  intro p q hlt hq heq
  obtain ⟨⟨i, n, b⟩, he⟩ : ∃ e, (flat f l)[q]? = some e := ⟨_, List.getElem?_eq_getElem hq⟩
  have hq' := (get_flat_iff.mp he).1
  rw [← heq] at he
  have hp' := (get_flat_iff.mp he).1
  omega

end Flatten
end Shulcrum
