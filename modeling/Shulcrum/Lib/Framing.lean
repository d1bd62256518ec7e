import Mathlib.Data.List.Basic
import Mathlib.Tactic

/-!
# Framed streams

A stream is the concatenation of encoded frames.  A receiver holds an initial
part of it and takes frames off its front until no whole frame is left.  The
second part is about streams that are merged from two others.

**Results.**
* `exists_remainder`: an initial part of a stream holds some whole frames and
  less than the next one.
* `greedy_taken`: the receiver takes exactly the whole frames.
* `Interleave.exists_map`: merging commutes with encoding.
-/

namespace Shulcrum
namespace Framing

section Greedy

variable {ι φ ψ ε : Type}

/-- Take frames off the front of the bytes until there is no whole frame; also
the number of bytes that were taken. -/
def greedy (parse : List ι → Except ε (Option ψ)) (size : ψ → Nat) :
    Nat → List ι → Except ε (List ψ × Nat)
  | 0, _ => .ok ([], 0)
  | n + 1, d =>
      match parse d with
      | .error e => .error e
      | .ok none => .ok ([], 0)
      | .ok (some f) =>
          match greedy parse size n (d.drop (size f)) with
          | .error e => .error e
          | .ok (fs, pos) => .ok (f :: fs, size f + pos)

/-- A parser that recognizes an encoding: given an initial part of a stream that
starts with a good frame it returns the frame if the frame is there as a whole. -/
structure Recognizes (parse : List ι → Except ε (Option ψ)) (size : ψ → Nat)
    (enc : φ → List ι) (view : φ → ψ) (good : φ → Prop) : Prop where
  nil : parse [] = .ok none
  pos : ∀ f, enc f ≠ []
  size_view : ∀ f, size (view f) = (enc f).length
  parse_initial : ∀ f rest t, good f → t <+: enc f ++ rest →
    parse t = .ok (if (enc f).length ≤ t.length then some (view f) else none)

/-- The bytes after the whole frames of an initial part of a stream. -/
structure Remainder (enc : φ → List ι) (todo : List φ) (tail : List ι) : Prop where
  isPrefix : tail <+: todo.flatMap enc
  short : ∀ f rest, todo = f :: rest → tail.length < (enc f).length

/-- Nothing is left of a stream that is there as a whole. -/
theorem Remainder.todo_eq_nil {enc : φ → List ι} {todo : List φ} {tail : List ι}
    (h : Remainder enc todo tail) (hall : tail = todo.flatMap enc) : todo = [] := by
  cases todo with
  | nil => rfl
  | cons f rest =>
      have hshort := h.short f rest rfl
      rw [hall, List.flatMap_cons, List.length_append] at hshort
      omega

/-- No bytes are left when there are no frames left. -/
theorem Remainder.tail_eq_nil {enc : φ → List ι} {tail : List ι}
    (h : Remainder enc [] tail) : tail = [] := by
  have hprefix := h.isPrefix
  rw [List.flatMap_nil] at hprefix
  exact List.prefix_nil.mp hprefix

variable {parse : List ι → Except ε (Option ψ)} {size : ψ → Nat}
  {enc : φ → List ι} {view : φ → ψ} {good : φ → Prop}

/-- An initial part of a stream holds some whole frames and less than the next one. -/
theorem exists_remainder (enc : φ → List ι) (fs : List φ) :
    ∀ {t : List ι}, t <+: fs.flatMap enc →
      ∃ taken todo tail, fs = taken ++ todo ∧ t = taken.flatMap enc ++ tail ∧
        Remainder enc todo tail := by
  induction fs with
  | nil =>
      intro t ht
      exact ⟨[], [], t, rfl, rfl, ⟨ht, fun f rest h => by simp at h⟩⟩
  | cons f fs ih =>
      intro t ht
      have ht' := ht
      rw [List.flatMap_cons] at ht
      by_cases hlen : (enc f).length ≤ t.length
      · obtain ⟨t, rfl⟩ : enc f <+: t :=
          List.prefix_of_prefix_length_le (List.prefix_append _ _) ht hlen
        obtain ⟨taken, todo, tail, hfs, htail, hrem⟩ := ih ((List.prefix_append_right_inj _).mp ht)
        exact ⟨f :: taken, todo, tail, by simp [hfs], by simp [htail], hrem⟩
      · refine ⟨[], f :: fs, t, rfl, rfl, ht', ?_⟩
        rintro g rest hg
        simp only [List.cons.injEq] at hg
        obtain ⟨rfl, rfl⟩ := hg
        omega

/-- The receiver takes the frames that are there. -/
theorem greedy_taken (hp : Recognizes parse size enc view good) {taken todo : List φ}
    {tail : List ι} (hgood : ∀ f ∈ taken ++ todo, good f) (hrem : Remainder enc todo tail) :
    ∀ {n : Nat}, (taken.flatMap enc ++ tail).length ≤ n →
      greedy parse size n (taken.flatMap enc ++ tail) =
        .ok (taken.map view, (taken.flatMap enc).length) := by
  induction taken with
  | nil =>
      intro n hn
      have hnone : parse tail = .ok none := by
        cases todo with
        | nil => rw [hrem.tail_eq_nil, hp.nil]
        | cons f rest =>
            have hshort := hrem.short f rest rfl
            have hparse := hp.parse_initial f _ tail (hgood f (by simp)) hrem.isPrefix
            rwa [if_neg (by omega)] at hparse
      cases n with
      | zero => rfl
      | succ n => simp [greedy, hnone]
  | cons f taken ih =>
      intro n hn
      have hpos : 0 < (enc f).length := List.length_pos_iff.mpr (hp.pos f)
      rw [List.flatMap_cons, List.append_assoc] at hn ⊢
      rw [List.length_append] at hn
      have hparse := hp.parse_initial f _ _ (hgood f (by simp))
        (List.prefix_refl (enc f ++ (taken.flatMap enc ++ tail)))
      rw [if_pos (by simp)] at hparse
      obtain ⟨n, rfl⟩ : ∃ m, n = m + 1 := ⟨n - 1, by omega⟩
      have hrest := ih (fun f hf => hgood f (by simp [List.mem_append.mp hf])) (n := n) (by omega)
      simp [greedy, hparse, hp.size_view, hrest]

end Greedy

section Interleaving

variable {α β : Type}

/-- A list merged from two lists, each kept in its order. -/
inductive Interleave : List α → List α → List α → Prop where
  | nil : Interleave [] [] []
  | left (a : α) {l r s : List α} : Interleave l r s → Interleave (a :: l) r (a :: s)
  | right (a : α) {l r s : List α} : Interleave l r s → Interleave l (a :: r) (a :: s)

/-- Whatever holds of both lists holds of the merged list. -/
theorem Interleave.forall_mem {P : α → Prop} {l r s : List α} (h : Interleave l r s)
    (hl : ∀ a ∈ l, P a) (hr : ∀ a ∈ r, P a) : ∀ a ∈ s, P a := by
  induction h with
  | nil => simp
  | left a _ ih =>
      rw [List.forall_mem_cons] at hl ⊢
      exact ⟨hl.1, ih hl.2 hr⟩
  | right a _ ih =>
      rw [List.forall_mem_cons] at hr ⊢
      exact ⟨hr.1, ih hl hr.2⟩

/-- A list merged from two encoded lists is the encoding of a merged list. -/
theorem Interleave.exists_map {f : α → β} {s : List β} :
    ∀ {l r : List α}, Interleave (l.map f) (r.map f) s → ∃ t, s = t.map f ∧ Interleave l r t := by
  induction s with
  | nil =>
      intro l r h
      cases l <;> cases r <;> cases h
      exact ⟨[], rfl, .nil⟩
  | cons b s ih =>
      intro l r h
      generalize hl : l.map f = L at h
      generalize hr : r.map f = R at h
      cases h with
      | left _ h =>
          obtain ⟨a, l, rfl, rfl, rfl⟩ := List.map_eq_cons_iff.mp hl
          subst hr
          obtain ⟨t, rfl, ht⟩ := ih h
          exact ⟨a :: t, rfl, .left a ht⟩
      | right _ h =>
          obtain ⟨a, r, rfl, rfl, rfl⟩ := List.map_eq_cons_iff.mp hr
          subst hl
          obtain ⟨t, rfl, ht⟩ := ih h
          exact ⟨a :: t, rfl, .right a ht⟩

/-- The parts of a merged list are found by a test that tells them apart. -/
theorem Interleave.filter_right {p : α → Bool} {l r s : List α} (h : Interleave l r s)
    (hl : ∀ a ∈ l, p a = false) (hr : ∀ a ∈ r, p a = true) : s.filter p = r := by
  induction h with
  | nil => rfl
  | left a _ ih =>
      rw [List.forall_mem_cons] at hl
      rw [List.filter_cons_of_neg (by simp [hl.1]), ih hl.2 hr]
  | right a _ ih =>
      rw [List.forall_mem_cons] at hr
      rw [List.filter_cons_of_pos hr.1, ih hl hr.2]

/-- Which of the two lists is first does not matter. -/
theorem Interleave.symm {l r s : List α} (h : Interleave l r s) : Interleave r l s := by
  induction h with
  | nil => exact .nil
  | left a _ ih => exact .right a ih
  | right a _ ih => exact .left a ih

end Interleaving

end Framing
end Shulcrum
