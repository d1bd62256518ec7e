import Mathlib.Tactic

/-!
# Readers that copy what they read

A reader takes items from an input and puts items at the back of an output.  It
copies if what it puts there is what it took, and if it does the same again when
it is given what it took, with anything behind it.

**Results.**
* `Inverse.copies`: reading a value and writing it copies, where the writer is
  inverse to the reader.
* `Copies.bind`, `Copies.times`: copying is preserved by sequences and by loops.
* `Copies.run`: a whole run on an empty output.
-/

namespace Shulcrum
namespace Copying

variable {ε ι α β : Type}

/-- What is left of the input, and what was put out. -/
structure Tape (ι : Type) where
  input : List ι
  output : List ι

abbrev Copier (ε ι α : Type) := StateT (Tape ι) (Except ε) α

/-- Read a value and write it again. -/
def readWrite (read : StateT (List ι) (Except ε) α) (write : α → List ι) : Copier ε ι α :=
  fun t =>
    match read t.input with
    | .error e => .error e
    | .ok (a, rest) => .ok (a, ⟨rest, t.output ++ write a⟩)

/-- The same a number of times. -/
def times (m : Copier ε ι Unit) : Nat → Copier ε ι Unit
  | 0 => pure ()
  | n + 1 => m >>= fun _ => times m n

/-- The writer is inverse to the reader on what the reader accepts. -/
structure Inverse (read : StateT (List ι) (Except ε) α) (write : α → List ι) : Prop where
  canonical : ∀ {s a rest}, read s = .ok (a, rest) → s = write a ++ rest
  again : ∀ {s a rest}, read s = .ok (a, rest) → ∀ rest', read (write a ++ rest') = .ok (a, rest')

/-- What is taken from the input goes to the output, and is taken again from anything that begins
with it. -/
def Copies (m : Copier ε ι α) : Prop :=
  ∀ t a t', m t = .ok (a, t') → ∃ used, t.input = used ++ t'.input ∧ t'.output = t.output ++ used ∧
    ∀ rest out, m ⟨used ++ rest, out⟩ = .ok (a, ⟨rest, out ++ used⟩)

theorem Inverse.copies {read : StateT (List ι) (Except ε) α} {write : α → List ι}
    (h : Inverse read write) : Copies (readWrite read write) := by
  intro t a t' hok
  rw [readWrite] at hok
  cases hread : read t.input with
  | error e => simp [hread] at hok
  | ok r =>
      obtain ⟨v, rest⟩ := r
      simp only [hread, Except.ok.injEq, Prod.mk.injEq] at hok
      obtain ⟨rfl, rfl⟩ := hok
      refine ⟨write v, h.canonical hread, rfl, fun rest' out => ?_⟩
      simp only [readWrite, h.again hread rest']

theorem Copies.pure (a : α) : Copies (Pure.pure a : Copier ε ι α) := by
  intro t a' t' hok
  cases hok
  exact ⟨[], rfl, (List.append_nil _).symm, fun rest out => by rw [List.append_nil]; rfl⟩

theorem Copies.throw (e : ε) : Copies (MonadExcept.throw e : Copier ε ι α) := by
  intro t a t' hok
  cases hok

theorem Copies.bind {m : Copier ε ι α} {f : α → Copier ε ι β} (hm : Copies m)
    (hf : ∀ a, Copies (f a)) : Copies (m >>= f) := by
  intro t b t'' hok
  have hdef : ∀ t, (m >>= f) t = (m t).bind fun r => f r.1 r.2 := fun _ => rfl
  rw [hdef] at hok
  cases hfirst : m t with
  | error e =>
      rw [hfirst] at hok
      cases hok
  | ok r =>
      obtain ⟨a, t'⟩ := r
      rw [hfirst] at hok
      obtain ⟨used, hin, hout, hagain⟩ := hm t a t' hfirst
      obtain ⟨used', hin', hout', hagain'⟩ := hf a t' b t'' hok
      refine ⟨used ++ used', ?_, ?_, fun rest out => ?_⟩
      · rw [hin, hin', List.append_assoc]
      · rw [hout', hout, List.append_assoc]
      · have hstep := hagain (used' ++ rest) out
        rw [hdef, List.append_assoc, hstep, ← List.append_assoc]
        exact hagain' rest (out ++ used)

theorem Copies.ite {c : Prop} [Decidable c] {m m' : Copier ε ι α} (hm : Copies m)
    (hm' : Copies m') : Copies (if c then m else m') := by
  split_ifs
  · exact hm
  · exact hm'

theorem Copies.times {m : Copier ε ι Unit} (hm : Copies m) (n : Nat) : Copies (times m n) := by
  induction n with
  | zero => exact .pure ()
  | succ n ih => exact .bind hm fun _ => ih

/-- What a run has put out is what it took. -/
theorem Copies.run {m : Copier ε ι α} (hm : Copies m) {s : List ι} {a : α} {t : Tape ι}
    (h : m ⟨s, []⟩ = .ok (a, t)) :
    s = t.output ++ t.input ∧ ∀ rest, m ⟨t.output ++ rest, []⟩ = .ok (a, ⟨rest, t.output⟩) := by
  obtain ⟨used, hin, hout, hagain⟩ := hm _ a t h
  rw [List.nil_append] at hout
  rw [hout]
  exact ⟨hin, fun rest => hagain rest []⟩

end Copying
end Shulcrum
