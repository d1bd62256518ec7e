import Mathlib.Tactic

/-!
# Computations that may fail

What a sequence of steps in `Except` returns, given what each step returns.

**Results.**
* `foldlM_ok`, `of_foldlM`: the induction rules for loops that carry a state.
-/

namespace Shulcrum
namespace Fallible

universe u v

variable {ε : Type u} {α β : Type v}

/-- A step followed by another succeeds iff both do. -/
theorem bind_eq_ok {x : Except ε α} {f : α → Except ε β} {r : β} :
    (x >>= f) = .ok r ↔ ∃ a, x = .ok a ∧ f a = .ok r := by
  cases x with
  | error e => simp [bind, Except.bind]
  | ok a => simp [bind, Except.bind]

/-- A loop over elements for which no step fails. -/
theorem mapM_ok {f : α → Except ε β} {g : α → β} {l : List α}
    (h : ∀ a ∈ l, f a = .ok (g a)) : l.mapM f = .ok (l.map g) := by
  induction l with
  | nil => rfl
  | cons a l ih =>
      rw [List.mapM_cons, h a List.mem_cons_self, ih fun b hb => h b (List.mem_cons_of_mem a hb)]
      rfl

/-- A loop without results succeeds iff every round does. -/
theorem forM_eq_ok {f : α → Except ε PUnit} {l : List α} :
    l.forM f = .ok () ↔ ∀ a ∈ l, f a = .ok () := by
  induction l with
  | nil => simp [List.forM, pure, Except.pure]
  | cons a l ih =>
      rw [List.forM, bind_eq_ok, List.forall_mem_cons]
      constructor
      · rintro ⟨_, ha, hl⟩
        exact ⟨ha, ih.mp hl⟩
      · rintro ⟨ha, hl⟩
        exact ⟨_, ha, ih.mpr hl⟩

/-- In a loop that succeeds every round does. -/
theorem of_mapM_mem {f : α → Except ε β} {l : List α} {rs : List β} (h : l.mapM f = .ok rs) :
    ∀ a ∈ l, ∃ r, f a = .ok r := by
  induction l generalizing rs with
  | nil =>
      intro a ha
      cases ha
  | cons b l ih =>
      rw [List.mapM_cons, bind_eq_ok] at h
      obtain ⟨r, hb, hrest⟩ := h
      obtain ⟨rs', hl, -⟩ := bind_eq_ok.mp hrest
      intro a ha
      rcases List.mem_cons.mp ha with rfl | ha
      · exact ⟨r, hb⟩
      · exact ih hl a ha

/-- A loop succeeds iff every round does. -/
theorem exists_mapM_iff {f : α → Except ε β} {l : List α} :
    (∃ rs, l.mapM f = .ok rs) ↔ ∀ a ∈ l, ∃ r, f a = .ok r := by
  constructor
  · rintro ⟨rs, h⟩
    exact of_mapM_mem h
  · intro h
    induction l with
    | nil => exact ⟨[], rfl⟩
    | cons a l ih =>
        rw [List.forall_mem_cons] at h
        obtain ⟨⟨r, hr⟩, hl⟩ := h
        obtain ⟨rs, hrs⟩ := ih hl
        exact ⟨r :: rs, by rw [List.mapM_cons, hr, hrs]; rfl⟩

/-- The results of a loop that succeeds are those of its rounds. -/
theorem mapM_eq_ok {f : α → Except ε β} {l : List α} {rs : List β} (h : l.mapM f = .ok rs) :
    List.Forall₂ (fun a r => f a = .ok r) l rs := by
  induction l generalizing rs with
  | nil =>
      obtain rfl : [] = rs := Except.ok.inj h
      exact .nil
  | cons a l ih =>
      rw [List.mapM_cons, bind_eq_ok] at h
      obtain ⟨r, ha, hrest⟩ := h
      obtain ⟨rs', hl, hrs⟩ := bind_eq_ok.mp hrest
      obtain rfl : r :: rs' = rs := Except.ok.inj hrs
      exact .cons ha (ih hl)

/-- What holds of the elements seen so far and the state, and is kept by every round. -/
theorem foldlM_ok {P : List α → β → Prop} {f : β → α → Except ε β} {l : List α} {b : β}
    (hnil : P [] b)
    (hstep : ∀ pre a post b, l = pre ++ a :: post → P pre b →
      ∃ b', f b a = .ok b' ∧ P (pre ++ [a]) b') :
    ∃ b', l.foldlM f b = .ok b' ∧ P l b' := by
  have hall : ∀ post pre b, l = pre ++ post → P pre b →
      ∃ b', post.foldlM f b = .ok b' ∧ P l b' := by
    intro post
    induction post with
    | nil =>
        intro pre b hl hP
        rw [List.append_nil] at hl
        exact ⟨b, rfl, hl ▸ hP⟩
    | cons a post ih =>
        intro pre b hl hP
        obtain ⟨b₁, hb₁, hP₁⟩ := hstep pre a post b hl hP
        obtain ⟨b', hb', hP'⟩ := ih (pre ++ [a]) b₁ (by rw [hl]; simp) hP₁
        exact ⟨b', bind_eq_ok.mpr ⟨b₁, hb₁, hb'⟩, hP'⟩
  exact hall l [] b rfl hnil

/-- The same of a loop that is known to succeed. -/
theorem of_foldlM {P : List α → β → Prop} {f : β → α → Except ε β} {l : List α} {b b' : β}
    (hnil : P [] b)
    (hstep : ∀ pre a post b b', l = pre ++ a :: post → P pre b → f b a = .ok b' →
      P (pre ++ [a]) b')
    (h : l.foldlM f b = .ok b') : P l b' := by
  have hall : ∀ post pre b, l = pre ++ post → P pre b → post.foldlM f b = .ok b' → P l b' := by
    intro post
    induction post with
    | nil =>
        intro pre b hl hP hb
        rw [List.append_nil] at hl
        obtain rfl : b = b' := Except.ok.inj hb
        exact hl ▸ hP
    | cons a post ih =>
        intro pre b hl hP hb
        obtain ⟨b₁, hb₁, hrest⟩ := bind_eq_ok.mp hb
        exact ih (pre ++ [a]) b₁ (by rw [hl]; simp) (hstep pre a post b b₁ hl hP hb₁) hrest
  exact hall l [] b rfl hnil h

end Fallible
end Shulcrum
