import Mathlib.Tactic
import Shulcrum.Lib.Fallible

/-!
# Formats that are read in one form only

A reader takes items from the front of an input.  It is exact for a writer if it
accepts an input iff the input starts with what the writer gives for a valid
value.  An exact reader reads back what was written, and what it accepts is
written again as it was.

**Results.**
* `Exact.bind`, `Exact.many`, `Exact.each`: sequences and loops of exact readers.
* `Exact.unique`, `Exact.injective`: the value and the end are determined.
-/

namespace Shulcrum
namespace Codec

variable {ε ι α β : Type}

/-- A reader returns a value and what is left of the input, or it throws. -/
abbrev Reader (ε ι α : Type) := StateT (List ι) (Except ε) α

/-- The reader accepts the valid values, in the form the writer gives them. -/
def Exact (read : Reader ε ι α) (write : α → List ι) (valid : α → Prop) : Prop :=
  ∀ s a rest, read s = .ok (a, rest) ↔ s = write a ++ rest ∧ valid a

/-- Read a number of items. -/
def many (r : Reader ε ι α) : Nat → Reader ε ι (List α)
  | 0 => pure []
  | n + 1 => do
      let a ← r
      let l ← many r n
      return a :: l

/-- Read something for each element of a list. -/
def each (f : α → Reader ε ι β) : List α → Reader ε ι (List β)
  | [] => pure []
  | a :: l => do
      let b ← f a
      let bs ← each f l
      return b :: bs

/-- Go on unless the condition holds. -/
def throwIf (c : Prop) [Decidable c] (e : ε) : Reader ε ι Unit :=
  if c then throw e else pure ()

theorem bind_eq_ok {m : Reader ε ι α} {f : α → Reader ε ι β} {s rest : List ι} {b : β} :
    (m >>= f) s = .ok (b, rest) ↔ ∃ a s', m s = .ok (a, s') ∧ f a s' = .ok (b, rest) := by
  have hdef : (m >>= f) s = m s >>= fun r => f r.1 r.2 := rfl
  rw [hdef, Fallible.bind_eq_ok]
  constructor
  · rintro ⟨⟨a, s'⟩, hm, hf⟩
    exact ⟨a, s', hm, hf⟩
  · rintro ⟨a, s', hm, hf⟩
    exact ⟨(a, s'), hm, hf⟩

theorem pure_eq_ok {a b : α} {s rest : List ι} :
    (pure a : Reader ε ι α) s = .ok (b, rest) ↔ a = b ∧ s = rest := by
  have hdef : (pure a : Reader ε ι α) s = .ok (a, s) := rfl
  rw [hdef, Except.ok.injEq, Prod.mk.injEq]

theorem throw_ne_ok {e : ε} {a : α} {s rest : List ι} :
    (throw e : Reader ε ι α) s ≠ .ok (a, rest) := by
  have hdef : (throw e : Reader ε ι α) s = .error e := rfl
  rw [hdef]
  exact fun h => by cases h

theorem throwIf_eq_ok {c : Prop} [Decidable c] {e : ε} {u : Unit} {s rest : List ι} :
    (throwIf c e : Reader ε ι Unit) s = .ok (u, rest) ↔ ¬ c ∧ s = rest := by
  unfold throwIf
  split_ifs with hc
  · constructor
    · exact fun h => absurd h throw_ne_ok
    · exact fun h => absurd hc h.1
  · rw [pure_eq_ok]
    exact ⟨fun h => ⟨hc, h.2⟩, fun h => ⟨rfl, h.2⟩⟩

namespace Exact

variable {read : Reader ε ι α} {write write' : α → List ι} {valid valid' : α → Prop}

theorem congr (h : Exact read write valid) (hvalid : ∀ a, valid a ↔ valid' a)
    (hwrite : ∀ a, valid a → write a = write' a) : Exact read write' valid' := by
  intro s a rest
  rw [h s a rest, ← hvalid]
  constructor
  · rintro ⟨rfl, ha⟩
    exact ⟨by rw [hwrite a ha], ha⟩
  · rintro ⟨rfl, ha⟩
    exact ⟨by rw [hwrite a ha], ha⟩

theorem pure (a : α) : Exact (Pure.pure a : Reader ε ι α) (fun _ => []) (fun b => b = a) := by
  intro s b rest
  rw [pure_eq_ok, List.nil_append]
  exact ⟨fun h => ⟨h.2, h.1.symm⟩, fun h => ⟨h.2.symm, h.1⟩⟩

/-- A sequence; what was read first can be found again in the result. -/
theorem bind {w' : α → β → List ι} {v' : α → β → Prop} {f : α → Reader ε ι β} (proj : β → α)
    (hr : Exact read write valid) (hf : ∀ a, valid a → Exact (f a) (w' a) (v' a))
    (hproj : ∀ a b, v' a b → proj b = a) :
    Exact (read >>= f) (fun b => write (proj b) ++ w' (proj b) b)
      (fun b => valid (proj b) ∧ v' (proj b) b) := by
  intro s b rest
  rw [bind_eq_ok]
  constructor
  · rintro ⟨a, s', hread, hrest⟩
    obtain ⟨rfl, ha⟩ := (hr _ _ _).mp hread
    obtain ⟨rfl, hb⟩ := (hf a ha _ _ _).mp hrest
    obtain rfl := hproj a b hb
    exact ⟨(List.append_assoc ..).symm, ha, hb⟩
  · rintro ⟨rfl, ha, hb⟩
    rw [List.append_assoc]
    exact ⟨proj b, _, (hr _ _ _).mpr ⟨rfl, ha⟩, (hf _ ha _ _ _).mpr ⟨rfl, hb⟩⟩

/-- A reader followed by a check of what it read. -/
theorem check {c : α → Prop} [DecidablePred c] {e : ε} (hr : Exact read write valid) :
    Exact (do
      let a ← read
      throwIf (c a) e
      Pure.pure a) write (fun a => valid a ∧ ¬ c a) := by
  intro s a rest
  simp only [bind_eq_ok, throwIf_eq_ok, pure_eq_ok]
  constructor
  · rintro ⟨a', s', hread, u, s'', ⟨hc, rfl⟩, rfl, rfl⟩
    obtain ⟨rfl, ha⟩ := (hr _ _ _).mp hread
    exact ⟨rfl, ha, hc⟩
  · rintro ⟨rfl, ha, hc⟩
    exact ⟨a, rest, (hr _ _ _).mpr ⟨rfl, ha⟩, (), rest, ⟨hc, rfl⟩, rfl, rfl⟩

theorem many (hr : Exact read write valid) (n : Nat) :
    Exact (Codec.many read n) (fun l => l.flatMap write)
      (fun l => l.length = n ∧ ∀ a ∈ l, valid a) := by
  induction n with
  | zero =>
      refine (Exact.pure []).congr ?_ ?_
      · intro l
        constructor
        · rintro rfl
          simp
        · exact fun h => List.length_eq_zero_iff.mp h.1
      · rintro l rfl
        rfl
  | succ n ih =>
      intro s l rest
      have hdef : Codec.many read (n + 1) = read >>= fun a => Codec.many read n >>= fun l =>
          Pure.pure (a :: l) := rfl
      simp only [hdef, bind_eq_ok, pure_eq_ok]
      constructor
      · rintro ⟨a, s', hread, l', s'', hmany, rfl, rfl⟩
        obtain ⟨rfl, ha⟩ := (hr _ _ _).mp hread
        obtain ⟨rfl, hlen, hl⟩ := (ih _ _ _).mp hmany
        refine ⟨by rw [List.flatMap_cons, List.append_assoc], by rw [List.length_cons, hlen], ?_⟩
        exact List.forall_mem_cons.mpr ⟨ha, hl⟩
      · rintro ⟨rfl, hlen, hall⟩
        cases l with
        | nil => simp at hlen
        | cons a l =>
            obtain ⟨ha, hl⟩ := List.forall_mem_cons.mp hall
            rw [List.flatMap_cons, List.append_assoc]
            exact ⟨a, _, (hr _ _ _).mpr ⟨rfl, ha⟩, l, rest,
              (ih _ _ _).mpr ⟨rfl, by simpa using hlen, hl⟩, rfl, rfl⟩

/-- A loop over a list; each element can be found again in what was read for it. -/
theorem each {f : α → Reader ε ι β} {w : β → List ι} {v : β → Prop} {k : β → α} {l : List α}
    (hf : ∀ a ∈ l, Exact (f a) w (fun b => v b ∧ k b = a)) :
    Exact (Codec.each f l) (fun bs => bs.flatMap w)
      (fun bs => bs.map k = l ∧ ∀ b ∈ bs, v b) := by
  induction l with
  | nil =>
      refine (Exact.pure []).congr ?_ ?_
      · intro bs
        constructor
        · rintro rfl
          simp
        · exact fun h => List.map_eq_nil_iff.mp h.1
      · rintro bs rfl
        rfl
  | cons a l ih =>
      have hfa := hf a List.mem_cons_self
      have ih := ih fun a' ha' => hf a' (List.mem_cons_of_mem a ha')
      intro s bs rest
      have hdef : Codec.each f (a :: l) = f a >>= fun b => Codec.each f l >>= fun bs =>
          Pure.pure (b :: bs) := rfl
      simp only [hdef, bind_eq_ok, pure_eq_ok]
      constructor
      · rintro ⟨b, s', hread, bs', s'', heach, rfl, rfl⟩
        obtain ⟨rfl, hb, hk⟩ := (hfa _ _ _).mp hread
        obtain ⟨rfl, hl, hbs⟩ := (ih _ _ _).mp heach
        refine ⟨by rw [List.flatMap_cons, List.append_assoc], by rw [List.map_cons, hk, hl], ?_⟩
        exact List.forall_mem_cons.mpr ⟨hb, hbs⟩
      · rintro ⟨rfl, hmap, hall⟩
        cases bs with
        | nil => simp at hmap
        | cons b bs =>
            obtain ⟨hb, hbs⟩ := List.forall_mem_cons.mp hall
            rw [List.map_cons, List.cons.injEq] at hmap
            rw [List.flatMap_cons, List.append_assoc]
            exact ⟨b, _, (hfa _ _ _).mpr ⟨rfl, hb, hmap.1⟩, bs, rest,
              (ih _ _ _).mpr ⟨rfl, hmap.2, hbs⟩, rfl, rfl⟩

/-- Of two valid values only one is at the front of an input. -/
theorem unique (h : Exact read write valid) {a b : α} {s t : List ι} (ha : valid a) (hb : valid b)
    (heq : write a ++ s = write b ++ t) : a = b ∧ s = t := by
  have hread := (h _ a s).mpr ⟨rfl, ha⟩
  rw [heq, (h _ b t).mpr ⟨rfl, hb⟩] at hread
  cases hread
  exact ⟨rfl, rfl⟩

theorem injective (h : Exact read write valid) {a b : α} (ha : valid a) (hb : valid b)
    (heq : write a = write b) : a = b :=
  (h.unique ha hb (congrArg (· ++ []) heq)).1

end Exact

end Codec
end Shulcrum
