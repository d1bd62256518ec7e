import Mathlib.Data.List.DropRight
import Mathlib.Data.Nat.Digits.Lemmas
import Mathlib.Tactic

/-!
# Changing the base of a number

The digits of a number are written again in another base.  They are taken one at
a time, the most significant first, and the number so far is multiplied by the
old base in an array of fixed size.  Leading zeros are not part of the number;
they are counted and put back.

**Results.**
* `Holds.push`, `foldlM_push`: the array holds the number that was read so far.
* `toBase_toBase`: the change of base is undone by the change back.
* `pow_le_size`: the sizes that suffice.
-/

namespace Shulcrum
namespace Radix

/-! ## Numbers with leading zeros -/

/-- The number of zeros in front. -/
def zeroes (xs : List Nat) : Nat := (xs.takeWhile (· == 0)).length

/-- The digits from the first one that is not zero. -/
def significant (xs : List Nat) : List Nat := xs.dropWhile (· == 0)

/-- The number with these digits, the most significant first. -/
def number (m : Nat) (xs : List Nat) : Nat := Nat.ofDigits m xs.reverse

/-- The digits in base `b` of a number given in base `m`, leading zeros kept. -/
def toBase (b m : Nat) (xs : List Nat) : List Nat :=
  List.replicate (zeroes xs) 0 ++ (Nat.digits b (number m (significant xs))).reverse

theorem zeroes_append_significant (xs : List Nat) :
    List.replicate (zeroes xs) 0 ++ significant xs = xs := by
  have hzero : xs.takeWhile (· == 0) = List.replicate (zeroes xs) 0 := by
    refine List.eq_replicate_of_mem fun x hx => ?_
    simpa using List.mem_takeWhile_imp hx
  rw [← hzero]
  exact List.takeWhile_append_dropWhile

theorem head?_significant_ne (xs : List Nat) : (significant xs).head? ≠ some 0 := by
  intro h
  have hhead := List.head?_dropWhile_not (· == 0) xs
  rw [significant] at h
  rw [h] at hhead
  simp at hhead

theorem zeroes_replicate_append (k : Nat) {ys : List Nat} (h : ys.head? ≠ some 0) :
    zeroes (List.replicate k 0 ++ ys) = k := by
  induction k with
  | zero =>
      cases ys with
      | nil => rfl
      | cons y ys =>
          have hy : y ≠ 0 := fun hy => h (by rw [hy]; rfl)
          simp [zeroes, hy]
  | succ k ih => simpa [zeroes, List.replicate_succ] using ih

theorem significant_replicate_append (k : Nat) {ys : List Nat} (h : ys.head? ≠ some 0) :
    significant (List.replicate k 0 ++ ys) = ys := by
  induction k with
  | zero =>
      cases ys with
      | nil => rfl
      | cons y ys =>
          have hy : y ≠ 0 := fun hy => h (by rw [hy]; rfl)
          simp [significant, hy]
  | succ k ih => simpa [significant, List.replicate_succ] using ih

/-- Leading zeros found before the digits are. -/
theorem zeroes_map {α : Type} {f : α → Nat} {p : α → Bool} {l : List α}
    (h : ∀ a ∈ l, p a = (f a == 0)) :
    zeroes (l.map f) = (l.takeWhile p).length ∧ significant (l.map f) = (l.dropWhile p).map f := by
  induction l with
  | nil => exact ⟨rfl, rfl⟩
  | cons a l ih =>
      obtain ⟨ha, hl⟩ := List.forall_mem_cons.mp h
      obtain ⟨ihz, ihs⟩ := ih hl
      cases hp : p a with
      | true =>
          rw [hp] at ha
          rw [zeroes] at ihz ⊢
          rw [significant] at ihs ⊢
          simp [hp, ← ha, ihz, ihs]
      | false =>
          rw [hp] at ha
          simp [zeroes, significant, hp, ← ha]

theorem head?_digits_reverse_ne (b n : Nat) : (Nat.digits b n).reverse.head? ≠ some 0 := by
  intro h
  rw [List.head?_reverse] at h
  have hne : Nat.digits b n ≠ [] := fun hnil => by simp [hnil] at h
  rw [List.getLast?_eq_some_getLast hne, Option.some.injEq] at h
  exact Nat.getLast_digit_ne_zero b (Nat.digits_ne_nil_iff_ne_zero.mp hne) h

theorem mem_significant {xs : List Nat} {x : Nat} (h : x ∈ significant xs) : x ∈ xs :=
  (List.dropWhile_sublist _).subset h

theorem digits_number {m : Nat} (hm : 1 < m) {ys : List Nat} (hlt : ∀ y ∈ ys, y < m)
    (hhead : ys.head? ≠ some 0) : Nat.digits m (number m ys) = ys.reverse := by
  refine Nat.digits_ofDigits m hm _ (fun y hy => hlt y (List.mem_reverse.mp hy)) ?_
  intro hne hzero
  rw [List.getLast_reverse] at hzero
  rw [List.head?_eq_some_head (by simpa using hne), hzero] at hhead
  exact hhead rfl

theorem lt_of_mem_toBase {b m : Nat} (hb : 1 < b) {xs : List Nat} {x : Nat}
    (hx : x ∈ toBase b m xs) : x < b := by
  rcases List.mem_append.mp hx with hx | hx
  · rw [List.eq_of_mem_replicate hx]
    omega
  · exact Nat.digits_lt_base hb (List.mem_reverse.mp hx)

/-- Changing the base back gives the digits again. -/
theorem toBase_toBase {b m : Nat} (hm : 1 < m) {xs : List Nat}
    (hlt : ∀ x ∈ xs, x < m) : toBase m b (toBase b m xs) = xs := by
  have hhead := head?_digits_reverse_ne b (number m (significant xs))
  have hz : zeroes (toBase b m xs) = zeroes xs := zeroes_replicate_append _ hhead
  have hsig := significant_replicate_append (zeroes xs) hhead
  have hnumber : number b (significant (toBase b m xs)) = number m (significant xs) := by
    rw [toBase, hsig, number, List.reverse_reverse, Nat.ofDigits_digits]
  have hdigits := digits_number hm (fun y hy => hlt y (mem_significant hy))
    (head?_significant_ne xs)
  rw [toBase, hz, hnumber, hdigits, List.reverse_reverse]
  exact zeroes_append_significant xs

theorem number_lt {m : Nat} (hm : 1 < m) {xs : List Nat} (hlt : ∀ x ∈ xs, x < m) :
    number m xs < m ^ xs.length := by
  have h := Nat.ofDigits_lt_base_pow_length hm (l := xs.reverse)
    (fun x hx => hlt x (List.mem_reverse.mp hx))
  rwa [List.length_reverse] at h

theorem number_append (m : Nat) (xs ys : List Nat) :
    number m (xs ++ ys) = number m xs * m ^ ys.length + number m ys := by
  rw [number, List.reverse_append, Nat.ofDigits_append, List.length_reverse]
  simp only [number]
  ring

theorem number_cons (m d : Nat) (xs : List Nat) :
    number m (d :: xs) = d * m ^ xs.length + number m xs := by
  have hone : number m [d] = d := by simp [number]
  have h := number_append m [d] xs
  rwa [hone] at h

theorem number_concat (m : Nat) (xs : List Nat) (d : Nat) :
    number m (xs ++ [d]) = m * number m xs + d := by
  have hone : number m [d] = d := by simp [number]
  rw [number_append, hone, List.length_singleton, pow_one, mul_comm]

/-- The digits are determined by the number if one knows how many there are. -/
theorem number_injective {m : Nat} (hm : 1 < m) {xs ys : List Nat}
    (hlen : xs.length = ys.length) (hx : ∀ x ∈ xs, x < m) (hy : ∀ y ∈ ys, y < m)
    (h : number m xs = number m ys) : xs = ys := by
  refine List.reverse_injective ?_
  refine Nat.ofDigits_inj_of_len_eq hm (by simpa using hlen) (fun x hx' => ?_) (fun y hy' => ?_) h
  · exact hx x (List.mem_reverse.mp hx')
  · exact hy y (List.mem_reverse.mp hy')

/-! ## The array -/

/-- Multiply by `m` and add `carry`.  The digits come from the least significant
one, the first `length` of them are in use.  Gives the digits, the carry that is
left and the number of digits now in use. -/
def mulAdd (b m : Nat) : Nat → Nat → List Nat → List Nat × Nat × Nat
  | _, carry, [] => ([], carry, 0)
  | length, carry, d :: ds =>
      if carry ≠ 0 ∨ 0 < length then
        let r := mulAdd b m (length - 1) ((carry + m * d) / b) ds
        ((carry + m * d) % b :: r.1, r.2.1, r.2.2 + 1)
      else (d :: ds, carry, 0)

/-- The array and the number of digits in use after one more digit, unless the
array is too small. -/
def push (b m : Nat) (s : List Nat × Nat) (d : Nat) : Option (List Nat × Nat) :=
  let r := mulAdd b m s.2 d s.1
  if r.2.1 = 0 then some (r.1, r.2.2) else none

/-- The digits in use, from the most significant one that is not zero. -/
def digitsOf (s : List Nat × Nat) : List Nat := significant (s.1.take s.2).reverse

/-- The array of `size` digits holds the number `n`. -/
structure Holds (b size n : Nat) (s : List Nat × Nat) : Prop where
  size_eq : s.1.length = size
  lt : ∀ d ∈ s.1, d < b
  unused : ∀ d ∈ s.1.drop s.2, d = 0
  value : Nat.ofDigits b s.1 = n

theorem ofDigits_eq_zero (b : Nat) {ds : List Nat} (h : ∀ d ∈ ds, d = 0) :
    Nat.ofDigits b ds = 0 := by
  rw [List.eq_replicate_of_mem h, Nat.ofDigits_replicate_zero]

theorem mulAdd_value (b m : Nat) (ds : List Nat) :
    ∀ length carry : Nat, (∀ d ∈ ds.drop length, d = 0) →
      Nat.ofDigits b (mulAdd b m length carry ds).1
          + b ^ ds.length * (mulAdd b m length carry ds).2.1
        = m * Nat.ofDigits b ds + carry := by
  induction ds with
  | nil =>
      intro length carry _
      simp [mulAdd]
  | cons d ds ih =>
      intro length carry hzero
      by_cases hgo : carry ≠ 0 ∨ 0 < length
      · have hrest : ∀ e ∈ ds.drop (length - 1), e = 0 := by
          intro e he
          cases length with
          | zero => exact hzero e (List.mem_cons_of_mem _ (by simpa using he))
          | succ k => exact hzero e (by simpa using he)
        have h := ih (length - 1) ((carry + m * d) / b) hrest
        have hdiv := Nat.mod_add_div (carry + m * d) b
        simp only [mulAdd, if_pos hgo, Nat.ofDigits_cons, List.length_cons, pow_succ]
        calc (carry + m * d) % b
                + b * Nat.ofDigits b (mulAdd b m (length - 1) ((carry + m * d) / b) ds).1
              + b ^ ds.length * b * (mulAdd b m (length - 1) ((carry + m * d) / b) ds).2.1
            = (carry + m * d) % b
                + b * (m * Nat.ofDigits b ds + (carry + m * d) / b) := by
              rw [← h]
              ring
          _ = (carry + m * d) % b + b * ((carry + m * d) / b) + b * (m * Nat.ofDigits b ds) := by
              ring
          _ = m * (d + b * Nat.ofDigits b ds) + carry := by
              rw [hdiv]
              ring
      · obtain ⟨hcarry, hlength⟩ := not_or.mp hgo
        have hcarry : carry = 0 := by omega
        have hlength : length = 0 := by omega
        subst hlength
        have hzero' : ∀ e ∈ d :: ds, e = 0 := hzero
        simp only [mulAdd, if_neg hgo]
        rw [ofDigits_eq_zero b hzero', hcarry]
        simp

theorem mulAdd_array {b : Nat} (hb : 0 < b) (m : Nat) (ds : List Nat) :
    ∀ length carry : Nat, (∀ d ∈ ds, d < b) → (∀ d ∈ ds.drop length, d = 0) →
      (mulAdd b m length carry ds).1.length = ds.length ∧
      (∀ d ∈ (mulAdd b m length carry ds).1, d < b) ∧
      (∀ d ∈ (mulAdd b m length carry ds).1.drop (mulAdd b m length carry ds).2.2, d = 0) := by
  induction ds with
  | nil =>
      intro length carry _ _
      simp [mulAdd]
  | cons d ds ih =>
      intro length carry hlt hzero
      by_cases hgo : carry ≠ 0 ∨ 0 < length
      · have hrest : ∀ e ∈ ds.drop (length - 1), e = 0 := by
          intro e he
          cases length with
          | zero => exact hzero e (List.mem_cons_of_mem _ (by simpa using he))
          | succ k => exact hzero e (by simpa using he)
        obtain ⟨hlen, hlt', hunused⟩ := ih (length - 1) ((carry + m * d) / b)
          (fun e he => hlt e (List.mem_cons_of_mem _ he)) hrest
        simp only [mulAdd, if_pos hgo]
        refine ⟨by simp [hlen], ?_, by simpa using hunused⟩
        intro e he
        rcases List.mem_cons.mp he with rfl | he
        · exact Nat.mod_lt _ hb
        · exact hlt' e he
      · have hlength : length = 0 := by omega
        subst hlength
        have hstop : mulAdd b m 0 carry (d :: ds) = (d :: ds, carry, 0) := if_neg hgo
        rw [hstop]
        exact ⟨rfl, hlt, hzero⟩

theorem holds_zero {b : Nat} (hb : 0 < b) (size : Nat) :
    Holds b size 0 (List.replicate size 0, 0) where
  size_eq := List.length_replicate
  lt d hd := by
    rw [List.eq_of_mem_replicate hd]
    exact hb
  unused d hd := List.eq_of_mem_replicate hd
  value := Nat.ofDigits_replicate_zero

/-- A digit can be added if there is room for it and for what follows. -/
theorem Holds.push {b m size n d k : Nat} {s : List Nat × Nat} (hb : 0 < b)
    (h : Holds b size n s) (hd : d < m) (hroom : (n + 1) * m ^ (k + 1) ≤ b ^ size) :
    ∃ s', push b m s d = some s' ∧ Holds b size (m * n + d) s' ∧
      (m * n + d + 1) * m ^ k ≤ b ^ size := by
  have hm : 0 < m := by omega
  have hroom' : (m * n + d + 1) * m ^ k ≤ b ^ size :=
    calc (m * n + d + 1) * m ^ k ≤ (m * n + m) * m ^ k := Nat.mul_le_mul_right _ (by omega)
      _ = (n + 1) * m ^ (k + 1) := by ring
      _ ≤ b ^ size := hroom
  have hfits : m * n + d < b ^ size :=
    calc m * n + d < m * n + d + 1 := Nat.lt_succ_self _
      _ ≤ (m * n + d + 1) * m ^ k := Nat.le_mul_of_pos_right _ (pow_pos hm k)
      _ ≤ b ^ size := hroom'
  have hvalue := mulAdd_value b m s.1 s.2 d h.unused
  obtain ⟨hlen, hlt, hunused⟩ := mulAdd_array hb m s.1 s.2 d h.lt h.unused
  rw [h.value, h.size_eq] at hvalue
  have hcarry : (mulAdd b m s.2 d s.1).2.1 = 0 := by
    by_contra hne
    have hle : b ^ size * 1 ≤ b ^ size * (mulAdd b m s.2 d s.1).2.1 :=
      Nat.mul_le_mul_left _ (Nat.one_le_iff_ne_zero.mpr hne)
    omega
  refine ⟨_, if_pos hcarry, ⟨hlen.trans h.size_eq, hlt, hunused, ?_⟩, hroom'⟩
  rw [hcarry, mul_zero, add_zero] at hvalue
  exact hvalue

/-- The number after further digits. -/
def extend (m n : Nat) (xs : List Nat) : Nat := xs.foldl (fun n d => m * n + d) n

theorem extend_zero (m : Nat) (xs : List Nat) : extend m 0 xs = number m xs := by
  have h : ∀ n, extend m n xs = n * m ^ xs.length + number m xs := by
    induction xs with
    | nil =>
        intro n
        simp [extend, number]
    | cons d xs ih =>
        intro n
        have hextend : extend m n (d :: xs) = extend m (m * n + d) xs := rfl
        rw [hextend, ih, number_cons, List.length_cons, pow_succ]
        ring
  rw [h 0, zero_mul, zero_add]

/-- The array after all digits of a list. -/
theorem foldlM_push {b m size : Nat} (hb : 0 < b) (xs : List Nat) :
    ∀ {n : Nat} {s : List Nat × Nat}, (∀ x ∈ xs, x < m) → Holds b size n s →
      (n + 1) * m ^ xs.length ≤ b ^ size →
      ∃ s', xs.foldlM (push b m) s = some s' ∧ Holds b size (extend m n xs) s' := by
  induction xs with
  | nil => exact fun _ h _ => ⟨_, rfl, h⟩
  | cons d xs ih =>
      intro n s hlt h hroom
      obtain ⟨hd, hrest⟩ := List.forall_mem_cons.mp hlt
      obtain ⟨s₁, hpush, h₁, hroom₁⟩ := h.push hb hd hroom
      obtain ⟨s', hrun, h'⟩ := ih hrest h₁ hroom₁
      refine ⟨s', ?_, h'⟩
      rw [List.foldlM_cons, hpush]
      exact hrun

/-- The digits that are read off the array are those of the number it holds. -/
theorem Holds.digitsOf_eq {b size n : Nat} {s : List Nat × Nat} (hb : 1 < b)
    (h : Holds b size n s) : digitsOf s = (Nat.digits b n).reverse := by
  have hused : Nat.ofDigits b (s.1.take s.2) = n := by
    have hsplit : Nat.ofDigits b (s.1.take s.2 ++ s.1.drop s.2)
        = Nat.ofDigits b (s.1.take s.2)
          + b ^ (s.1.take s.2).length * Nat.ofDigits b (s.1.drop s.2) := Nat.ofDigits_append
    rw [List.take_append_drop, ofDigits_eq_zero b h.unused, mul_zero, add_zero] at hsplit
    rw [← hsplit, h.value]
  have hnumber : number b (digitsOf s) = n := by
    have hzero := zeroes_append_significant (s.1.take s.2).reverse
    have hwhole : number b (s.1.take s.2).reverse = n := by
      rw [number, List.reverse_reverse, hused]
    rw [← hzero, number, List.reverse_append, List.reverse_replicate,
      Nat.ofDigits_append_replicate_zero] at hwhole
    exact hwhole
  have hlt : ∀ y ∈ digitsOf s, y < b := by
    intro y hy
    exact h.lt y (List.mem_of_mem_take (List.mem_reverse.mp (mem_significant hy)))
  rw [← hnumber, digits_number hb hlt (head?_significant_ne _), List.reverse_reverse]

/-! ## Sizes -/

/-- As many digits as the logarithm asks for, rounded down, and one more. -/
theorem pow_le_size {b m p q : Nat} (hb : 1 < b) (hq : 0 < q) (hpq : m ^ q ≤ b ^ p) (n : Nat) :
    m ^ n ≤ b ^ (n * p / q + 1) := by
  have hexp : p * n ≤ (n * p / q + 1) * q := by
    have h := Nat.lt_div_mul_add (a := n * p) hq
    have hmul : (n * p / q + 1) * q = n * p / q * q + q := by ring
    rw [mul_comm p n, hmul]
    exact h.le
  have hpow : (m ^ n) ^ q ≤ (b ^ (n * p / q + 1)) ^ q :=
    calc (m ^ n) ^ q = (m ^ q) ^ n := by rw [← pow_mul, ← pow_mul, mul_comm]
      _ ≤ (b ^ p) ^ n := Nat.pow_le_pow_left hpq n
      _ = b ^ (p * n) := (pow_mul b p n).symm
      _ ≤ b ^ ((n * p / q + 1) * q) := Nat.pow_le_pow_right (by omega) hexp
      _ = (b ^ (n * p / q + 1)) ^ q := pow_mul b _ q
  exact (Nat.pow_le_pow_iff_left hq.ne').mp hpow

end Radix
end Shulcrum
