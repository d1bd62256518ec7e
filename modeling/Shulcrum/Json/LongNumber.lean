import Shulcrum.Json.Parse
import Mathlib.Data.Rat.Defs
import Mathlib.Algebra.Order.Field.Rat
import Mathlib.Tactic.NormNum
import Mathlib.Tactic.Ring

/-!
# Long numbers

`Container::toVariant` copies the first 47 characters of a number and converts
the copy.  Without a point or an exponent in the copy, what is cut off makes the
conversion fail.  With one of them, `strtod` converts what it finds in the copy,
and nobody looks at the rest.

**Results.**
* `decimalForm_of_parts`: what `strtod` reads of a number of the grammar.
* `numToVariant_cut_integer`: a long run of digits is out of range.
* `number_read_iff`: when a number token is read as the number that it denotes.
-/

namespace Shulcrum
namespace Json

/-! ## Decimal numbers -/

section Decimal

/-- A decimal number: `mantissa / 10 ^ fracDigits * 10 ^ exponent`, with a sign. -/
structure DecimalForm where
  negative : Bool
  mantissa : Nat
  fracDigits : Nat
  exponent : Int
  deriving DecidableEq

/-- The size of a decimal number. -/
def DecimalForm.magnitude (n : DecimalForm) : ℚ :=
  n.mantissa * (10 : ℚ) ^ (n.exponent - n.fracDigits)

/-- The number after the letter of an exponent. -/
def exponentValue (raw : QByteArray) : Int :=
  if raw.head? = some 0x2d then -decimal ((skipSign raw).takeWhile jsonIsDigit)
  else decimal ((skipSign raw).takeWhile jsonIsDigit)

/-- The exponent at the start of a text, `0` if there is none or no digits follow it. -/
def leadingExponent : QByteArray → Int
  | [] => 0
  | e :: raw =>
      if (e = 0x65 ∨ e = 0x45) ∧ startsWithDigit (skipSign raw) then exponentValue raw else 0

/-- The digits after a point at the start of a text. -/
def leadingFrac : QByteArray → QByteArray
  | [] => []
  | ch :: raw => if ch = 0x2e then raw.takeWhile jsonIsDigit else []

/-- What comes after a point and its digits. -/
def afterFrac : QByteArray → QByteArray
  | [] => []
  | ch :: raw => if ch = 0x2e then raw.dropWhile jsonIsDigit else ch :: raw

/-- The decimal number that `std::strtod` finds at the start of a text in the C locale: a sign,
digits with a point, and an exponent if it has digits. -/
def decimalForm (text : QByteArray) : DecimalForm :=
  let negative : Bool := text.head? = some 0x2d
  let digits := if negative then text.tail else text
  let int := digits.takeWhile jsonIsDigit
  let raw := digits.dropWhile jsonIsDigit
  { negative := negative
    mantissa := decimal (int ++ leadingFrac raw)
    fracDigits := (leadingFrac raw).length
    exponent := leadingExponent (afterFrac raw) }

/-- A character of a number. -/
def isNumberChar (ch : UInt8) : Bool :=
  jsonIsDigit ch || ch = 0x2d || ch = 0x2b || ch = 0x2e || ch = 0x65 || ch = 0x45

/-- The text has the characters of a number, and begins with a digit after its sign. -/
structure BeginsNumber (text : QByteArray) : Prop where
  chars : ∀ ch ∈ text, isNumberChar ch = true
  digit : startsWithDigit (if text.head? = some 0x2d then text.tail else text) = true

end Decimal

/-- `strtod` rounds the decimal number at the start of the text, and sets `errno` for some of
them. -/
structure Strtod (P : Platform) (round : Bool → ℚ → P.Double) (outOfRange : ℚ → Bool) : Prop where
  value : ∀ text, BeginsNumber text →
    (P.strtod text).value = round (decimalForm text).negative (decimalForm text).magnitude
  rangeError : ∀ text, BeginsNumber text →
    (P.strtod text).rangeError = outOfRange (decimalForm text).magnitude
  parsed : ∀ text, BeginsNumber text → (P.strtod text).parsed ≠ 0

/-- The number that a token of the grammar denotes, with the doubles that `round` gives. -/
inductive IsNumberValue {D : Type} (round : Bool → ℚ → D) : QByteArray → Variant D → Prop
  | negative {int : QByteArray} {i : Int64} : IsInt int → i.toInt = -decimal int →
      IsNumberValue round (0x2d :: int) (.longlong i)
  | nonnegative {int : QByteArray} {u : UInt64} : IsInt int → u.toNat = decimal int →
      IsNumberValue round int (.ulonglong u)
  /-- A number with a fraction or an exponent. -/
  | double {minus int frac exp : QByteArray} : frac ≠ [] ∨ exp ≠ [] →
      minus = [] ∨ minus = [0x2d] → IsInt int → IsFrac frac → IsExp exp →
      IsNumberValue round (minus ++ int ++ frac ++ exp)
        (.double (round (decide (minus = [0x2d]))
          (decimal (int ++ frac.tail) * (10 : ℚ) ^ (exponentValue exp.tail - frac.tail.length))))

/-! ## What is read of a number of the grammar -/

section Parts

variable {minus int frac exp raw text : QByteArray}

theorem startsWithDigit_exp (he : IsExp exp) : startsWithDigit exp = false := by
  cases he with
  | absent => rfl
  | exponent hch _ _ _ =>
      rcases hch with rfl | rfl
      · rfl
      · rfl

theorem leadingFrac_append (hf : IsFrac frac) (he : IsExp exp) :
    leadingFrac (frac ++ exp) = frac.tail ∧ afterFrac (frac ++ exp) = exp := by
  cases hf with
  | absent =>
      cases he with
      | absent => exact ⟨rfl, rfl⟩
      | exponent hch _ _ _ =>
          rcases hch with rfl | rfl
          · exact ⟨rfl, rfl⟩
          · exact ⟨rfl, rfl⟩
  | @point ds _ hds =>
      have hstop := startsWithDigit_exp he
      rw [List.cons_append, leadingFrac, afterFrac, if_pos rfl, if_pos rfl,
        takeWhile_digits_append hds hstop, dropWhile_digits_append hds hstop]
      exact ⟨rfl, rfl⟩

theorem leadingExponent_eq (he : IsExp exp) : leadingExponent exp = exponentValue exp.tail := by
  cases he with
  | absent => rfl
  | @exponent e sign ds hch hsign hne hds =>
      have hdigit : startsWithDigit (skipSign (sign ++ ds)) = true := by
        have hskip := skipSign_append hsign hne hds []
        rw [List.append_nil, List.append_nil] at hskip
        rw [hskip]
        simpa using startsWithDigit_append hne hds []
      rw [leadingExponent, if_pos ⟨hch, hdigit⟩]
      rfl

/-- What `strtod` reads of a number of the grammar. -/
theorem decimalForm_of_parts (hminus : minus = [] ∨ minus = [0x2d]) (hint : IsInt int)
    (hfrac : IsFrac frac) (hexp : IsExp exp) :
    decimalForm (minus ++ int ++ frac ++ exp) =
      { negative := decide (minus = [0x2d])
        mantissa := decimal (int ++ frac.tail)
        fracDigits := frac.tail.length
        exponent := exponentValue exp.tail } := by
  have hstop : startsWithDigit (frac ++ exp) = false := by
    cases hfrac with
    | absent => exact startsWithDigit_exp hexp
    | point _ _ => rfl
  obtain ⟨hlead, hafter⟩ := leadingFrac_append hfrac hexp
  have hsign : (minus ++ int ++ frac ++ exp).head? = some 0x2d ↔ minus = [0x2d] := by
    rcases hminus with rfl | rfl
    · cases int with
      | nil => exact absurd rfl hint.ne_nil
      | cons d int =>
          simp only [List.nil_append, List.cons_append, List.head?_cons, Option.some.injEq]
          refine ⟨?_, nofun⟩
          rintro rfl
          cases hint.allDigits _ List.mem_cons_self
    · simp
  have hdigits : (if minus = [0x2d] then (minus ++ int ++ frac ++ exp).tail
      else minus ++ int ++ frac ++ exp) = int ++ (frac ++ exp) := by
    rcases hminus with rfl | rfl
    · simp
    · simp
  simp only [decimalForm, hsign, decide_eq_true_eq, hdigits,
    takeWhile_digits_append hint.allDigits hstop, dropWhile_digits_append hint.allDigits hstop,
    hlead, hafter, leadingExponent_eq hexp]

/-! ## A part of a number -/

theorem isNumberChar_of_digit {ch : UInt8} (h : jsonIsDigit ch = true) :
    isNumberChar ch = true := by
  simp [isNumberChar, h]

theorem IsFrac.chars (h : IsFrac frac) : ∀ ch ∈ frac, isNumberChar ch = true := by
  cases h with
  | absent => simp
  | point _ hds =>
      intro ch hch
      rcases List.mem_cons.mp hch with rfl | hch
      · rfl
      · exact isNumberChar_of_digit (hds ch hch)

theorem IsExp.chars (h : IsExp exp) : ∀ ch ∈ exp, isNumberChar ch = true := by
  cases h with
  | absent => simp
  | exponent he hsign _ hds =>
      intro ch hch
      rcases List.mem_cons.mp hch with rfl | hch
      · rcases he with rfl | rfl
        · rfl
        · rfl
      rcases List.mem_append.mp hch with hch | hch
      · rcases hsign with rfl | rfl | rfl
        · cases hch
        · rw [List.mem_singleton.mp hch]
          rfl
        · rw [List.mem_singleton.mp hch]
          rfl
      · exact isNumberChar_of_digit (hds ch hch)

theorem beginsNumber_of_isNumber (h : IsNumber text) : BeginsNumber text := by
  cases h with
  | @mk minus int frac exp hminus hint hfrac hexp =>
      have hint' := hint.allDigits
      have hdigit := startsWithDigit_append hint.ne_nil hint' (frac ++ exp)
      constructor
      · intro ch hch
        simp only [List.mem_append] at hch
        rcases hch with ((hch | hch) | hch) | hch
        · rcases hminus with rfl | rfl
          · cases hch
          · rw [List.mem_singleton.mp hch]
            rfl
        · exact isNumberChar_of_digit (hint' ch hch)
        · exact hfrac.chars ch hch
        · exact hexp.chars ch hch
      · rcases hminus with rfl | rfl
        · cases int with
          | nil => exact absurd rfl hint.ne_nil
          | cons d int =>
              have hd := hint' d List.mem_cons_self
              have hne : d ≠ 0x2d := by
                rintro rfl
                cases hd
              simp [hne, startsWithDigit, hd]
        · simpa using hdigit

/-- A part with two characters or more still begins with a digit. -/
theorem BeginsNumber.take (h : BeginsNumber text) {k : Nat} (hk : 2 ≤ k) :
    BeginsNumber (text.take k) := by
  obtain ⟨k, rfl⟩ := Nat.exists_eq_add_of_le' hk
  refine ⟨fun ch hch => h.chars ch (List.mem_of_mem_take hch), ?_⟩
  have hdigit := h.digit
  cases text with
  | nil => exact hdigit
  | cons ch text =>
      rw [List.take_succ_cons, List.head?_cons, List.tail_cons]
      rw [List.head?_cons, List.tail_cons] at hdigit
      by_cases hch : some ch = some (0x2d : UInt8)
      · rw [if_pos hch] at hdigit ⊢
        cases text with
        | nil => exact hdigit
        | cons d text => exact hdigit
      · rw [if_neg hch] at hdigit ⊢
        exact hdigit

theorem negative_take (text : QByteArray) {k : Nat} (hk : 0 < k) :
    (decimalForm (text.take k)).negative = (decimalForm text).negative := by
  cases text with
  | nil => rw [List.take_nil]
  | cons ch text =>
      cases k with
      | zero => cases hk
      | succ k => rfl

end Parts

/-- The part of a token that is converted is all of it, or does not give another double. -/
def CutKeeps {D : Type} (round : Bool → ℚ → D) (outOfRange : ℚ → Bool) (text : QByteArray) : Prop :=
  text.length ≤ 47 ∨ ¬ HasPoint (text.take 47) ∨
    outOfRange (decimalForm (text.take 47)).magnitude = true ∨
    round (decimalForm text).negative (decimalForm (text.take 47)).magnitude =
      round (decimalForm text).negative (decimalForm text).magnitude

section Cut

variable {P : Platform} {round : Bool → ℚ → P.Double} {outOfRange : ℚ → Bool} {text : QByteArray}

/-! ## Digits that were cut -/

theorem mul_pow_le_foldl (ds : QByteArray) (n : Nat) :
    n * 10 ^ ds.length ≤ ds.foldl (fun n d => 10 * n + (d.toNat - 0x30)) n := by
  induction ds generalizing n with
  | nil => simp
  | cons d ds ih =>
      rw [List.foldl_cons, List.length_cons]
      calc n * 10 ^ (ds.length + 1) = 10 * n * 10 ^ ds.length := by ring
        _ ≤ (10 * n + (d.toNat - 0x30)) * 10 ^ ds.length :=
            Nat.mul_le_mul_right _ (Nat.le_add_right _ _)
        _ ≤ _ := ih _

/-- Digits without a leading zero are at least a power of ten. -/
theorem pow_le_decimal {d : UInt8} {ds : QByteArray} (hd : jsonIsDigit d = true) (hne : d ≠ 0x30) :
    10 ^ ds.length ≤ decimal (d :: ds) := by
  have hpos : 1 ≤ 10 * 0 + (d.toNat - 0x30) := by
    have hle : 0x30 ≤ d.toNat := by
      have hge : (0x30 : UInt8) ≤ d := by
        simp only [jsonIsDigit, Bool.and_eq_true, decide_eq_true_eq] at hd
        exact hd.1
      exact UInt8.le_iff_toNat_le.mp hge
    have hnat : d.toNat ≠ 0x30 := fun heq => hne (UInt8.toNat_inj.mp heq)
    omega
  calc 10 ^ ds.length = 1 * 10 ^ ds.length := (Nat.one_mul _).symm
    _ ≤ (10 * 0 + (d.toNat - 0x30)) * 10 ^ ds.length := Nat.mul_le_mul_right _ hpos
    _ ≤ decimal (d :: ds) := mul_pow_le_foldl ds _

/-- Between the digits and the end of a number is a point or the letter of an exponent. -/
theorem head_frac_exp {frac exp : QByteArray} (hfrac : IsFrac frac) (hexp : IsExp exp) {ch : UInt8}
    (hch : ch ∈ (frac ++ exp).head?) : ch = 0x2e ∨ ch = 0x65 ∨ ch = 0x45 := by
  cases hfrac with
  | point _ _ => exact .inl (Option.some.inj hch).symm
  | absent =>
      cases hexp with
      | absent => cases hch
      | exponent he _ _ _ =>
          rw [← Option.some.inj hch]
          exact .inr he

/-- Where the copy of a long number has neither point nor exponent, it is a long run of digits. -/
theorem digits_of_cut (ht : IsNumber text) (hlen : 47 < text.length)
    (hp : ¬ HasPoint (text.take 47)) :
    ∃ minus d ds, (minus = [] ∨ minus = [0x2d]) ∧ text.take 47 = minus ++ d :: ds ∧
      jsonIsDigit d = true ∧ d ≠ 0x30 ∧ AllDigits ds ∧ 45 ≤ ds.length := by
  cases ht with
  | @mk minus int frac exp hminus hint hfrac hexp =>
      rw [List.append_assoc] at hlen hp ⊢
      have hlong : 47 ≤ (minus ++ int).length := by
        by_contra hshort
        rw [not_le] at hshort
        rw [List.length_append] at hlen
        cases hrest : frac ++ exp with
        | nil =>
            rw [hrest, List.length_nil] at hlen
            omega
        | cons ch rest =>
            obtain ⟨k, hk⟩ : ∃ k, 47 - (minus ++ int).length = k + 1 := ⟨46 - (minus ++ int).length,
              by omega⟩
            have hmem : ch ∈ ((minus ++ int) ++ (frac ++ exp)).take 47 := by
              rw [hrest, List.take_append, hk, List.take_succ_cons]
              exact List.mem_append_right _ List.mem_cons_self
            have hch := @head_frac_exp _ _ hfrac hexp ch (by rw [hrest]; rfl)
            apply hp
            rcases hch with rfl | rfl | rfl
            · exact .inl hmem
            · exact .inr (.inl hmem)
            · exact .inr (.inr hmem)
      rw [List.length_append] at hlong
      have hminus' : minus.length ≤ 1 := by
        rcases hminus with rfl | rfl
        · exact Nat.zero_le 1
        · exact le_refl 1
      obtain ⟨k, hk⟩ : ∃ k, 47 - minus.length = k + 1 := ⟨46 - minus.length, by omega⟩
      have htake : ((minus ++ int) ++ (frac ++ exp)).take 47 = minus ++ int.take (k + 1) := by
        rw [List.take_append_of_le_length (by rw [List.length_append]; omega), List.take_append,
          List.take_of_length_le (by omega), hk]
      cases hint with
      | zero => simp at hlong; omega
      | @digits d ds hd hne hds =>
          rw [List.length_cons] at hlong
          refine ⟨minus, d, ds.take k, hminus, by rw [htake, List.take_succ_cons], hd, hne,
            fun x hx => hds x (List.mem_of_mem_take hx), ?_⟩
          rw [List.length_take]
          omega

/-- A long run of digits is out of range. -/
theorem numToVariant_cut_integer (ht : IsNumber text) (hlen : 47 < text.length)
    (hp : ¬ HasPoint (text.take 47)) : numToVariant P text = none := by
  obtain ⟨minus, d, ds, hminus, htake, hd, hne, hds, hlong⟩ := digits_of_cut ht hlen hp
  have hbig : 10 ^ 45 ≤ decimal (d :: ds) :=
    (Nat.pow_le_pow_right (by decide) hlong).trans (pow_le_decimal hd hne)
  have hall : AllDigits (d :: ds) := by
    intro x hx
    rcases List.mem_cons.mp hx with rfl | hx
    · exact hd
    · exact hds x hx
  have hnonempty : text ≠ [] := by
    rintro rfl
    simp at hlen
  rw [numToVariant, if_neg (by simpa using hnonempty)]
  dsimp only
  rw [HasPoint] at hp
  rw [if_neg hp, htake]
  rcases hminus with rfl | rfl
  · have hhead : ([] ++ d :: ds).head? ≠ some (0x2d : UInt8) := by
      rintro heq
      rw [List.nil_append, List.head?_cons, Option.some.injEq] at heq
      rw [heq] at hd
      cases hd
    rw [if_neg hhead, List.nil_append, strtoull, takeWhile_allDigits hall]
    have hover : 2 ^ 64 - 1 < decimal (d :: ds) := by omega
    simp only [hover, decide_true, Bool.not_true, Bool.false_and, Bool.false_eq_true, if_false]
  · have hunder : (-decimal (d :: ds) : Int) < -2 ^ 63 := by omega
    have hll : (strtoll ([0x2d] ++ d :: ds)).rangeError = true := by
      simp only [strtoll, List.singleton_append, List.head?_cons, decide_true, if_true,
        List.tail_cons, takeWhile_allDigits hall, hunder, Bool.true_or]
    have hhead : ([0x2d] ++ d :: ds).head? = some (0x2d : UInt8) := rfl
    rw [if_pos hhead, hll]
    rfl

/-- With a point or an exponent in the copy, `strtod` converts it. -/
theorem numToVariant_cut_double (hp : HasPoint (text.take 47)) :
    numToVariant P text =
      if (P.strtod (text.take 47)).rangeError = false ∧ (P.strtod (text.take 47)).parsed ≠ 0 then
        some (.double (P.strtod (text.take 47)).value)
      else none := by
  have hne : text ≠ [] := by
    rintro rfl
    simp [HasPoint] at hp
  rw [HasPoint] at hp
  rw [numToVariant, if_neg (by simpa using hne)]
  dsimp only
  rw [if_pos hp]
  simp

/-- The double that a number of the grammar denotes. -/
theorem isNumberValue_double_iff (ht : IsNumber text) (hp : HasPoint text) {x : P.Double} :
    IsNumberValue round text (.double x) ↔
      x = round (decimalForm text).negative (decimalForm text).magnitude := by
  constructor
  · intro h
    cases h with
    | double _ hminus hint hfrac hexp =>
        rw [decimalForm_of_parts hminus hint hfrac hexp]
        rfl
  · rintro rfl
    cases ht with
    | @mk minus int frac exp hminus hint hfrac hexp =>
        rw [decimalForm_of_parts hminus hint hfrac hexp]
        refine .double ?_ hminus hint hfrac hexp
        by_contra hnone
        rw [not_or, not_not, not_not] at hnone
        obtain ⟨rfl, rfl⟩ := hnone
        rw [List.append_nil, List.append_nil] at hp
        have hno := not_hasPoint_of_allDigits hint.allDigits
        rcases hminus with rfl | rfl
        · exact hno hp
        · exact hno (by simpa [HasPoint] using hp)

/-- A short token without point and exponent is read as its integer. -/
theorem isNumberValue_of_short (ht : IsNumber text) (hlen : text.length ≤ 47)
    (hp : ¬ HasPoint text) {v : Variant P.Double} (h : numToVariant P text = some v) :
    IsNumberValue round text v := by
  cases (numToVariant_iff ht hlen).mp h with
  | negative hint hi => exact .negative hint hi
  | nonnegative hint hu => exact .nonnegative hint hu
  | double hne _ _ hfrac hexp _ _ => exact absurd (hasPoint_of_parts hne hfrac hexp) hp

theorem hasPoint_of_take (hp : HasPoint (text.take 47)) : HasPoint text :=
  hp.imp List.mem_of_mem_take (Or.imp List.mem_of_mem_take List.mem_of_mem_take)

/-- A number by itself is a document. -/
theorem parse_number (ht : IsNumber text) {ws ws' : QByteArray} (hws : Blank ws)
    (hws' : Blank ws') :
    parse P (ws ++ text ++ ws') = (Container.num text).toVariant P := by
  have hspell : Spells [.number text] (ws ++ text ++ ws') := .cons hws (.number ht) (.nil hws')
  have hsep : Separated [.number text] := List.isChain_singleton _
  refine Option.ext fun v => ?_
  rw [parse_eq_some]
  constructor
  · rintro ⟨toks, c, hspell', hvalue, hv⟩
    obtain rfl := hspell.unique hsep hspell' hvalue.separated
    cases hvalue with
    | number => exact hv
  · intro hv
    exact ⟨_, _, hspell, .number, hv⟩

/--
A number token is read as the number it denotes, or not at all, iff what is cut
off after 47 characters does not matter: nothing is cut off, the rest is a run
of digits, or it is out of range or rounds to the same double as the whole.
-/
theorem number_read_iff (hstrtod : Strtod P round outOfRange) (ht : IsNumber text) :
    ((∀ v, (Container.num text).toVariant P = some v → IsNumberValue round text v) ↔
        CutKeeps round outOfRange text) ∧
      ∀ ws ws', Blank ws → Blank ws' →
        parse P (ws ++ text ++ ws') = (Container.num text).toVariant P := by
  refine ⟨?_, fun ws ws' => parse_number ht⟩
  have hcut := (beginsNumber_of_isNumber ht).take (by decide : 2 ≤ 47)
  simp only [Container.toVariant]
  by_cases hp : HasPoint (text.take 47)
  · have hwhole := hasPoint_of_take hp
    rw [numToVariant_cut_double hp, hstrtod.rangeError _ hcut, hstrtod.value _ hcut,
      negative_take text (by decide)]
    have hparsed := hstrtod.parsed _ hcut
    have hsame : text.length ≤ 47 → text.take 47 = text := take_of_short
    cases hrange : outOfRange (decimalForm (text.take 47)).magnitude with
    | true => simp [CutKeeps, hrange]
    | false =>
        simp only [hparsed, ne_eq, not_false_eq_true, and_self, if_true, Option.some.injEq,
          forall_eq', isNumberValue_double_iff ht hwhole]
        constructor
        · intro heq
          exact .inr (.inr (.inr heq))
        · rintro (hlen | hno | hout | heq)
          · rw [hsame hlen]
          · exact absurd hp hno
          · rw [hrange] at hout
            cases hout
          · exact heq
  · refine iff_of_true (fun v hv => ?_) (.inr (.inl hp))
    rcases Nat.lt_or_ge 47 text.length with hlen | hlen
    · rw [numToVariant_cut_integer ht hlen hp] at hv
      cases hv
    · rw [take_of_short hlen] at hp
      exact isNumberValue_of_short ht hlen hp hv

end Cut

section LongText

/-- A number with its sign. -/
def signed (negative : Bool) (x : ℚ) : ℚ := if negative then -x else x

/-- Numbers that are never rounded, and strings of ASCII characters. -/
def exactPlatform : Platform where
  Double := ℚ
  strtod text :=
    { value := signed (decimalForm text).negative (decimalForm text).magnitude
      rangeError := false
      parsed := text.length }
  printDouble _ := none
  fromUtf8 ba := ⟨ba.map fun ch => Char.ofNat ch.toNat⟩

theorem strtod_exactPlatform : Strtod exactPlatform signed (fun _ => false) where
  value _ _ := rfl
  rangeError _ _ := rfl
  parsed text h := by
    have hne : text ≠ [] := by
      rintro rfl
      cases h.digit
    simpa [exactPlatform] using hne

/-- The number 1 with 45 zeros after the point, times 10 to the 5. -/
def longText : QByteArray := 0x31 :: 0x2e :: (List.replicate 45 0x30 ++ [0x65, 0x35])

theorem isNumber_longText : IsNumber longText := by
  have hint : IsInt [0x31] := .digits rfl (by decide) nofun
  have hfrac : IsFrac (0x2e :: List.replicate 45 0x30) :=
    .point (by simp) fun d hd => by rw [(List.mem_replicate.mp hd).2]; rfl
  have hexp : IsExp (0x65 :: ([] ++ [0x35])) :=
    .exponent (.inl rfl) (.inl rfl) (by simp) fun d hd => by rw [List.mem_singleton.mp hd]; rfl
  exact .mk (.inl rfl) hint hfrac hexp

theorem decimalForm_longText :
    decimalForm longText = ⟨false, 10 ^ 45, 45, 5⟩ ∧
      decimalForm (longText.take 47) = ⟨false, 10 ^ 45, 45, 0⟩ := by
  decide

/-- A long number is read as the number it denotes iff what is cut off does not matter. -/
theorem number_read_iff_longText :
    ((∀ v, (Container.num longText).toVariant exactPlatform = some v →
        IsNumberValue signed longText v) ↔ CutKeeps signed (fun _ => false) longText) ∧
      ∀ ws ws', Blank ws → Blank ws' → parse exactPlatform (ws ++ longText ++ ws') =
        (Container.num longText).toVariant exactPlatform :=
  number_read_iff strtod_exactPlatform isNumber_longText

/-- The exponent is cut off, and `100000` is read as `1`. -/
theorem longText_misread :
    IsNumber longText ∧ parse exactPlatform longText = some (.double (1 : ℚ)) ∧
      ¬ IsNumberValue signed longText (.double (1 : ℚ)) := by
  obtain ⟨hwhole, hcut⟩ := decimalForm_longText
  have hp : HasPoint (longText.take 47) := .inl (by decide)
  refine ⟨isNumber_longText, ?_, fun hvalue => ?_⟩
  · have hblank : Blank [] := by simp [Blank]
    have hdoc : parse exactPlatform ([] ++ longText ++ []) =
        (Container.num longText).toVariant exactPlatform :=
      parse_number isNumber_longText hblank hblank
    rw [List.nil_append, List.append_nil] at hdoc
    have hone : (exactPlatform.strtod (longText.take 47)).value = (1 : ℚ) := by
      simp only [exactPlatform, hcut, signed, DecimalForm.magnitude]
      norm_num
    have hread : (exactPlatform.strtod (longText.take 47)).rangeError = false ∧
        (exactPlatform.strtod (longText.take 47)).parsed ≠ 0 := ⟨rfl, by decide⟩
    rw [hdoc, Container.toVariant, numToVariant_cut_double hp, if_pos hread, hone]
  · have heq : (1 : ℚ) = signed (decimalForm longText).negative (decimalForm longText).magnitude :=
      (@isNumberValue_double_iff exactPlatform signed longText isNumber_longText
        (hasPoint_of_take hp) (1 : ℚ)).mp hvalue
    simp only [hwhole, signed, DecimalForm.magnitude] at heq
    norm_num at heq

end LongText

end Json
end Shulcrum
