import Shulcrum.Json.Grammar
import Mathlib.Data.List.TakeWhile

/-!
# Number tokens

`scanNumber` finds the end of a number of the grammar, and the conversions of
`Container::toVariant` give an integer exactly or fail.

**Results.**
* `exists_isNumber_of_scan`, `scanNumber_append`: a scan reads a number of the
  grammar, and reads it as far as it goes.
* `numToVariant_iff`: what a number token of at most 47 characters denotes.
-/

namespace Shulcrum
namespace Json

variable {raw rest ds int frac exp : List UInt8}

/-! ## Digits -/

theorem allDigits_takeWhile (raw : List UInt8) : AllDigits (raw.takeWhile jsonIsDigit) :=
  List.all_eq_true.mp List.all_takeWhile

theorem dropWhile_digits (h : startsWithDigit raw = false) : raw.dropWhile jsonIsDigit = raw := by
  cases raw with
  | nil => rfl
  | cons ch raw => exact List.dropWhile_cons_of_neg (by simp [startsWithDigit] at h; simp [h])

theorem dropWhile_digits_append (hd : AllDigits ds) (h : startsWithDigit rest = false) :
    (ds ++ rest).dropWhile jsonIsDigit = rest := by
  rw [List.dropWhile_append_of_pos hd, dropWhile_digits h]

theorem takeWhile_digits_append (hd : AllDigits ds) (h : startsWithDigit rest = false) :
    (ds ++ rest).takeWhile jsonIsDigit = ds := by
  rw [List.takeWhile_append_of_pos hd]
  cases rest with
  | nil => exact List.append_nil ds
  | cons ch rest =>
      have hch : ¬ jsonIsDigit ch = true := by simpa [startsWithDigit] using h
      rw [List.takeWhile_cons_of_neg hch, List.append_nil]

theorem takeWhile_digits_ne_nil (h : startsWithDigit raw = true) :
    raw.takeWhile jsonIsDigit ≠ [] := by
  cases raw with
  | nil => cases h
  | cons ch raw =>
      have hch : jsonIsDigit ch = true := h
      rw [List.takeWhile_cons_of_pos hch]
      simp

theorem startsWithDigit_append (hne : ds ≠ []) (hd : AllDigits ds) (rest : List UInt8) :
    startsWithDigit (ds ++ rest) = true := by
  cases ds with
  | nil => exact absurd rfl hne
  | cons d ds => exact hd d List.mem_cons_self

theorem IsInt.allDigits (h : IsInt int) : AllDigits int := by
  cases h with
  | zero =>
      intro x hx
      rw [List.mem_singleton.mp hx]
      decide
  | digits hd _ hds =>
      intro x hx
      rcases List.mem_cons.mp hx with rfl | hx
      · exact hd
      · exact hds x hx

theorem IsInt.ne_nil (h : IsInt int) : int ≠ [] := by
  cases h <;> simp

/-! ## The scan -/

theorem isInt_takeWhile (hd : startsWithDigit raw = true) (hz : hasLeadingZero raw = false) :
    IsInt (raw.takeWhile jsonIsDigit) := by
  cases raw with
  | nil => cases hd
  | cons d raw =>
      have hd : jsonIsDigit d = true := hd
      rw [List.takeWhile_cons_of_pos hd]
      by_cases hzero : d = 0x30
      · subst hzero
        have hno : startsWithDigit raw = false := by simpa [hasLeadingZero] using hz
        have hnil : raw.takeWhile jsonIsDigit = [] := by
          cases raw with
          | nil => rfl
          | cons ch raw => exact List.takeWhile_cons_of_neg (by simpa [startsWithDigit] using hno)
        rw [hnil]
        exact .zero
      · exact .digits hd hzero (allDigits_takeWhile raw)

theorem exists_isFrac (h : scanFrac raw = some rest) :
    ∃ frac, raw = frac ++ rest ∧ IsFrac frac := by
  cases raw with
  | nil =>
      cases h
      exact ⟨[], rfl, .absent⟩
  | cons ch raw =>
      simp only [scanFrac] at h
      split_ifs at h with hch hd
      · cases h
        refine ⟨ch :: raw.takeWhile jsonIsDigit, ?_, ?_⟩
        · rw [List.cons_append, List.takeWhile_append_dropWhile]
        · rw [hch]
          exact .point (takeWhile_digits_ne_nil hd) (allDigits_takeWhile raw)
      · cases h
        exact ⟨[], rfl, .absent⟩

theorem exists_sign (raw : List UInt8) : ∃ sign, raw = sign ++ skipSign raw ∧
    (sign = [] ∨ sign = [0x2d] ∨ sign = [0x2b]) := by
  cases raw with
  | nil => exact ⟨[], rfl, .inl rfl⟩
  | cons ch raw =>
      by_cases hch : ch = 0x2d ∨ ch = 0x2b
      · refine ⟨[ch], ?_, ?_⟩
        · simp [skipSign, hch]
        · rcases hch with rfl | rfl <;> simp
      · exact ⟨[], by simp [skipSign, hch], .inl rfl⟩

theorem exists_isExp (h : scanExp raw = some rest) : ∃ exp, raw = exp ++ rest ∧ IsExp exp := by
  cases raw with
  | nil =>
      cases h
      exact ⟨[], rfl, .absent⟩
  | cons ch raw =>
      simp only [scanExp] at h
      split_ifs at h with hch hd
      · cases h
        obtain ⟨sign, hraw, hsign⟩ := exists_sign raw
        refine ⟨ch :: (sign ++ (skipSign raw).takeWhile jsonIsDigit), ?_, ?_⟩
        · rw [List.cons_append, List.append_assoc, List.takeWhile_append_dropWhile, ← hraw]
        · exact .exponent hch hsign (takeWhile_digits_ne_nil hd) (allDigits_takeWhile _)
      · cases h
        exact ⟨[], rfl, .absent⟩

/-- A scan reads a number of the grammar. -/
theorem exists_isNumber_of_scan {ch : UInt8} (hch : ch = 0x2d ∨ jsonIsDigit ch = true)
    (h : scanNumber (ch :: raw) = some rest) :
    ∃ text, ch :: raw = text ++ rest ∧ IsNumber text := by
  -- the digits begin after the minus sign
  have hsplit : ∃ minus digits, ch :: raw = minus ++ digits ∧ (minus = [] ∨ minus = [0x2d]) ∧
      startsWithDigit digits = true ∧ hasLeadingZero digits = false ∧
      (scanFrac (digits.dropWhile jsonIsDigit)).bind scanExp = some rest := by
    simp only [scanNumber, List.head?_cons, Option.some.injEq, List.tail_cons] at h
    by_cases hm : ch = 0x2d
    · subst hm
      simp only [decide_true, if_true, Bool.true_and] at h
      split_ifs at h with hz hd
      exact ⟨[0x2d], raw, rfl, .inr rfl, by simpa using hd, by simpa using hz, h⟩
    · have hd := hch.resolve_left hm
      simp only [hm, decide_false, Bool.false_eq_true, if_false, Bool.false_and] at h
      split_ifs at h with hz
      refine ⟨[], ch :: raw, rfl, .inl rfl, hd, by simpa using hz, ?_⟩
      rw [List.dropWhile_cons_of_pos hd, h]
  obtain ⟨minus, digits, hraw, hminus, hd, hz, hscan⟩ := hsplit
  obtain ⟨raw₁, hfrac, hexp⟩ := Option.bind_eq_some_iff.mp hscan
  obtain ⟨frac, hraw₁, hf⟩ := exists_isFrac hfrac
  obtain ⟨exp, rfl, he⟩ := exists_isExp hexp
  refine ⟨_, ?_, .mk hminus (isInt_takeWhile hd hz) hf he⟩
  have hdigits : digits = digits.takeWhile jsonIsDigit ++ (frac ++ (exp ++ rest)) := by
    rw [← hraw₁, List.takeWhile_append_dropWhile]
  simp only [List.append_assoc]
  rw [hraw, ← hdigits]

theorem IsNumber.head {text : QByteArray} (h : IsNumber text) :
    ∀ ch ∈ text.head?, ch = 0x2d ∨ jsonIsDigit ch = true := by
  cases h with
  | @mk minus int frac exp hminus hint _ _ =>
      intro ch hch
      rcases hminus with rfl | rfl
      · cases int with
        | nil => exact absurd rfl hint.ne_nil
        | cons d int =>
            simp only [List.nil_append, List.cons_append, List.head?_cons,
              Option.mem_some_iff] at hch
            exact .inr (hch ▸ hint.allDigits d List.mem_cons_self)
      · simp only [List.cons_append, List.head?_cons, Option.mem_some_iff] at hch
        exact .inl hch.symm

/-- What may follow a number. -/
def NoNumber (raw : List UInt8) : Prop :=
  ∀ ch ∈ raw.head?, jsonIsDigit ch = false ∧ ch ≠ 0x2e ∧ ch ≠ 0x65 ∧ ch ≠ 0x45

theorem NoNumber.startsWithDigit (h : NoNumber raw) : startsWithDigit raw = false := by
  cases raw with
  | nil => rfl
  | cons ch raw => exact (h ch rfl).1

/-- A sign is skipped, and a digit is not. -/
theorem skipSign_append {sign : QByteArray} (hsign : sign = [] ∨ sign = [0x2d] ∨ sign = [0x2b])
    (hne : ds ≠ []) (hds : AllDigits ds) (rest : List UInt8) :
    skipSign (sign ++ ds ++ rest) = ds ++ rest := by
  rcases hsign with rfl | rfl | rfl
  · cases ds with
    | nil => exact absurd rfl hne
    | cons d ds =>
        have hd := hds d List.mem_cons_self
        have h1 : d ≠ 0x2d := by
          rintro rfl
          cases hd
        have h2 : d ≠ 0x2b := by
          rintro rfl
          cases hd
        simp [skipSign, h1, h2]
  · simp [skipSign]
  · simp [skipSign]

theorem scanExp_append (he : IsExp exp) (h : NoNumber rest) :
    scanExp (exp ++ rest) = some rest := by
  cases he with
  | absent =>
      cases rest with
      | nil => rfl
      | cons ch rest =>
          obtain ⟨-, -, h1, h2⟩ := h ch rfl
          simp [scanExp, h1, h2]
  | @exponent e sign ds hch hsign hne hds =>
      have hskip := skipSign_append hsign hne hds rest
      rw [List.cons_append, scanExp, if_pos hch, hskip, if_pos (startsWithDigit_append hne hds _),
        dropWhile_digits_append hds h.startsWithDigit]

/-- After the fraction comes neither a digit nor a point. -/
theorem noDigit_exp_append (he : IsExp exp) (h : NoNumber rest) :
    ∀ ch ∈ (exp ++ rest).head?, jsonIsDigit ch = false ∧ ch ≠ 0x2e := by
  cases he with
  | absent => exact fun ch hch => ⟨(h ch hch).1, (h ch hch).2.1⟩
  | @exponent e sign ds hch _ _ _ =>
      intro ch hmem
      rw [List.cons_append, List.head?_cons, Option.mem_some_iff] at hmem
      subst hmem
      rcases hch with rfl | rfl <;> decide

theorem scanFrac_append (hf : IsFrac frac)
    (h : ∀ ch ∈ rest.head?, jsonIsDigit ch = false ∧ ch ≠ 0x2e) :
    scanFrac (frac ++ rest) = some rest := by
  have hno : startsWithDigit rest = false := by
    cases rest with
    | nil => rfl
    | cons ch rest => exact (h ch rfl).1
  cases hf with
  | absent =>
      cases rest with
      | nil => rfl
      | cons ch rest => simp [scanFrac, (h ch rfl).2]
  | point hne hds =>
      rw [List.cons_append, scanFrac, if_pos rfl, if_pos (startsWithDigit_append hne hds _),
        dropWhile_digits_append hds hno]

theorem hasLeadingZero_append (hi : IsInt int) (h : startsWithDigit rest = false) :
    hasLeadingZero (int ++ rest) = false := by
  cases hi with
  | zero => simpa [hasLeadingZero] using h
  | digits _ hz _ => simp [hasLeadingZero, hz]

/-- After the digits comes no digit. -/
theorem startsWithDigit_frac_append (hf : IsFrac frac) (he : IsExp exp) (h : NoNumber rest) :
    startsWithDigit (frac ++ (exp ++ rest)) = false := by
  cases hf with
  | absent =>
      have hno := noDigit_exp_append he h
      rw [List.nil_append]
      cases hraw : exp ++ rest with
      | nil => rfl
      | cons ch raw =>
          rw [hraw] at hno
          exact (hno ch rfl).1
  | point _ _ => rfl

/-- A number of the grammar is read to its end. -/
theorem scanNumber_append {text : List UInt8} (ht : IsNumber text) (h : NoNumber rest) :
    scanNumber (text ++ rest) = some rest := by
  cases ht with
  | @mk minus int frac exp hminus hint hfrac hexp =>
      have hno := startsWithDigit_frac_append hfrac hexp h
      have hz := hasLeadingZero_append hint hno
      have hd := startsWithDigit_append hint.ne_nil hint.allDigits (frac ++ (exp ++ rest))
      have hscan : (scanFrac (frac ++ (exp ++ rest))).bind scanExp = some rest := by
        rw [scanFrac_append hfrac (noDigit_exp_append hexp h), Option.bind_some,
          scanExp_append hexp h]
      have hdrop := dropWhile_digits_append hint.allDigits hno
      simp only [List.append_assoc]
      rcases hminus with rfl | rfl
      · cases int with
        | nil => exact absurd rfl hint.ne_nil
        | cons d int =>
            have hdd := hint.allDigits d List.mem_cons_self
            have hm : d ≠ 0x2d := by
              rintro rfl
              cases hdd
            rw [List.nil_append, List.cons_append, scanNumber]
            rw [List.cons_append] at hz hdrop
            rw [List.dropWhile_cons_of_pos hdd] at hdrop
            simp [hm, hz, hdrop, hscan]
      · rw [List.singleton_append, scanNumber]
        simp [hz, hd, hdrop, hscan]

/-! ## The conversions -/

/-- A character that only a number with a fraction or an exponent has. -/
def HasPoint (text : QByteArray) : Prop :=
  (0x2e : UInt8) ∈ text ∨ (0x65 : UInt8) ∈ text ∨ (0x45 : UInt8) ∈ text

theorem not_hasPoint_of_allDigits (h : AllDigits ds) : ¬ HasPoint ds := by
  rintro (hm | hm | hm)
  · cases h _ hm
  · cases h _ hm
  · cases h _ hm

theorem hasPoint_of_parts {minus : QByteArray} (hne : frac ≠ [] ∨ exp ≠ []) (hf : IsFrac frac)
    (he : IsExp exp) : HasPoint (minus ++ int ++ frac ++ exp) := by
  have hmem : ∀ {c : UInt8}, c ∈ frac ∨ c ∈ exp → c ∈ minus ++ int ++ frac ++ exp := by
    intro c hc
    rw [List.mem_append, List.mem_append]
    exact hc.imp_left .inr
  cases hf with
  | point _ _ => exact .inl (hmem (.inl List.mem_cons_self))
  | absent =>
      cases he with
      | absent => simp at hne
      | exponent hch _ _ _ =>
          rcases hch with rfl | rfl
          · exact .inr (.inl (hmem (.inr List.mem_cons_self)))
          · exact .inr (.inr (hmem (.inr List.mem_cons_self)))

variable {P : Platform}

theorem takeWhile_allDigits (h : AllDigits ds) : ds.takeWhile jsonIsDigit = ds :=
  List.takeWhile_eq_self_iff.mpr h

theorem take_of_short {text : QByteArray} (h : text.length ≤ 47) : text.take 47 = text :=
  List.take_of_length_le h

theorem numToVariant_negative (hi : IsInt int) (hlen : int.length < 47) :
    numToVariant P (0x2d :: int) =
      if decimal int ≤ 2 ^ 63 then some (.longlong (.ofInt (-decimal int))) else none := by
  have hno : ¬ HasPoint (0x2d :: int) := by
    have hint := not_hasPoint_of_allDigits hi.allDigits
    simpa [HasPoint] using hint
  have hne := hi.ne_nil
  have hdigits := takeWhile_allDigits hi.allDigits
  have hshort : (0x2d :: int).take 47 = 0x2d :: int := take_of_short (by simpa using hlen)
  have hll : strtoll (0x2d :: int) =
      { value := max (-2 ^ 63) (min (2 ^ 63 - 1) (-decimal int : Int))
        rangeError := (-decimal int : Int) < -2 ^ 63 || (2 : Int) ^ 63 - 1 < -decimal int
        parsed := 1 + int.length } := by
    simp [strtoll, hdigits, hne]
  rw [HasPoint] at hno
  rw [numToVariant, if_neg (by simp)]
  dsimp only
  rw [hshort, if_neg hno, List.head?_cons, if_pos rfl, hll]
  dsimp only
  by_cases hfit : decimal int ≤ 2 ^ 63
  · rw [if_pos hfit, max_eq_right (by omega), min_eq_right (by omega)]
    have h1 : ¬ (-decimal int : Int) < -2 ^ 63 := by omega
    have h2 : ¬ (2 : Int) ^ 63 - 1 < -decimal int := by omega
    simp only [h1, h2, decide_false, Bool.or_self, Bool.not_false, Bool.true_and]
    rw [if_pos (by simp [Nat.add_comm])]
  · rw [if_neg hfit]
    have h1 : (-decimal int : Int) < -2 ^ 63 := by omega
    simp only [h1, decide_true, Bool.true_or, Bool.not_true, Bool.false_and, Bool.false_eq_true,
      if_false]

theorem numToVariant_nonnegative (hi : IsInt int) (hlen : int.length ≤ 47) :
    numToVariant P int =
      if decimal int < 2 ^ 64 then some (.ulonglong (.ofNat (decimal int))) else none := by
  have hno := not_hasPoint_of_allDigits hi.allDigits
  have hhead : int.head? ≠ some 0x2d := by
    cases int with
    | nil => simp
    | cons d int =>
        rw [List.head?_cons, Ne, Option.some.injEq]
        rintro rfl
        cases hi.allDigits _ List.mem_cons_self
  rw [HasPoint] at hno
  rw [numToVariant, if_neg (by simpa using hi.ne_nil)]
  dsimp only
  rw [take_of_short hlen, if_neg hno, if_neg hhead, strtoull,
    takeWhile_allDigits hi.allDigits]
  dsimp only
  by_cases hfit : decimal int < 2 ^ 64
  · rw [if_pos hfit, min_eq_right (by omega)]
    have h1 : ¬ 2 ^ 64 - 1 < decimal int := by omega
    simp only [h1, decide_false, Bool.not_false, Bool.true_and, decide_true, if_true]
  · rw [if_neg hfit]
    have h1 : 2 ^ 64 - 1 < decimal int := by omega
    simp only [h1, decide_true, Bool.not_true, Bool.false_and, Bool.false_eq_true, if_false]

theorem numToVariant_double {text : QByteArray} (hp : HasPoint text) (hlen : text.length ≤ 47) :
    numToVariant P text =
      if (P.strtod text).rangeError = false ∧ (P.strtod text).parsed ≠ 0 then
        some (.double (P.strtod text).value)
      else none := by
  have hne : text ≠ [] := by
    rintro rfl
    simp [HasPoint] at hp
  rw [HasPoint] at hp
  rw [numToVariant, if_neg (by simpa using hne)]
  dsimp only
  rw [take_of_short hlen, if_pos hp]
  simp

theorem toInt_ofInt_neg {n : Nat} (h : n ≤ 2 ^ 63) : (Int64.ofInt (-n)).toInt = -n := by
  rw [Int64.toInt_ofInt_of_le]
  · omega
  · omega

/-- What a number token denotes. -/
theorem numToVariant_iff {text : QByteArray} (ht : IsNumber text) (hlen : text.length ≤ 47)
    {v : Variant P.Double} : numToVariant P text = some v ↔ Denotes P (.num text) v := by
  constructor
  · intro h
    cases ht with
    | @mk minus int frac exp hminus hint hfrac hexp =>
        by_cases hne : frac ≠ [] ∨ exp ≠ []
        · rw [numToVariant_double (hasPoint_of_parts hne hfrac hexp) hlen] at h
          split_ifs at h with hok
          cases h
          exact .double hne hminus hint hfrac hexp hok.1 hok.2
        · rw [not_or, not_not, not_not] at hne
          obtain ⟨rfl, rfl⟩ := hne
          rw [List.append_nil, List.append_nil] at h hlen ⊢
          rcases hminus with rfl | rfl
          · rw [List.nil_append] at h hlen ⊢
            rw [numToVariant_nonnegative hint hlen] at h
            split_ifs at h with hfit
            cases h
            exact .nonnegative hint (UInt64.toNat_ofNat_of_lt' hfit)
          · rw [List.singleton_append] at h hlen ⊢
            rw [numToVariant_negative hint hlen] at h
            split_ifs at h with hfit
            cases h
            exact .negative hint (toInt_ofInt_neg hfit)
  · intro h
    cases h with
    | @negative int i hint hi =>
        have hrange := i.le_toInt
        rw [numToVariant_negative hint hlen, if_pos (by omega), ← hi, Int64.ofInt_toInt]
    | @nonnegative int u hint hu =>
        have hrange := u.toNat_lt
        rw [numToVariant_nonnegative hint hlen, if_pos (by omega), ← hu, UInt64.ofNat_toNat]
    | double hne _ _ hfrac hexp hrange hparsed =>
        rw [numToVariant_double (hasPoint_of_parts hne hfrac hexp) hlen,
          if_pos ⟨hrange, hparsed⟩]

end Json
end Shulcrum
