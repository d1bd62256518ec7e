import Mathlib.Data.List.Induction
import Shulcrum.SubsMgr.StatusHash

/-!
# Hexadecimal text

`ParseHexFast` finds the value of a digit with two comparisons and one
subtraction of 8 bits, and checks the value afterwards.  Seven characters that
are no digits pass the check: those between the digit nine and the letter `A`.
The sizes, `int` in the source, do not wrap for texts of fewer than 2^31 bytes.

**Results.**
* `Decodes.parseHexFast`: text that is hexadecimal is decoded, checked or not.
* `decodes_toHexFast`: the text of bytes is decoded to them.
* `isSome_parseHexLoop`: what passes the check.
* `hexRight_iff`: exactly when text is decoded or rejected as it should be.
-/

namespace Shulcrum
namespace Util

open SubsMgr.StatusHash (utf8 nibbles hexDigits toHexFastInPlace)

/-! ## The code -/

/-- The value of a digit, as `ParseHexFast` finds it in 8 bits. -/
def digit (c : UInt8) : UInt8 :=
  if c ≤ 0x39 then c - 0x30
  else if c ≥ 0x61 then c - (0x61 - 0xa)
  else c - (0x41 - 0xa)

/-- The loop of `ParseHexFast`; none if the output is cleared. -/
def parseHexLoop (checkDigits : Bool) : List UInt8 → Option (List UInt8)
  | d0 :: d1 :: d =>
      let c1 := digit d0
      let c2 := digit d1
      if checkDigits && (c1 > 0xf || c2 > 0xf) then none
      else (parseHexLoop checkDigits d).map (((c1 <<< 4) ||| c2) :: ·)
  | _ => some []

/-- `ParseHexFast`. -/
def parseHexFast (hex : List UInt8) (checkDigits : Bool) : List UInt8 :=
  if hex.length % 2 ≠ 0 then [] else (parseHexLoop checkDigits hex).getD []

/-- `ToHexFast`. -/
def toHexFast (ba : List UInt8) : List UInt8 :=
  (toHexFastInPlace ba (ba.length * 2)).getD []

/-- `std::isxdigit`. -/
def isxdigit (c : UInt8) : Bool :=
  (0x30 ≤ c && c ≤ 0x39) || (0x61 ≤ c && c ≤ 0x66) || (0x41 ≤ c && c ≤ 0x46)

/-- `IsValidHex`. -/
def isValidHex (s : List UInt8) : Bool := s.length % 2 = 0 && s.all isxdigit

/-! ## Decoding -/

def lowerDigits : List UInt8 := utf8 "0123456789abcdef"

def upperDigits : List UInt8 := utf8 "0123456789ABCDEF"

/-- A hexadecimal digit and its value. -/
def IsDigit (c : UInt8) (v : Nat) : Prop :=
  lowerDigits[v]? = some c ∨ upperDigits[v]? = some c

instance decidableIsDigit (c : UInt8) (v : Nat) : Decidable (IsDigit c v) :=
  inferInstanceAs (Decidable (_ ∨ _))

/-- Text and the bytes it stands for, two digits for each. -/
inductive Decodes : List UInt8 → List UInt8 → Prop
  | nil : Decodes [] []
  | cons {c d : UInt8} {p q : Nat} {s b : List UInt8} : IsDigit c p → IsDigit d q →
      Decodes s b → Decodes (c :: d :: s) (UInt8.ofNat (16 * p + q) :: b)

/-- What is asked of the functions for bytes `b` and a text `s`. -/
structure HexRight (b s : List UInt8) : Prop where
  roundTrip : ∀ checkDigits, parseHexFast (toHexFast b) checkDigits = b
  valid : isValidHex (toHexFast b) = true
  decoded : isValidHex s = true → Decodes s (parseHexFast s true)
  rejected : isValidHex s = false → parseHexFast s true = []

/-- One of the seven characters `:;<=>?@`. -/
def isStray (c : UInt8) : Bool := 0x3a ≤ c && c ≤ 0x40

/-! ## Digits -/

variable {c : UInt8} {v : Nat} {s b : List UInt8} {checkDigits : Bool}

theorem lt_of_isDigit (h : IsDigit c v) : v < 16 := by
  by_contra hv
  have hlower : lowerDigits[v]? = none := List.getElem?_eq_none (not_lt.mp hv)
  have hupper : upperDigits[v]? = none := List.getElem?_eq_none (not_lt.mp hv)
  rw [IsDigit, hlower, hupper] at h
  simp at h

/-- What is found by going through all digits and all bytes. -/
theorem digit_tables :
    (∀ v < 16, ∀ c ∈ lowerDigits[v]?.toList ++ upperDigits[v]?.toList,
      digit c = UInt8.ofNat v ∧ isxdigit c = true) ∧
    (∀ v < 16, IsDigit (lowerDigits.getD v 0) v) ∧
    (∀ n < 0x100, isxdigit (UInt8.ofNat n) = true →
      IsDigit (UInt8.ofNat n) (digit (UInt8.ofNat n)).toNat) ∧
    (∀ n < 0x100, digit (UInt8.ofNat n) ≤ 0xf ↔
      isxdigit (UInt8.ofNat n) = true ∨ isStray (UInt8.ofNat n) = true) ∧
    (∀ p < 16, ∀ q < 16,
      (UInt8.ofNat p <<< 4) ||| UInt8.ofNat q = UInt8.ofNat (16 * p + q)) ∧
    ∀ n < 0x100, hexDigits n =
      [lowerDigits.getD (n / 16) 0, lowerDigits.getD (n % 16) 0] := by decide +kernel

/-- The code finds the value of a digit, and `std::isxdigit` takes it. -/
theorem digit_isxdigit_of_isDigit (h : IsDigit c v) :
    digit c = UInt8.ofNat v ∧ isxdigit c = true := by
  obtain ⟨hall, -⟩ := digit_tables
  refine hall v (lt_of_isDigit h) c (List.mem_append.mpr ?_)
  simpa [IsDigit] using h

theorem forall_byte {P : UInt8 → Prop} (h : ∀ n < 0x100, P (UInt8.ofNat n)) (c : UInt8) : P c := by
  have hc := h c.toNat c.toNat_lt
  rwa [UInt8.ofNat_toNat] at hc

theorem isxdigit_iff : isxdigit c = true ↔ ∃ v, IsDigit c v := by
  constructor
  · obtain ⟨-, -, hall, -⟩ := digit_tables
    have hbyte := forall_byte (P := fun c => isxdigit c = true → IsDigit c (digit c).toNat) hall
    exact fun h => ⟨(digit c).toNat, hbyte c h⟩
  · rintro ⟨v, h⟩
    exact (digit_isxdigit_of_isDigit h).2

/-- What passes the check is a digit or one of the seven characters. -/
theorem digit_le_iff : digit c ≤ 0xf ↔ isxdigit c = true ∨ isStray c = true := by
  obtain ⟨-, -, -, hall, -⟩ := digit_tables
  exact forall_byte (P := fun c => digit c ≤ 0xf ↔ isxdigit c = true ∨ isStray c = true) hall c

/-! ## Text that is hexadecimal -/

theorem Decodes.length (h : Decodes s b) : s.length = 2 * b.length := by
  induction h with
  | nil => rfl
  | cons _ _ _ ih =>
      rw [List.length_cons, List.length_cons, List.length_cons, ih]
      omega

theorem Decodes.isValidHex (h : Decodes s b) : isValidHex s = true := by
  have hall : s.all isxdigit = true := by
    induction h with
    | nil => rfl
    | cons hc hd _ ih =>
        rw [List.all_cons, List.all_cons, ih, isxdigit_iff.mpr ⟨_, hc⟩, isxdigit_iff.mpr ⟨_, hd⟩]
        rfl
  rw [Util.isValidHex, hall, h.length, Nat.mul_mod_right]
  rfl

/-- The loop decodes, whether it checks or not. -/
theorem Decodes.parseHexLoop (h : Decodes s b) : parseHexLoop checkDigits s = some b := by
  induction h with
  | nil => rfl
  | @cons c d p q s b hc hd _ ih =>
      obtain ⟨-, -, -, -, hall, -⟩ := digit_tables
      have hbyte := hall p (lt_of_isDigit hc) q (lt_of_isDigit hd)
      have hc' := UInt8.not_lt.mpr (digit_le_iff.mpr (.inl (isxdigit_iff.mpr ⟨p, hc⟩)))
      have hd' := UInt8.not_lt.mpr (digit_le_iff.mpr (.inl (isxdigit_iff.mpr ⟨q, hd⟩)))
      rw [← (digit_isxdigit_of_isDigit hc).1, ← (digit_isxdigit_of_isDigit hd).1] at hbyte
      rw [Util.parseHexLoop]
      simp [hc', hd', ih, hbyte]

theorem Decodes.parseHexFast (h : Decodes s b) : parseHexFast s checkDigits = b := by
  have heven : ¬ s.length % 2 ≠ 0 := by
    rw [h.length, Nat.mul_mod_right]
    exact not_not_intro rfl
  rw [Util.parseHexFast, if_neg heven, h.parseHexLoop, Option.getD_some]

theorem exists_decodes (h : isValidHex s = true) : ∃ b, Decodes s b := by
  rw [isValidHex, Bool.and_eq_true, decide_eq_true_eq] at h
  obtain ⟨heven, hall⟩ := h
  induction s using List.twoStepInduction with
  | nil => exact ⟨[], .nil⟩
  | singleton c => simp at heven
  | cons_cons c d s ih =>
      rw [List.all_cons, List.all_cons, Bool.and_eq_true, Bool.and_eq_true] at hall
      obtain ⟨hc, hd, hs⟩ := hall
      obtain ⟨p, hp⟩ := isxdigit_iff.mp hc
      obtain ⟨q, hq⟩ := isxdigit_iff.mp hd
      have heven' : s.length % 2 = 0 := by
        rw [List.length_cons, List.length_cons] at heven
        omega
      obtain ⟨b, hb⟩ := ih heven' hs
      exact ⟨_, .cons hp hq hb⟩

/-- The text of bytes is decoded to them. -/
theorem decodes_toHexFast (b : List UInt8) : Decodes (toHexFast b) b := by
  have htext : toHexFast b = b.flatMap nibbles := by
    rw [toHexFast, toHexFastInPlace, if_neg (Nat.lt_irrefl _), Option.getD_some]
  rw [htext]
  clear htext
  induction b with
  | nil => exact .nil
  | cons x b ih =>
      have hx := x.toNat_lt
      obtain ⟨-, hdigit, -, -, -, hall⟩ := digit_tables
      have hcons := Decodes.cons (hdigit (x.toNat / 16) (by omega))
        (hdigit (x.toNat % 16) (by omega)) ih
      rw [Nat.div_add_mod, UInt8.ofNat_toNat] at hcons
      rw [List.flatMap_cons, SubsMgr.StatusHash.nibbles_eq, hall x.toNat hx]
      exact hcons

/-! ## What passes the check -/

theorem isSome_parseHexLoop (heven : s.length % 2 = 0) :
    (parseHexLoop true s).isSome = true ↔ ∀ c ∈ s, isxdigit c = true ∨ isStray c = true := by
  induction s using List.twoStepInduction with
  | nil => simp [parseHexLoop]
  | singleton c => simp at heven
  | cons_cons c d s ih =>
      have heven' : s.length % 2 = 0 := by
        rw [List.length_cons, List.length_cons] at heven
        omega
      rw [List.forall_mem_cons, List.forall_mem_cons, ← ih heven', ← digit_le_iff, ← digit_le_iff,
        parseHexLoop]
      by_cases hc : digit c ≤ 0xf
      · by_cases hd : digit d ≤ 0xf
        · simp [hc, hd, UInt8.not_lt.mpr hc, UInt8.not_lt.mpr hd]
        · simp [hd, UInt8.not_le.mp hd]
      · simp [hc, UInt8.not_le.mp hc]

theorem length_parseHexLoop (heven : s.length % 2 = 0)
    (h : parseHexLoop checkDigits s = some b) : s.length = 2 * b.length := by
  induction s using List.twoStepInduction generalizing b with
  | nil =>
      cases h
      rfl
  | singleton c => simp at heven
  | cons_cons c d s ih =>
      rw [parseHexLoop] at h
      split_ifs at h with hbad
      obtain ⟨b', hb', rfl⟩ := Option.map_eq_some_iff.mp h
      have heven' : s.length % 2 = 0 := by
        rw [List.length_cons, List.length_cons] at heven
        omega
      have hlen := ih heven' hb'
      simp only [List.length_cons]
      omega

/-- Text is decoded or rejected as it should be, if it is not of even length and made of digits
and some of the seven characters. -/
theorem hexRight_iff (b s : List UInt8) :
    HexRight b s ↔ (s.length % 2 = 0 → (∀ c ∈ s, isxdigit c = true ∨ isStray c = true) →
      ∀ c ∈ s, isxdigit c = true) := by
  constructor
  · intro h heven hpass
    by_contra hnot
    have hinvalid : isValidHex s = false := by
      rw [← Bool.not_eq_true, isValidHex, Bool.and_eq_true, List.all_eq_true]
      exact fun hvalid => hnot hvalid.2
    have hempty := h.rejected hinvalid
    obtain ⟨out, hout⟩ := Option.isSome_iff_exists.mp ((isSome_parseHexLoop heven).mpr hpass)
    rw [parseHexFast, if_neg (not_not_intro heven), hout, Option.getD_some] at hempty
    have hlen := length_parseHexLoop heven hout
    rw [hempty, List.length_nil, Nat.mul_zero, List.length_eq_zero_iff] at hlen
    subst hlen
    exact hnot (by simp)
  · intro hcond
    refine ⟨fun _ => (decodes_toHexFast b).parseHexFast, (decodes_toHexFast b).isValidHex, ?_, ?_⟩
    · intro hvalid
      obtain ⟨out, hout⟩ := exists_decodes hvalid
      rw [hout.parseHexFast]
      exact hout
    · intro hinvalid
      rw [parseHexFast]
      split_ifs with hodd
      · rfl
      · rw [not_not] at hodd
        cases hloop : parseHexLoop true s with
        | none => rfl
        | some out =>
            -- what passes the check is made of digits, so that it is valid
            have hpass := (isSome_parseHexLoop hodd).mp (by rw [hloop]; rfl)
            have hdigits := hcond hodd hpass
            have hvalid : isValidHex s = true := by
              rw [isValidHex, Bool.and_eq_true, decide_eq_true_eq, List.all_eq_true]
              exact ⟨hodd, hdigits⟩
            rw [hvalid] at hinvalid
            cases hinvalid

/-- A colon is taken for a digit of value three. -/
theorem not_hexRight_colon : ¬ HexRight [] [0x3a, 0x30] := by
  intro h
  have hrejected := h.rejected (by decide)
  revert hrejected
  decide

end Util
end Shulcrum
