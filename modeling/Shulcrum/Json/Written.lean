import Shulcrum.Json.Parse
import Shulcrum.Json.StringItems
import Shulcrum.Json.Writer

/-!
# Strings and integers as tokens

What the writer writes for a string or an integer is the text of one token.

**Results.**
* `tokText_writeString`: a string is read back from its escaped form.
* `isInt_printNat`, `decimal_printNat`: an integer is printed as the grammar has it.
-/

namespace Shulcrum
namespace Json

open JSONUTF8StringFilter

variable {w w' : JSONUTF8StringFilter} {text raw : List UInt8}

/-! ## Strings -/

theorem jsonEscape_cons (ch : UInt8) (ba : QByteArray) :
    jsonEscape (ch :: ba) = jsonEscape [ch] ++ jsonEscape ba := by
  simp [jsonEscape]

theorem jsonEscape_append (ba ba' : QByteArray) :
    jsonEscape (ba ++ ba') = jsonEscape ba ++ jsonEscape ba' := by
  simp [jsonEscape]

theorem hextouint_hexChar {n : Nat} (h : n < 0x80) :
    hextouint [0x30, 0x30, hexChar (n / 16), hexChar (n % 16)] = some n := by
  have hall : ∀ m < 0x80,
      hextouint [0x30, 0x30, hexChar (m / 16), hexChar (m % 16)] = some m := by decide
  exact hall n h

theorem pushBackU_ascii {x : Nat} (hw : Clean w) (hx : x < 0x80) :
    w.pushBackU x = { w with str := w.str ++ [.ofNat x] } := by
  have h1 : ¬ 0xd800 ≤ x := by omega
  have h2 : ¬ 0xdc00 ≤ x := by omega
  have h3 : x ≤ 0x7f := by omega
  simp [pushBackU, appendCodepoint, encodeCodepoint, hw.state, hw.surpair, h1, h2, h3]

/-- An ASCII character is read back from its escape. -/
theorem slowReads_escape {ch : UInt8} (hw : Clean w) (hch : ch.toNat < 0x80)
    (h : SlowReads { w with str := w.str ++ [ch] } text w') :
    SlowReads w (jsonEscape [ch] ++ text) w' := by
  have hpush : w.pushBack ch = { w with str := w.str ++ [ch] } := by
    have hascii := pushBack_ascii hw.state hch
    rwa [UInt8.ofNat_toNat] at hascii
  have hpushU : w.pushBackU ch.toNat = { w with str := w.str ++ [ch] } := by
    have hascii := pushBackU_ascii hw hch
    rwa [UInt8.ofNat_toNat] at hascii
  rw [jsonEscape, List.flatMap_singleton]
  rw [← hpush] at h
  unfold escapes
  split_ifs with h1 h2 h3 h4 h5 h6 h7 h8
  · exact .escape rfl (h1 ▸ h)
  · exact .escape rfl (h2 ▸ h)
  · exact .escape rfl (h3 ▸ h)
  · exact .escape rfl (h4 ▸ h)
  · exact .escape rfl (h5 ▸ h)
  · exact .escape rfl (h6 ▸ h)
  · exact .escape rfl (h7 ▸ h)
  · rw [hpush, ← hpushU] at h
    exact .unicode (hextouint_hexChar hch) h
  · rw [not_or] at h8
    exact .char h8.1 h7 h6 h

theorem jsonEscape_raw {bs : List UInt8} (hbs : ∀ b ∈ bs, 0x80 ≤ b) : jsonEscape bs = bs := by
  induction bs with
  | nil => rfl
  | cons b bs ih =>
      have hb := hbs b List.mem_cons_self
      have hne : ∀ x : UInt8, x < 0x80 → b ≠ x := by
        rintro x hx rfl
        exact absurd hb (UInt8.not_le.mpr hx)
      have hlt : ¬ b < 0x20 := fun hlt =>
        absurd (UInt8.lt_trans hlt (by decide : (0x20 : UInt8) < 0x80)) (UInt8.not_lt.mpr hb)
      have hnone : escapes b = none := by
        simp [escapes, hne 0x08 (by decide), hne 0x09 (by decide), hne 0x0a (by decide),
          hne 0x0c (by decide), hne 0x0d (by decide), hne 0x22 (by decide), hne 0x5c (by decide),
          hne 0x7f (by decide), hlt]
      rw [jsonEscape_cons, ih fun b' hb' => hbs b' (List.mem_cons_of_mem b hb'), jsonEscape,
        List.flatMap_singleton, hnone]
      rfl

/-- A string is read back from its escaped form. -/
theorem exists_slowReads_jsonEscape (hw : Clean w) (s : List Char) :
    ∃ w', SlowReads w (jsonEscape (s.flatMap String.utf8EncodeChar) ++ [0x22]) w' ∧ Clean w' ∧
      w'.str = w.str ++ s.flatMap String.utf8EncodeChar := by
  induction s generalizing w with
  | nil => exact ⟨w, .stop, hw, (List.append_nil _).symm⟩
  | cons c s ih =>
      obtain ⟨cp, hpush⟩ := pushBack_utf8EncodeChar hw c
      obtain ⟨w', hreads, hclean, hstr⟩ := ih (hw.append (String.utf8EncodeChar c) cp)
      refine ⟨w', ?_, hclean, by rw [hstr, List.append_assoc, List.flatMap_cons]⟩
      rw [List.flatMap_cons, jsonEscape_append, List.append_assoc]
      by_cases hascii : c.toNat < 0x80
      · have henc := utf8EncodeChar_ascii hascii
        have hnat : (UInt8.ofNat c.toNat).toNat = c.toNat :=
          UInt8.toNat_ofNat_of_lt' (show c.toNat < 0x100 by omega)
        rw [← hpush, henc, List.foldl_cons, List.foldl_nil, pushBack_ascii hw.state hascii]
          at hreads
        rw [henc]
        exact slowReads_escape hw (by rwa [hnat]) hreads
      · have hhigh := (looseSequence_utf8EncodeChar (not_lt.mp hascii)).ge
        rw [jsonEscape_raw hhigh]
        exact (slowReads_raw hhigh).mpr (hpush ▸ hreads)

/-- A string is written as its token. -/
theorem tokText_writeString (s : QString) : TokText (.string s.toUtf8) (writeString s.toUtf8) := by
  obtain ⟨w', hreads, hclean, hstr⟩ :=
    exists_slowReads_jsonEscape (w := { str := [] }) ⟨rfl, rfl, rfl⟩ s.chars
  have htext := hreads.stringText (by simp) hclean.finalize
  rw [hstr] at htext
  exact tokText_string_iff.mpr ⟨_, rfl, htext⟩

/-! ## Integers -/

theorem decimal_append (ds : List UInt8) (d : UInt8) :
    decimal (ds ++ [d]) = 10 * decimal ds + (d.toNat - 0x30) := by
  rw [decimal, List.foldl_append]
  rfl

theorem toNat_digit {d : Nat} (h : d < 10) : (UInt8.ofNat (0x30 + d)).toNat = 0x30 + d :=
  UInt8.toNat_ofNat_of_lt' (show 0x30 + d < 0x100 by omega)

theorem jsonIsDigit_digit {d : Nat} (h : d < 10) : jsonIsDigit (.ofNat (0x30 + d)) = true := by
  rw [jsonIsDigit, Bool.and_eq_true, decide_eq_true_eq, decide_eq_true_eq,
    UInt8.le_iff_toNat_le, UInt8.le_iff_toNat_le, toNat_digit h]
  exact ⟨Nat.le_add_right 0x30 d, show 0x30 + d ≤ 0x39 by omega⟩

theorem decimal_printNat (n : Nat) : decimal (printNat n) = n := by
  fun_induction printNat n with
  | case1 n h =>
      rw [← List.nil_append [_], decimal_append, toNat_digit h]
      simp [decimal]
  | case2 n h ih =>
      rw [decimal_append, ih, toNat_digit (Nat.mod_lt _ (by decide))]
      omega

theorem allDigits_printNat (n : Nat) : AllDigits (printNat n) := by
  fun_induction printNat n with
  | case1 n h =>
      intro d hd
      rw [List.mem_singleton.mp hd]
      exact jsonIsDigit_digit h
  | case2 n h ih =>
      intro d hd
      rcases List.mem_append.mp hd with hd | hd
      · exact ih d hd
      · rw [List.mem_singleton.mp hd]
        exact jsonIsDigit_digit (Nat.mod_lt _ (by decide))

/-- A number that is not zero does not begin with a zero. -/
theorem exists_printNat {n : Nat} (h : n ≠ 0) :
    ∃ d ds, printNat n = d :: ds ∧ d ≠ 0x30 := by
  fun_induction printNat n with
  | case1 n hlt =>
      refine ⟨_, [], rfl, fun heq => ?_⟩
      have hnat := congrArg UInt8.toNat heq
      rw [toNat_digit hlt] at hnat
      exact h (Nat.add_left_cancel hnat)
  | case2 n hge ih =>
      obtain ⟨d, ds, hds, hd⟩ := ih (by omega)
      exact ⟨d, ds ++ [_], by rw [hds, List.cons_append], hd⟩

theorem isInt_printNat (n : Nat) : IsInt (printNat n) := by
  by_cases h : n = 0
  · subst h
    rw [printNat]
    exact .zero
  · obtain ⟨d, ds, hds, hd⟩ := exists_printNat h
    have hall := allDigits_printNat n
    rw [hds] at hall ⊢
    exact .digits (hall d List.mem_cons_self) hd fun x hx => hall x (List.mem_cons_of_mem d hx)

theorem length_printNat_le {n k : Nat} (h : n < 10 ^ (k + 1)) : (printNat n).length ≤ k + 1 := by
  induction k generalizing n with
  | zero =>
      rw [printNat, if_pos (by simpa using h)]
      rfl
  | succ k ih =>
      rw [printNat]
      split_ifs
      · simp
      · have hlt : n / 10 < 10 ^ (k + 1) := by
          rw [Nat.div_lt_iff_lt_mul (by decide)]
          rwa [Nat.pow_succ] at h
        rw [List.length_append, List.length_singleton]
        exact Nat.succ_le_succ (ih hlt)

theorem isNumber_of_isInt {int : QByteArray} (h : IsInt int) : IsNumber int := by
  have hnum := IsNumber.mk (.inl rfl) h .absent .absent
  simpa using hnum

theorem isNumber_of_negative {int : QByteArray} (h : IsInt int) : IsNumber (0x2d :: int) := by
  have hnum := IsNumber.mk (.inr rfl) h .absent .absent
  simpa using hnum

end Json
end Shulcrum
