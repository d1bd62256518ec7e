import Shulcrum.Json.Model

/-!
# The string filter reads UTF-8

A character in UTF-8 is passed on as it is by the filter that decodes and
encodes it again.

**Results.**
* `encodeCodepoint_toNat`: the filter encodes a character as `QString::toUtf8` does.
* `foldl_pushBack_sequence`: a lead byte and its continuation bytes make a number.
* `pushBack_utf8EncodeChar`: what one character appends.
-/

namespace Shulcrum
namespace Json

open JSONUTF8StringFilter

variable {w : JSONUTF8StringFilter}

/-! ## Bits -/

theorem and_mask (x k : Nat) : x &&& (2 ^ k - 1) = x % 2 ^ k := Nat.and_two_pow_sub_one_eq_mod x k

theorem or_base {x : Nat} (k a : Nat) (hx : x < 2 ^ k) : (a <<< k) ||| x = a * 2 ^ k + x := by
  rw [← Nat.shiftLeft_add_eq_or_of_lt hx, Nat.shiftLeft_eq]

theorem or_shift {b : Nat} (k j a : Nat) (hb : b < 2 ^ k) :
    (a <<< (k + j)) ||| (b <<< j) = (a * 2 ^ k + b) <<< j := by
  have hlt : b <<< j < 2 ^ (k + j) := by
    rw [Nat.shiftLeft_eq, Nat.pow_add]
    exact Nat.mul_lt_mul_of_pos_right hb (Nat.two_pow_pos j)
  rw [or_base (k + j) a hlt, Nat.shiftLeft_eq, Nat.shiftLeft_eq, Nat.pow_add, Nat.add_mul,
    Nat.mul_assoc]

/-- The filter encodes a character as `QString::toUtf8` does. -/
theorem encodeCodepoint_toNat (c : Char) : encodeCodepoint c.toNat = String.utf8EncodeChar c := by
  have hc := char_range c
  have hval : c.val.toNat = c.toNat := rfl
  have hmask : ∀ x : Nat, x &&& 0x3f = x % 64 := fun x => and_mask x 6
  have hcont : ∀ x : Nat, 0x80 ||| x % 64 = x % 64 + 0x80 := fun x => by
    have h := or_base (x := x % 64) 6 2 (Nat.mod_lt _ (by decide))
    rw [show (2 : Nat) <<< 6 = 0x80 from rfl] at h
    omega
  rw [encodeCodepoint, String.utf8EncodeChar.eq_def]
  dsimp only
  rw [hval]
  simp only [hmask, hcont]
  split_ifs with h1 h2 h3 h4
  · rfl
  · have h := or_base (x := c.toNat >>> 6) 5 6 (by rw [Nat.shiftRight_eq_div_pow]; omega)
    rw [show (6 : Nat) <<< 5 = 0xc0 from rfl] at h
    rw [h, Nat.shiftRight_eq_div_pow]
    congr 2
    omega
  · have h := or_base (x := c.toNat >>> 12) 4 14 (by rw [Nat.shiftRight_eq_div_pow]; omega)
    rw [show (14 : Nat) <<< 4 = 0xe0 from rfl] at h
    rw [h, Nat.shiftRight_eq_div_pow, Nat.shiftRight_eq_div_pow]
    congr 2
    omega
  · have h := or_base (x := c.toNat >>> 18) 3 30 (by rw [Nat.shiftRight_eq_div_pow]; omega)
    rw [show (30 : Nat) <<< 3 = 0xf0 from rfl] at h
    rw [h, Nat.shiftRight_eq_div_pow, Nat.shiftRight_eq_div_pow, Nat.shiftRight_eq_div_pow]
    congr 2
    omega
  · omega

/-! ## Between characters -/

/-- The filter is between characters, and what it read was valid. -/
structure Clean (w : JSONUTF8StringFilter) : Prop where
  state : w.state = 0
  surpair : w.surpair = 0
  isValid : w.isValid = true

theorem Clean.finalize (h : Clean w) : w.finalize = true := by
  simp [JSONUTF8StringFilter.finalize, h.state, h.surpair, h.isValid]

/-- A codepoint that is a character is appended. -/
theorem pushBackU_char (hw : Clean w) (c : Char) :
    w.pushBackU c.toNat = { w with str := w.str ++ String.utf8EncodeChar c } := by
  have hc := char_range c
  have h1 : ¬ (0xd800 ≤ c.toNat ∧ c.toNat < 0xdc00) := by omega
  have h2 : ¬ (0xdc00 ≤ c.toNat ∧ c.toNat < 0xe000) := by omega
  simp [pushBackU, appendCodepoint, hw.state, hw.surpair, h1, h2, encodeCodepoint_toNat]

theorem Clean.append (hw : Clean w) (text : QByteArray) (codepoint : Nat) :
    Clean { w with str := w.str ++ text, codepoint := codepoint } :=
  ⟨hw.state, hw.surpair, hw.isValid⟩

/-! ## Bytes -/

theorem pushBack_ascii {x : Nat} (hw : w.state = 0) (hx : x < 0x80) :
    w.pushBack (.ofNat x) = { w with str := w.str ++ [.ofNat x] } := by
  have hnat : (UInt8.ofNat x).toNat = x :=
    UInt8.toNat_ofNat_of_lt' (show x < 0x100 by omega)
  simp [pushBack, hw, hnat, hx]

theorem pushBack_lead2 {x : Nat} (hw : w.state = 0) (hx : x < 0x20) :
    w.pushBack (.ofNat (x + 0xc0)) = { w with codepoint := x <<< 6, state := 6 } := by
  have hnat : (UInt8.ofNat (x + 0xc0)).toNat = x + 0xc0 :=
    UInt8.toNat_ofNat_of_lt' (show x + 0xc0 < 0x100 by omega)
  have hmask : (x + 0xc0) &&& 0x1f = x := (and_mask (x + 0xc0) 5).trans (by omega)
  have h1 : ¬ x + 0xc0 < 0x80 := by omega
  have h2 : ¬ x + 0xc0 < 0xc0 := by omega
  have h3 : x + 0xc0 < 0xe0 := by omega
  simp only [pushBack, hw, hnat, if_true, if_neg h1, if_neg h2, if_pos h3, hmask]

theorem pushBack_lead3 {x : Nat} (hw : w.state = 0) (hx : x < 0x10) :
    w.pushBack (.ofNat (x + 0xe0)) = { w with codepoint := x <<< 12, state := 12 } := by
  have hnat : (UInt8.ofNat (x + 0xe0)).toNat = x + 0xe0 :=
    UInt8.toNat_ofNat_of_lt' (show x + 0xe0 < 0x100 by omega)
  have hmask : (x + 0xe0) &&& 0x0f = x := (and_mask (x + 0xe0) 4).trans (by omega)
  have h1 : ¬ x + 0xe0 < 0x80 := by omega
  have h2 : ¬ x + 0xe0 < 0xc0 := by omega
  have h3 : ¬ x + 0xe0 < 0xe0 := by omega
  have h4 : x + 0xe0 < 0xf0 := by omega
  simp only [pushBack, hw, hnat, if_true, if_neg h1, if_neg h2, if_neg h3, if_pos h4, hmask]

theorem pushBack_lead4 {x : Nat} (hw : w.state = 0) (hx : x < 0x08) :
    w.pushBack (.ofNat (x + 0xf0)) = { w with codepoint := x <<< 18, state := 18 } := by
  have hnat : (UInt8.ofNat (x + 0xf0)).toNat = x + 0xf0 :=
    UInt8.toNat_ofNat_of_lt' (show x + 0xf0 < 0x100 by omega)
  have hmask : (x + 0xf0) &&& 0x07 = x := (and_mask (x + 0xf0) 3).trans (by omega)
  have h1 : ¬ x + 0xf0 < 0x80 := by omega
  have h2 : ¬ x + 0xf0 < 0xc0 := by omega
  have h3 : ¬ x + 0xf0 < 0xe0 := by omega
  have h4 : ¬ x + 0xf0 < 0xf0 := by omega
  have h5 : x + 0xf0 < 0xf8 := by omega
  simp only [pushBack, hw, hnat, if_true, if_neg h1, if_neg h2, if_neg h3, if_neg h4, if_pos h5,
    hmask]

/-- A continuation byte. -/
theorem pushBack_cont {x k : Nat} (hw : w.state = k + 6) (hx : x < 0x40) :
    w.pushBack (.ofNat (x + 0x80)) =
      let w' := { w with state := k, codepoint := w.codepoint ||| (x <<< k) }
      if k = 0 then w'.pushBackU w'.codepoint else w' := by
  have hnat : (UInt8.ofNat (x + 0x80)).toNat = x + 0x80 :=
    UInt8.toNat_ofNat_of_lt' (show x + 0x80 < 0x100 by omega)
  have hmask : (x + 0x80) &&& 0x3f = x := (and_mask (x + 0x80) 6).trans (by omega)
  have htop : (x + 0x80) &&& 0xc0 = 0x80 := by
    have hall : ∀ y < 0x40, (y + 0x80) &&& 0xc0 = 0x80 := by decide
    exact hall x hx
  have hne : ¬ k + 6 = 0 := by omega
  simp only [pushBack, hw, hnat, if_neg hne, hmask, htop, ne_eq, not_true_eq_false, if_false,
    Nat.add_sub_cancel]

/-- A lead byte with as many continuation bytes as it asks for, and the number they make. -/
inductive LooseSequence : QByteArray → Nat → Prop
  | two {x y : Nat} : x < 0x20 → y < 0x40 →
      LooseSequence [.ofNat (x + 0xc0), .ofNat (y + 0x80)] (x * 2 ^ 6 + y)
  | three {x y z : Nat} : x < 0x10 → y < 0x40 → z < 0x40 →
      LooseSequence [.ofNat (x + 0xe0), .ofNat (y + 0x80), .ofNat (z + 0x80)]
        ((x * 2 ^ 6 + y) * 2 ^ 6 + z)
  | four {x y z t : Nat} : x < 0x08 → y < 0x40 → z < 0x40 → t < 0x40 →
      LooseSequence
        [.ofNat (x + 0xf0), .ofNat (y + 0x80), .ofNat (z + 0x80), .ofNat (t + 0x80)]
        (((x * 2 ^ 6 + y) * 2 ^ 6 + z) * 2 ^ 6 + t)

/-- The bytes of a sequence hand their number to the collation. -/
theorem foldl_pushBack_sequence {bytes : QByteArray} {cp : Nat} (h : LooseSequence bytes cp)
    (hw : w.state = 0) :
    bytes.foldl pushBack w = { w with state := 0, codepoint := cp }.pushBackU cp := by
  cases h with
  | @two x y hx hy =>
      have hsum : x <<< 6 ||| y <<< 0 = x * 2 ^ 6 + y := by
        rw [Nat.shiftLeft_zero, or_base 6 _ hy]
      rw [List.foldl_cons, List.foldl_cons, List.foldl_nil, pushBack_lead2 hw hx,
        pushBack_cont rfl hy]
      dsimp only
      rw [if_pos rfl, hsum]
  | @three x y z hx hy hz =>
      have hsum : x <<< 12 ||| y <<< 6 ||| z <<< 0 = (x * 2 ^ 6 + y) * 2 ^ 6 + z := by
        rw [Nat.shiftLeft_zero, or_shift 6 6 x hy, or_base 6 _ hz]
      have hsecond := pushBack_cont (k := 6)
        (w := { w with codepoint := x <<< 12, state := 12 }) rfl hy
      rw [List.foldl_cons, List.foldl_cons, List.foldl_cons, List.foldl_nil,
        pushBack_lead3 hw hx, hsecond]
      dsimp only
      rw [if_neg (by decide), pushBack_cont rfl hz]
      dsimp only
      rw [if_pos rfl, hsum]
  | @four x y z t hx hy hz ht =>
      have hsum : x <<< 18 ||| y <<< 12 ||| z <<< 6 ||| t <<< 0 =
          ((x * 2 ^ 6 + y) * 2 ^ 6 + z) * 2 ^ 6 + t := by
        rw [Nat.shiftLeft_zero, or_shift 6 12 x hy, or_shift 6 6 _ hz, or_base 6 _ ht]
      have hsecond := pushBack_cont (k := 12)
        (w := { w with codepoint := x <<< 18, state := 18 }) rfl hy
      have hthird := pushBack_cont (k := 6)
        (w := { w with codepoint := x <<< 18 ||| y <<< 12, state := 12 }) rfl hz
      rw [List.foldl_cons, List.foldl_cons, List.foldl_cons, List.foldl_cons, List.foldl_nil,
        pushBack_lead4 hw hx, hsecond]
      dsimp only
      rw [if_neg (by decide), hthird]
      dsimp only
      rw [if_neg (by decide), pushBack_cont rfl ht]
      dsimp only
      rw [if_pos rfl, hsum]

theorem utf8EncodeChar_ascii {c : Char} (h : c.toNat < 0x80) :
    String.utf8EncodeChar c = [.ofNat c.toNat] := by
  have hle : c.val.toNat ≤ 0x7f := Nat.le_of_lt_succ h
  rw [String.utf8EncodeChar.eq_def]
  simp only [hle, if_true]
  rfl

/-- A character that is not ASCII is encoded as a sequence that makes it. -/
theorem looseSequence_utf8EncodeChar {c : Char} (h : 0x80 ≤ c.toNat) :
    LooseSequence (String.utf8EncodeChar c) c.toNat := by
  have hc := char_range c
  have hval : c.val.toNat = c.toNat := rfl
  have hmod : ∀ y : Nat, y % 0x40 < 0x40 := fun y => Nat.mod_lt _ (by decide)
  have h1 : ¬ c.toNat ≤ 0x7f := by omega
  by_cases h2 : c.toNat ≤ 0x7ff
  · have henc : String.utf8EncodeChar c =
        [.ofNat (c.toNat / 64 % 0x20 + 0xc0), .ofNat (c.toNat % 0x40 + 0x80)] := by
      rw [String.utf8EncodeChar.eq_def]
      simp [hval, h1, h2]
    have hsum : c.toNat / 64 % 0x20 * 2 ^ 6 + c.toNat % 0x40 = c.toNat := by omega
    have hseq := LooseSequence.two (Nat.mod_lt (c.toNat / 64) (by decide : 0x20 > 0))
      (hmod c.toNat)
    rwa [hsum, ← henc] at hseq
  by_cases h3 : c.toNat ≤ 0xffff
  · have henc : String.utf8EncodeChar c = [.ofNat (c.toNat / 4096 % 0x10 + 0xe0),
        .ofNat (c.toNat / 64 % 0x40 + 0x80), .ofNat (c.toNat % 0x40 + 0x80)] := by
      rw [String.utf8EncodeChar.eq_def]
      simp [hval, h1, h2, h3]
    have hsum : (c.toNat / 4096 % 0x10 * 2 ^ 6 + c.toNat / 64 % 0x40) * 2 ^ 6 +
        c.toNat % 0x40 = c.toNat := by omega
    have hseq := LooseSequence.three (Nat.mod_lt (c.toNat / 4096) (by decide : 0x10 > 0))
      (hmod (c.toNat / 64)) (hmod c.toNat)
    rwa [hsum, ← henc] at hseq
  · have henc : String.utf8EncodeChar c = [.ofNat (c.toNat / 262144 % 0x08 + 0xf0),
        .ofNat (c.toNat / 4096 % 0x40 + 0x80), .ofNat (c.toNat / 64 % 0x40 + 0x80),
        .ofNat (c.toNat % 0x40 + 0x80)] := by
      rw [String.utf8EncodeChar.eq_def]
      simp [hval, h1, h2, h3]
    have hsum : ((c.toNat / 262144 % 0x08 * 2 ^ 6 + c.toNat / 4096 % 0x40) * 2 ^ 6 +
        c.toNat / 64 % 0x40) * 2 ^ 6 + c.toNat % 0x40 = c.toNat := by omega
    have hseq := LooseSequence.four (Nat.mod_lt (c.toNat / 262144) (by decide : 0x08 > 0))
      (hmod (c.toNat / 4096)) (hmod (c.toNat / 64)) (hmod c.toNat)
    rwa [hsum, ← henc] at hseq

/-- The bytes of a character append it. -/
theorem pushBack_utf8EncodeChar (hw : Clean w) (c : Char) :
    ∃ codepoint, (String.utf8EncodeChar c).foldl pushBack w =
      { w with str := w.str ++ String.utf8EncodeChar c, codepoint := codepoint } := by
  by_cases hascii : c.toNat < 0x80
  · rw [utf8EncodeChar_ascii hascii, List.foldl_cons, List.foldl_nil,
      pushBack_ascii hw.state hascii]
    exact ⟨_, rfl⟩
  · have hclean : Clean { w with state := 0, codepoint := c.toNat } :=
      ⟨rfl, hw.surpair, hw.isValid⟩
    rw [foldl_pushBack_sequence (looseSequence_utf8EncodeChar (not_lt.mp hascii)) hw.state,
      pushBackU_char hclean]
    exact ⟨c.toNat, by rw [hw.state]⟩

end Json
end Shulcrum
