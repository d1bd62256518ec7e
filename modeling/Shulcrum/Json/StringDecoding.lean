import Mathlib.Data.List.Chain
import Shulcrum.Json.StringItems

/-!
# JSON strings and the characters they denote

The grammar of a string, over bytes: raw characters in UTF-8, two-character
escapes, and `\u` escapes, of which two may make a surrogate pair.

The filter accepts more.  A raw sequence needs only its lead byte and its
continuation bytes, a half may be raw, and the halves of a pair may be apart.  Of
a pair it forms the bitwise or of three numbers where the grammar has their sum.

**Results.**
* `StringBody.exists_itemizes`: what the grammar has is read.
* `exists_stringBody`: what is read is what the grammar has, for items that are faithful.
* `decodedRight_iff`: exactly when a string is decoded as the grammar has it.
-/

namespace Shulcrum
namespace Json

open JSONUTF8StringFilter

/-! ## The grammar -/

/-- A hexadecimal digit and its value. -/
inductive HexDigit : UInt8 → Nat → Prop
  | digit {v : Nat} : v < 10 → HexDigit (.ofNat (0x30 + v)) v
  | lower {v : Nat} : v < 6 → HexDigit (.ofNat (0x61 + v)) (10 + v)
  | upper {v : Nat} : v < 6 → HexDigit (.ofNat (0x41 + v)) (10 + v)

/-- Four hexadecimal digits and their value. -/
inductive FourHex : QByteArray → Nat → Prop
  | mk {a b c d : UInt8} {p q r s : Nat} : HexDigit a p → HexDigit b q → HexDigit c r →
      HexDigit d s → FourHex [a, b, c, d] (((p * 16 + q) * 16 + r) * 16 + s)

/-- The two-character escapes: what follows the backslash, and what it denotes. -/
def twoCharacterEscapes : List (UInt8 × Nat) :=
  [(0x22, 0x22), (0x5c, 0x5c), (0x2f, 0x2f), (0x62, 0x08), (0x66, 0x0c), (0x6e, 0x0a),
   (0x72, 0x0d), (0x74, 0x09)]

/-- The body of a string and the characters it denotes. -/
inductive StringBody : QByteArray → List Char → Prop
  | nil : StringBody [] []
  | unescaped {u : Char} {body : QByteArray} {cs : List Char} :
      0x20 ≤ u.toNat → u.toNat ≠ 0x22 → u.toNat ≠ 0x5c → StringBody body cs →
      StringBody (String.utf8EncodeChar u ++ body) (u :: cs)
  | escape {esc : UInt8} {u : Char} {body : QByteArray} {cs : List Char} :
      (esc, u.toNat) ∈ twoCharacterEscapes → StringBody body cs →
      StringBody (0x5c :: esc :: body) (u :: cs)
  | unicode {hex : QByteArray} {u : Char} {body : QByteArray} {cs : List Char} :
      FourHex hex u.toNat → StringBody body cs →
      StringBody (0x5c :: 0x75 :: (hex ++ body)) (u :: cs)
  | pair {hex₁ hex₂ : QByteArray} {h l : Nat} {u : Char} {body : QByteArray} {cs : List Char} :
      h < 0x400 → l < 0x400 → FourHex hex₁ (0xd800 + h) → FourHex hex₂ (0xdc00 + l) →
      u.toNat = 0x10000 + 1024 * h + l → StringBody body cs →
      StringBody (0x5c :: 0x75 :: (hex₁ ++ 0x5c :: 0x75 :: (hex₂ ++ body))) (u :: cs)

/-- A string is decoded as the grammar has it, from after its opening quotation mark. -/
structure DecodedRight (start : List UInt8) : Prop where
  token : ∀ data rest, getJsonToken (0x22 :: start) = (.string data, rest) ↔
    ∃ body cs, start = body ++ 0x22 :: rest ∧ StringBody body cs ∧
      data = cs.flatMap String.utf8EncodeChar
  fastPath : ∀ data rest, stringToken start = (.string data, rest) ↔
    filteredToken start = (.string data, rest)

/-! ## The condition -/

namespace Item

/-- The item is the first half of a surrogate pair. -/
def high (i : Item) : Bool := i.unit.any fun cp => IsHigh cp

/-- The item is the second half of a surrogate pair. -/
def low (i : Item) : Bool := i.unit.any fun cp => IsLow cp

/-- The item is a first half with the bit that meets the bit of `0x10000`. -/
def overlaps (i : Item) : Bool := i.unit.any fun cp => IsHigh cp && (cp - 0xd800).testBit 6

end Item

/-- Each first half has a second half, with at most characters and two-character escapes between
them; `half` tells if one is open. -/
def paired (half : Bool) : List Item → Bool
  | [] => !half
  | i :: items =>
      if i.high then !half && paired true items
      else if i.low then half && paired false items
      else if i.unit.isSome then !half && paired false items
      else paired half items

/-- The items are such as the grammar has, and the parts of a pair have no bit in common. -/
structure Faithful (items : List Item) : Prop where
  /-- A sequence is a character in UTF-8. -/
  utf8 : ∀ bytes cp, .sequence bytes cp ∈ items → ∃ u, bytes = String.utf8EncodeChar u
  /-- The halves of a pair are not apart. -/
  adjacent : items.IsChain fun i j => i.high → j.low
  disjoint : ∀ i ∈ items, i.overlaps = false

/-! ## Escapes -/

theorem hexDigit_iff {ch : UInt8} {v : Nat} : hexDigit ch = some v ↔ HexDigit ch v := by
  constructor
  · have hch : ∀ x, x ≤ ch.toNat → UInt8.ofNat (x + (ch.toNat - x)) = ch := by
      intro x hx
      rw [Nat.add_sub_cancel' hx, UInt8.ofNat_toNat]
    intro h
    rw [hexDigit] at h
    simp only [jsonIsDigit, Bool.and_eq_true, decide_eq_true_eq, UInt8.le_iff_toNat_le,
      UInt8.reduceToNat] at h
    split_ifs at h with h1 h2 h3
    · have hdigit := HexDigit.digit (v := ch.toNat - 0x30) (by omega)
      rwa [hch 0x30 h1.1, Option.some.inj h] at hdigit
    · have hdigit := HexDigit.lower (v := ch.toNat - 0x61) (by omega)
      rwa [hch 0x61 h2.1, Nat.add_comm, Option.some.inj h] at hdigit
    · have hdigit := HexDigit.upper (v := ch.toNat - 0x41) (by omega)
      rwa [hch 0x41 h3.1, Nat.add_comm, Option.some.inj h] at hdigit
  · intro h
    cases h with
    | @digit v hv =>
        have hall : ∀ v < 10, hexDigit (.ofNat (0x30 + v)) = some v := by decide
        exact hall v hv
    | @lower v hv =>
        have hall : ∀ v < 6, hexDigit (.ofNat (0x61 + v)) = some (10 + v) := by decide
        exact hall v hv
    | @upper v hv =>
        have hall : ∀ v < 6, hexDigit (.ofNat (0x41 + v)) = some (10 + v) := by decide
        exact hall v hv

theorem HexDigit.lt {ch : UInt8} {v : Nat} (h : HexDigit ch v) : v < 16 := by
  cases h <;> omega

theorem hextouint_iff {a b c d : UInt8} {cp : Nat} :
    hextouint [a, b, c, d] = some cp ↔ FourHex [a, b, c, d] cp := by
  constructor
  · intro h
    simp only [hextouint, List.foldlM_cons, List.foldlM_nil, Option.pure_def, Option.bind_eq_bind,
      Option.bind_eq_some_iff, Option.map_eq_some_iff, Option.some.injEq] at h
    obtain ⟨_, ⟨p, hp, rfl⟩, _, ⟨q, hq, rfl⟩, _, ⟨r, hr, rfl⟩, _, ⟨s, hs, rfl⟩, rfl⟩ := h
    have hfour := FourHex.mk (hexDigit_iff.mp hp) (hexDigit_iff.mp hq) (hexDigit_iff.mp hr)
      (hexDigit_iff.mp hs)
    convert hfour using 1
    omega
  · intro h
    cases h with
    | mk hp hq hr hs =>
        simp only [hextouint, List.foldlM_cons, List.foldlM_nil, hexDigit_iff.mpr hp,
          hexDigit_iff.mpr hq, hexDigit_iff.mpr hr, hexDigit_iff.mpr hs, Option.map_some,
          Option.bind_eq_bind, Option.bind_some, Option.pure_def, Option.some.injEq]
        omega

theorem FourHex.lt {hex : QByteArray} {cp : Nat} (h : FourHex hex cp) : cp < 0x10000 := by
  cases h with
  | mk hp hq hr hs =>
      have := hp.lt
      have := hq.lt
      have := hr.lt
      have := hs.lt
      omega

theorem simpleEscape_iff {esc c : UInt8} :
    simpleEscape esc = some c ↔ (esc, c.toNat) ∈ twoCharacterEscapes := by
  constructor
  · intro h
    rw [simpleEscape] at h
    split_ifs at h with h1 h2 h3 h4 h5 h6 h7 h8 <;>
    · rw [← Option.some.inj h]
      subst_vars
      decide
  · intro h
    have hall : ∀ e ∈ twoCharacterEscapes, simpleEscape e.1 = some (.ofNat e.2) := by decide
    have hesc := hall (esc, c.toNat) h
    rwa [UInt8.ofNat_toNat] at hesc

/-! ## One item -/

theorem exists_char {n : Nat} (h : n < 0xd800 ∨ 0xdfff < n ∧ n < 0x110000) :
    ∃ u : Char, u.toNat = n :=
  ⟨Char.ofNatAux n h, rfl⟩

theorem collate_char {u : Char} : collate 0 u.toNat = some (0, String.utf8EncodeChar u) := by
  have hu := char_range u
  have hhigh : ¬ IsHigh u.toNat := by rw [IsHigh]; omega
  have hlow : ¬ IsLow u.toNat := by rw [IsLow]; omega
  simp [collate, hhigh, hlow, encodeCodepoint_toNat]

theorem run_of_unit {i : Item} {cp : Nat} (h : i.unit = some cp) (surpair : Nat) :
    i.run surpair = collate surpair cp := by
  cases i with
  | char _ => cases h
  | escape _ _ => cases h
  | unicode _ _ _ _ cp' =>
      cases h
      rfl
  | sequence _ cp' =>
      cases h
      rfl

theorem exists_run_of_unit {i : Item} (h : i.unit = none) (surpair : Nat) :
    ∃ ch, i.run surpair = some (surpair, [ch]) := by
  cases i with
  | char ch => exact ⟨ch, rfl⟩
  | escape esc c => exact ⟨c, rfl⟩
  | unicode _ _ _ _ _ => cases h
  | sequence _ _ => cases h

/-- The collation succeeds where the halves are paired. -/
theorem isSome_decodeItems (surpair : Nat) (items : List Item) :
    (decodeItems surpair items).isSome = paired (surpair ≠ 0) items := by
  have hbind : ∀ (items : List Item) (surpair : Nat) (out : QByteArray),
      ((decodeItems surpair items).bind fun rest => some (out ++ rest)).isSome =
        (decodeItems surpair items).isSome := by
    intro items surpair out
    cases decodeItems surpair items <;> rfl
  induction items generalizing surpair with
  | nil =>
      rw [decodeItems, paired]
      split_ifs with h
      · simp [h]
      · simp [h]
  | cons i items ih =>
      rw [decodeItems, paired, Item.high, Item.low]
      cases hunit : i.unit with
      | none =>
          obtain ⟨ch, hrun⟩ := exists_run_of_unit hunit surpair
          simp only [hrun, Option.bind_eq_bind, Option.bind_some, hbind, ih, Option.any_none,
            Bool.false_eq_true, if_false, Option.isSome_none]
      | some cp =>
          rw [run_of_unit hunit, collate]
          simp only [Option.any_some, decide_eq_true_eq, Option.isSome_some, if_true]
          split_ifs with h1 h2 h3 h4 h5
          · simp [h2]
          · have hcp : cp ≠ 0 := by
              rw [IsHigh] at h1
              omega
            simp [ih, h2, hcp]
          · simp [hbind, ih, h4]
          · simp [h4]
          · simp [h5]
          · simp [hbind, ih, h5]

theorem high_of_unit {i : Item} {cp : Nat} (h : i.unit = some cp) :
    i.high = decide (IsHigh cp) := by
  rw [Item.high, h, Option.any_some]

theorem low_of_unit {i : Item} {cp : Nat} (h : i.unit = some cp) :
    i.low = decide (IsLow cp) := by
  rw [Item.low, h, Option.any_some]

theorem overlaps_of_high {i : Item} (h : i.high = false) : i.overlaps = false := by
  rw [Item.overlaps]
  cases hunit : i.unit with
  | none => rfl
  | some cp =>
      rw [high_of_unit hunit] at h
      rw [Option.any_some, h, Bool.false_and]

/-- The bitwise or of the parts of a pair. -/
theorem pair_or {h l : Nat} (hh : h < 0x400) (hl : l < 0x400) :
    0x10000 ||| (h <<< 10) ||| l = (if h.testBit 6 then 0 else 0x10000) + 1024 * h + l := by
  have hall : ∀ h < 0x400, 64 ||| h = if h.testBit 6 then h else h + 64 := by decide +kernel
  have hhigh : 0x10000 ||| (h <<< 10) = (64 ||| h) <<< 10 := by
    rw [Nat.shiftLeft_or_distrib]
    rfl
  rw [hhigh, or_base 10 _ hl, hall h hh]
  split_ifs
  · omega
  · rw [Nat.add_mul]
    omega

/-- What the collation makes of a pair. -/
theorem run_pair {i j : Item} {h l : Nat} (hi : i.unit = some (0xd800 + h))
    (hj : j.unit = some (0xdc00 + l)) (hh : h < 0x400) (hl : l < 0x400) :
    i.run 0 = some (0xd800 + h, []) ∧ j.run (0xd800 + h) =
      some (0, encodeCodepoint ((if h.testBit 6 then 0 else 0x10000) + 1024 * h + l)) := by
  have hhigh : IsHigh (0xd800 + h) := ⟨by omega, by omega⟩
  have hlow : IsLow (0xdc00 + l) := ⟨by omega, by omega⟩
  have hnhigh : ¬ IsHigh (0xdc00 + l) := by
    rw [IsHigh]
    omega
  have hne : 0xd800 + h ≠ 0 := by omega
  constructor
  · rw [run_of_unit hi, collate, if_pos hhigh]
    rfl
  · rw [run_of_unit hj, collate, if_neg hnhigh, if_pos hlow, if_pos hne,
      Nat.add_sub_cancel_left, Nat.add_sub_cancel_left, pair_or hh hl]

theorem overlaps_of_unit {i : Item} {h : Nat} (hi : i.unit = some (0xd800 + h))
    (hh : h < 0x400) : i.overlaps = h.testBit 6 := by
  have hhigh : IsHigh (0xd800 + h) := ⟨by omega, by omega⟩
  rw [Item.overlaps, hi, Option.any_some, decide_eq_true hhigh, Bool.true_and,
    Nat.add_sub_cancel_left]

/-! ## What the grammar has is read -/

/-- Items that spell a body of the grammar, and what the collation makes of them. -/
structure Itemizes (items : List Item) (body : QByteArray) (cs : List Char) (out : QByteArray) :
    Prop where
  valid : ∀ i ∈ items, i.Valid
  bytes : body = itemBytes items
  decode : decodeItems 0 items = some out
  utf8 : ∀ bytes cp, .sequence bytes cp ∈ items → ∃ u, bytes = String.utf8EncodeChar u
  adjacent : items.IsChain fun i j => i.high → j.low
  /-- What is made is right if the parts of each pair have no bit in common. -/
  disjoint : (∀ i ∈ items, i.overlaps = false) ↔ out = cs.flatMap String.utf8EncodeChar

variable {items : List Item} {body out : QByteArray} {cs : List Char} {u : Char}

theorem Itemizes.nil : Itemizes [] [] [] [] where
  valid := by simp
  bytes := rfl
  decode := rfl
  utf8 := by simp
  adjacent := .nil
  disjoint := by simp

/-- An item that is a character by itself. -/
theorem Itemizes.cons {i : Item} (hi : i.Valid)
    (hutf8 : ∀ bytes cp, i = .sequence bytes cp → ∃ u, bytes = String.utf8EncodeChar u)
    (hrun : i.run 0 = some (0, String.utf8EncodeChar u)) (hhigh : i.high = false)
    (h : Itemizes items body cs out) :
    Itemizes (i :: items) (i.bytes ++ body) (u :: cs) (String.utf8EncodeChar u ++ out) where
  valid := List.forall_mem_cons.mpr ⟨hi, h.valid⟩
  bytes := by rw [h.bytes, itemBytes, itemBytes, List.flatMap_cons]
  decode := decodeItems_cons.mpr ⟨0, _, out, hrun, h.decode, rfl⟩
  utf8 := by
    intro bytes cp hmem
    rcases List.mem_cons.mp hmem with heq | hmem
    · exact hutf8 bytes cp heq.symm
    · exact h.utf8 bytes cp hmem
  adjacent := by
    refine List.isChain_cons.mpr ⟨?_, h.adjacent⟩
    intro j _ hi'
    rw [hhigh] at hi'
    cases hi'
  disjoint := by
    rw [List.forall_mem_cons, List.flatMap_cons, List.append_cancel_left_eq, h.disjoint]
    exact and_iff_right (overlaps_of_high hhigh)

/-- The first and the second half of a pair. -/
theorem Itemizes.pair {i j : Item} {h l : Nat} (hi : i.Valid) (hj : j.Valid)
    (hutf8 : ∀ bytes cp, i ≠ .sequence bytes cp ∧ j ≠ .sequence bytes cp)
    (hiunit : i.unit = some (0xd800 + h)) (hjunit : j.unit = some (0xdc00 + l))
    (hh : h < 0x400) (hl : l < 0x400) (hu : u.toNat = 0x10000 + 1024 * h + l)
    (hrest : Itemizes items body cs out) :
    ∃ out', Itemizes (i :: j :: items) (i.bytes ++ (j.bytes ++ body)) (u :: cs) out' := by
  obtain ⟨hirun, hjrun⟩ := run_pair hiunit hjunit hh hl
  have hjhigh : j.high = false := by
    rw [high_of_unit hjunit, decide_eq_false_iff_not, IsHigh]
    omega
  have hjlow : j.low = true := by
    rw [low_of_unit hjunit, decide_eq_true_eq]
    exact ⟨by omega, by omega⟩
  refine ⟨encodeCodepoint ((if h.testBit 6 then 0 else 0x10000) + 1024 * h + l) ++ out,
    ?_, ?_, ?_, ?_, ?_, ?_⟩
  · exact List.forall_mem_cons.mpr ⟨hi, List.forall_mem_cons.mpr ⟨hj, hrest.valid⟩⟩
  · rw [hrest.bytes, itemBytes, itemBytes, List.flatMap_cons, List.flatMap_cons]
  · refine decodeItems_cons.mpr ⟨_, _, _, hirun, ?_, (List.nil_append _).symm⟩
    exact decodeItems_cons.mpr ⟨_, _, _, hjrun, hrest.decode, rfl⟩
  · intro bytes cp hmem
    rcases List.mem_cons.mp hmem with heq | hmem
    · exact absurd heq.symm (hutf8 bytes cp).1
    rcases List.mem_cons.mp hmem with heq | hmem
    · exact absurd heq.symm (hutf8 bytes cp).2
    · exact hrest.utf8 bytes cp hmem
  · refine List.isChain_cons_cons.mpr ⟨?_, List.isChain_cons.mpr ⟨?_, hrest.adjacent⟩⟩
    · exact fun _ => hjlow
    · intro k _ hj'
      rw [hjhigh] at hj'
      cases hj'
  · rw [List.forall_mem_cons, List.forall_mem_cons, overlaps_of_unit hiunit hh,
      overlaps_of_high hjhigh, hrest.disjoint, List.flatMap_cons]
    cases hbit : h.testBit 6 with
    | false =>
        have hsum : (if false = true then 0 else 0x10000) + 1024 * h + l = u.toNat := hu.symm
        rw [hsum, encodeCodepoint_toNat, List.append_cancel_left_eq]
        simp
    | true =>
        -- the code has another character, beyond the first plane too
        obtain ⟨v, hv⟩ := exists_char (n := 1024 * h + l) (by
          rw [Nat.testBit_eq_decide_div_mod_eq, decide_eq_true_eq] at hbit
          omega)
        have hsum : (if true = true then 0 else 0x10000) + 1024 * h + l = v.toNat := by
          rw [hv, if_pos rfl, Nat.zero_add]
        have hvseq := looseSequence_utf8EncodeChar (c := v) (by
          rw [Nat.testBit_eq_decide_div_mod_eq, decide_eq_true_eq] at hbit
          omega)
        have huseq := looseSequence_utf8EncodeChar (c := u) (by omega)
        rw [hsum, encodeCodepoint_toNat]
        constructor
        · intro hno
          cases hno.1
        · intro heq
          have hitem := Item.Valid.append_inj (i := .sequence _ v.toNat)
            (j := .sequence _ u.toNat) hvseq huseq heq
          have hval := (Item.sequence.inj hitem.1).2
          omega

theorem high_of_char {i : Item} (h : i.unit = some u.toNat) : i.high = false := by
  have hu := char_range u
  have hno : ¬ IsHigh u.toNat := by
    rw [IsHigh]
    omega
  rw [high_of_unit h, decide_eq_false hno]

theorem FourHex.exists_eq {hex : QByteArray} {cp : Nat} (h : FourHex hex cp) :
    ∃ a b c d, hex = [a, b, c, d] ∧ hextouint [a, b, c, d] = some cp := by
  cases h with
  | mk hp hq hr hs => exact ⟨_, _, _, _, rfl, hextouint_iff.mpr (.mk hp hq hr hs)⟩

/-- What the grammar has is read as items whose halves are paired. -/
theorem StringBody.exists_itemizes (h : StringBody body cs) :
    ∃ items out, Itemizes items body cs out := by
  induction h with
  | nil => exact ⟨[], [], .nil⟩
  | @unescaped u body cs hctl hquote hback _ ih =>
      obtain ⟨items, out, hrest⟩ := ih
      by_cases hascii : u.toNat < 0x80
      · have hnat : (UInt8.ofNat u.toNat).toNat = u.toNat :=
          UInt8.toNat_ofNat_of_lt' (show u.toNat < 0x100 by omega)
        have hne : ∀ x : UInt8, u.toNat ≠ x.toNat → UInt8.ofNat u.toNat ≠ x := by
          rintro x hx heq
          rw [← heq, hnat] at hx
          exact hx rfl
        have hi : (Item.char (.ofNat u.toNat)).Valid := by
          refine ⟨?_, ?_, hne _ hquote, hne _ hback⟩
          · rw [UInt8.lt_iff_toNat_lt, hnat]
            exact not_lt.mpr hctl
          · rw [UInt8.lt_iff_toNat_lt, hnat]
            exact hascii
        have henc := utf8EncodeChar_ascii hascii
        rw [henc]
        exact ⟨_, _, .cons hi (by simp) (by rw [henc]; rfl) rfl hrest⟩
      · have hseq := looseSequence_utf8EncodeChar (not_lt.mp hascii)
        have hi : (Item.sequence (String.utf8EncodeChar u) u.toNat).Valid := hseq
        refine ⟨_, _, .cons hi ?_ collate_char (high_of_char rfl) hrest⟩
        intro bytes cp heq
        exact ⟨u, (Item.sequence.inj heq).1.symm⟩
  | @escape esc u body cs hesc _ ih =>
      obtain ⟨items, out, hrest⟩ := ih
      have hascii : u.toNat < 0x80 := by
        have hall : ∀ e ∈ twoCharacterEscapes, e.2 < 0x80 := by decide
        exact hall (esc, u.toNat) hesc
      have hnat : (UInt8.ofNat u.toNat).toNat = u.toNat :=
        UInt8.toNat_ofNat_of_lt' (show u.toNat < 0x100 by omega)
      have hi : (Item.escape esc (.ofNat u.toNat)).Valid :=
        simpleEscape_iff.mpr (by rwa [hnat])
      have hrun : (Item.escape esc (.ofNat u.toNat)).run 0 =
          some (0, String.utf8EncodeChar u) := by
        rw [utf8EncodeChar_ascii hascii]
        rfl
      exact ⟨_, _, .cons hi (by simp) hrun rfl hrest⟩
  | @unicode hex u body cs hhex _ ih =>
      obtain ⟨items, out, hrest⟩ := ih
      obtain ⟨a, b, c, d, rfl, hi⟩ := hhex.exists_eq
      exact ⟨_, _, .cons (i := .unicode a b c d u.toNat) hi (by simp) collate_char
        (high_of_char rfl) hrest⟩
  | @pair hex₁ hex₂ h l u body cs hh hl hhex₁ hhex₂ hu _ ih =>
      obtain ⟨items, out, hrest⟩ := ih
      obtain ⟨a, b, c, d, rfl, hi⟩ := hhex₁.exists_eq
      obtain ⟨a', b', c', d', rfl, hj⟩ := hhex₂.exists_eq
      obtain ⟨out', hpair⟩ := Itemizes.pair (i := .unicode a b c d (0xd800 + h))
        (j := .unicode a' b' c' d' (0xdc00 + l)) hi hj (by simp) rfl rfl hh hl hu hrest
      exact ⟨_, _, hpair⟩

/-! ## What is read is what the grammar has -/

theorem LooseSequence.eq_toNat {cp : Nat} (h : LooseSequence (String.utf8EncodeChar u) cp) :
    0x80 ≤ u.toNat ∧ cp = u.toNat := by
  have hge : 0x80 ≤ u.toNat := by
    by_contra hlt
    have hascii : u.toNat < 0x80 := not_le.mp hlt
    have hfirst := h.ge
    rw [utf8EncodeChar_ascii hascii, List.forall_mem_singleton, ge_iff_le, UInt8.le_iff_toNat_le,
      UInt8.toNat_ofNat_of_lt' (show u.toNat < 0x100 by omega)] at hfirst
    exact hlt hfirst
  have hitem := Item.Valid.append_inj (i := .sequence _ cp) (j := .sequence _ u.toNat)
    (x := []) (y := []) h (looseSequence_utf8EncodeChar hge) rfl
  exact ⟨hge, (Item.sequence.inj hitem.1).2⟩

/-- An item that is not a half is a character of the grammar. -/
theorem Item.Valid.exists_char {i : Item} (hi : i.Valid) (hhigh : i.high = false)
    (hlow : i.low = false)
    (hutf8 : ∀ bytes cp, i = .sequence bytes cp → ∃ u, bytes = String.utf8EncodeChar u) :
    ∃ u, i.run 0 = some (0, String.utf8EncodeChar u) ∧
      ∀ body cs, StringBody body cs → StringBody (i.bytes ++ body) (u :: cs) := by
  cases i with
  | char ch =>
      obtain ⟨hctl, hascii, hquote, hback⟩ := hi
      rw [UInt8.lt_iff_toNat_lt] at hctl hascii
      obtain ⟨u, hu⟩ := Json.exists_char (n := ch.toNat) (by
        left
        exact hascii.trans (by decide))
      have henc : String.utf8EncodeChar u = [ch] := by
        rw [utf8EncodeChar_ascii (by rw [hu]; exact hascii), hu, UInt8.ofNat_toNat]
      refine ⟨u, by rw [henc]; rfl, fun body cs hbody => ?_⟩
      rw [bytes, ← henc]
      refine .unescaped ?_ ?_ ?_ hbody
      · rw [hu]
        exact not_lt.mp hctl
      · rw [hu]
        exact fun heq => hquote (UInt8.toNat_inj.mp heq)
      · rw [hu]
        exact fun heq => hback (UInt8.toNat_inj.mp heq)
  | escape esc c =>
      have hesc : simpleEscape esc = some c := hi
      have hascii : c.toNat < 0x80 := UInt8.lt_iff_toNat_lt.mp (simpleEscape_lt hesc)
      obtain ⟨u, hu⟩ := Json.exists_char (n := c.toNat) (by omega)
      have henc : String.utf8EncodeChar u = [c] := by
        rw [utf8EncodeChar_ascii (by rw [hu]; exact hascii), hu, UInt8.ofNat_toNat]
      refine ⟨u, by rw [henc]; rfl, fun body cs hbody => .escape ?_ hbody⟩
      rw [hu]
      exact simpleEscape_iff.mp hesc
  | unicode a b c d cp =>
      have hhex : FourHex [a, b, c, d] cp := hextouint_iff.mp hi
      have hlt := hhex.lt
      rw [high_of_unit rfl, decide_eq_false_iff_not, IsHigh] at hhigh
      rw [low_of_unit rfl, decide_eq_false_iff_not, IsLow] at hlow
      obtain ⟨u, rfl⟩ := Json.exists_char (n := cp) (by omega)
      exact ⟨u, collate_char, fun body cs hbody => .unicode hhex hbody⟩
  | sequence bytes cp =>
      have hseq : LooseSequence bytes cp := hi
      obtain ⟨u, rfl⟩ := hutf8 bytes cp rfl
      obtain ⟨hge, rfl⟩ := hseq.eq_toNat
      refine ⟨u, collate_char, fun body cs hbody => .unescaped ?_ ?_ ?_ hbody⟩
      · omega
      · omega
      · omega

/-- A half that is not raw. -/
theorem exists_unicode {i : Item} (hi : i.Valid) (hhalf : i.high = true ∨ i.low = true)
    (hutf8 : ∀ bytes cp, i = .sequence bytes cp → ∃ u, bytes = String.utf8EncodeChar u) :
    ∃ a b c d cp, i = .unicode a b c d cp ∧ FourHex [a, b, c, d] cp := by
  cases i with
  | char _ => simp [Item.high, Item.low, Item.unit] at hhalf
  | escape _ _ => simp [Item.high, Item.low, Item.unit] at hhalf
  | unicode a b c d cp => exact ⟨a, b, c, d, cp, rfl, hextouint_iff.mp hi⟩
  | sequence bytes cp =>
      have hseq : LooseSequence bytes cp := hi
      obtain ⟨u, rfl⟩ := hutf8 bytes cp rfl
      obtain ⟨hge, rfl⟩ := hseq.eq_toNat
      have hu := char_range u
      rw [high_of_unit rfl, low_of_unit rfl, decide_eq_true_eq, decide_eq_true_eq, IsHigh, IsLow]
        at hhalf
      omega

/-- A first half and the second half behind it are a character of the grammar. -/
theorem exists_char_of_pair {i j : Item} (hi : i.Valid) (hj : j.Valid) (hhigh : i.high = true)
    (hlow : j.low = true) (hoverlaps : i.overlaps = false)
    (hutf8 : ∀ bytes cp, i = .sequence bytes cp → ∃ u, bytes = String.utf8EncodeChar u)
    (hutf8' : ∀ bytes cp, j = .sequence bytes cp → ∃ u, bytes = String.utf8EncodeChar u) :
    ∃ u surpair, i.run 0 = some (surpair, []) ∧
      j.run surpair = some (0, String.utf8EncodeChar u) ∧
      ∀ body cs, StringBody body cs → StringBody (i.bytes ++ (j.bytes ++ body)) (u :: cs) := by
  obtain ⟨a, b, c, d, cp, rfl, hhex⟩ := exists_unicode hi (.inl hhigh) hutf8
  obtain ⟨a', b', c', d', cp', rfl, hhex'⟩ := exists_unicode hj (.inr hlow) hutf8'
  rw [high_of_unit rfl, decide_eq_true_eq] at hhigh
  rw [low_of_unit rfl, decide_eq_true_eq] at hlow
  obtain ⟨h, rfl⟩ := Nat.exists_eq_add_of_le hhigh.1
  obtain ⟨l, rfl⟩ := Nat.exists_eq_add_of_le hlow.1
  have hh : h < 0x400 := by
    have hlt := hhigh.2
    omega
  have hl : l < 0x400 := by
    have hlt := hlow.2
    omega
  rw [overlaps_of_unit rfl hh] at hoverlaps
  obtain ⟨hrun, hrun'⟩ := run_pair (i := .unicode a b c d _) (j := .unicode a' b' c' d' _)
    rfl rfl hh hl
  obtain ⟨u, hu⟩ := exists_char (n := 0x10000 + 1024 * h + l) (by omega)
  have hsum : (if h.testBit 6 = true then 0 else 0x10000) + 1024 * h + l = u.toNat := by
    rw [hu, hoverlaps]
    rfl
  rw [hsum, encodeCodepoint_toNat] at hrun'
  exact ⟨u, _, hrun, hrun', fun body cs hbody => .pair hh hl hhex hhex' hu hbody⟩

theorem Faithful.tail {i : Item} (h : Faithful (i :: items)) : Faithful items where
  utf8 := fun bytes cp hmem => h.utf8 bytes cp (List.mem_cons_of_mem i hmem)
  adjacent := (List.isChain_cons.mp h.adjacent).2
  disjoint := fun j hj => h.disjoint j (List.mem_cons_of_mem i hj)

theorem Faithful.utf8_head {i : Item} (h : Faithful (i :: items)) (bytes : QByteArray) (cp : Nat)
    (heq : i = .sequence bytes cp) : ∃ u, bytes = String.utf8EncodeChar u :=
  h.utf8 bytes cp (by rw [heq]; exact List.mem_cons_self)

/-- What is read is what the grammar has, for items that are faithful. -/
theorem exists_stringBody (hitems : ∀ i ∈ items, Item.Valid i) (hpaired : paired false items)
    (hfaithful : Faithful items) :
    ∃ cs, StringBody (itemBytes items) cs ∧
      decodeItems 0 items = some (cs.flatMap String.utf8EncodeChar) := by
  generalize hn : items.length = n
  -- a pair takes two items
  induction n using Nat.strong_induction_on generalizing items with
  | _ n ih =>
      cases items with
      | nil => exact ⟨[], .nil, rfl⟩
      | cons i items =>
          obtain ⟨hi, hitems⟩ := List.forall_mem_cons.mp hitems
          rw [List.length_cons] at hn
          rw [paired] at hpaired
          cases hhigh : i.high with
          | false =>
              have hlow : i.low = false := by
                by_contra hlow
                rw [Bool.not_eq_false] at hlow
                simp [hhigh, hlow] at hpaired
              have hrest : paired false items := by simpa [hhigh, hlow] using hpaired
              obtain ⟨cs, hbody, hdecode⟩ :=
                ih items.length (by omega) hitems hrest hfaithful.tail rfl
              obtain ⟨u, hrun, hchar⟩ := hi.exists_char hhigh hlow hfaithful.utf8_head
              refine ⟨u :: cs, hchar _ _ hbody, ?_⟩
              exact decodeItems_cons.mpr ⟨_, _, _, hrun, hdecode, List.flatMap_cons⟩
          | true =>
              have hopen : paired true items := by simpa [hhigh] using hpaired
              cases items with
              | nil => cases hopen
              | cons j items =>
                  obtain ⟨hj, hitems⟩ := List.forall_mem_cons.mp hitems
                  rw [List.length_cons] at hn
                  have hlow : j.low = true :=
                    (List.isChain_cons_cons.mp hfaithful.adjacent).1 hhigh
                  have hnhigh : j.high = false := by
                    by_contra hjhigh
                    rw [Bool.not_eq_false] at hjhigh
                    simp [paired, hjhigh] at hopen
                  have hrest : paired false items := by
                    simpa [paired, hnhigh, hlow] using hopen
                  obtain ⟨cs, hbody, hdecode⟩ :=
                    ih items.length (by omega) hitems hrest hfaithful.tail.tail rfl
                  obtain ⟨u, surpair, hrun, hrun', hchar⟩ :=
                    exists_char_of_pair hi hj hhigh hlow
                      (hfaithful.disjoint i List.mem_cons_self) hfaithful.utf8_head
                      hfaithful.tail.utf8_head
                  refine ⟨u :: cs, hchar _ _ hbody, ?_⟩
                  refine decodeItems_cons.mpr ⟨_, _, _, hrun, ?_, (List.nil_append _).symm⟩
                  exact decodeItems_cons.mpr ⟨_, _, _, hrun', hdecode, List.flatMap_cons⟩

/-! ## When a string is decoded right -/

/-- A string is decoded as the grammar has it if and only if its items are faithful, whenever it
is read as items whose halves are paired. -/
theorem decodedRight_iff (start : List UInt8) :
    DecodedRight start ↔ ∀ items rest, (∀ i ∈ items, Item.Valid i) →
      start = itemBytes items ++ 0x22 :: rest → paired false items → Faithful items := by
  constructor
  · rintro hright items rest hitems rfl hpaired
    have hsome : (decodeItems 0 items).isSome := by
      rw [isSome_decodeItems]
      exact hpaired
    obtain ⟨out, hout⟩ := Option.isSome_iff_exists.mp hsome
    have hread : stringToken (itemBytes items ++ 0x22 :: rest) = (.string out, rest) :=
      stringToken_iff_items.mpr ⟨items, hitems, rfl, hout⟩
    obtain ⟨body, cs, hbody, hspelled, rfl⟩ := (hright.token out rest).mp hread
    obtain ⟨items', out', h⟩ := hspelled.exists_itemizes
    rw [h.bytes] at hbody
    obtain rfl := itemBytes_inj hitems h.valid hbody
    have heq : cs.flatMap String.utf8EncodeChar = out' := by
      rw [h.decode] at hout
      exact (Option.some.inj hout).symm
    exact ⟨h.utf8, h.adjacent, h.disjoint.mpr heq.symm⟩
  · intro hcond
    refine ⟨fun data rest => ?_, fun data rest => stringToken_iff_filtered⟩
    rw [getJsonToken_quote, stringToken_iff_items]
    constructor
    · rintro ⟨items, hitems, hstart, hout⟩
      have hpaired : paired false items = true := by
        have hsome := isSome_decodeItems 0 items
        rw [hout] at hsome
        exact hsome.symm
      obtain ⟨cs, hbody, hdecode⟩ :=
        exists_stringBody hitems hpaired (hcond items rest hitems hstart hpaired)
      rw [hout] at hdecode
      exact ⟨_, cs, hstart, hbody, Option.some.inj hdecode⟩
    · rintro ⟨body, cs, hstart, hbody, rfl⟩
      obtain ⟨items, out, h⟩ := hbody.exists_itemizes
      rw [h.bytes] at hstart
      have hpaired : paired false items = true := by
        have hsome := isSome_decodeItems 0 items
        rw [h.decode] at hsome
        exact hsome.symm
      have hfaithful := hcond items rest h.valid hstart hpaired
      refine ⟨items, h.valid, hstart, ?_⟩
      rw [h.decode, h.disjoint.mp hfaithful.disjoint]


/-- A pair beyond the first supplementary plane is read as a character of that plane. -/
theorem not_decodedRight_secondPlane :
    ¬ DecodedRight
      [0x5c, 0x75, 0x44, 0x38, 0x34, 0x30, 0x5c, 0x75, 0x44, 0x43, 0x30, 0x30, 0x22] := by
  intro hright
  -- U+20000 is read as U+10000
  have hread : getJsonToken
      [0x22, 0x5c, 0x75, 0x44, 0x38, 0x34, 0x30, 0x5c, 0x75, 0x44, 0x43, 0x30, 0x30, 0x22] =
        (.string [0xf0, 0x90, 0x80, 0x80], []) := by decide
  have hbody : StringBody [0x5c, 0x75, 0x44, 0x38, 0x34, 0x30, 0x5c, 0x75, 0x44, 0x43, 0x30, 0x30]
      [Char.ofNat 0x20000] := by
    have hhex₁ : FourHex [0x44, 0x38, 0x34, 0x30] (0xd800 + 0x40) := hextouint_iff.mp rfl
    have hhex₂ : FourHex [0x44, 0x43, 0x30, 0x30] (0xdc00 + 0) := hextouint_iff.mp rfl
    exact .pair (by decide) (by decide) hhex₁ hhex₂ rfl .nil
  have hspec := (hright.token [0xf0, 0xa0, 0x80, 0x80] []).mpr ⟨_, _, rfl, hbody, rfl⟩
  rw [hread] at hspec
  revert hspec
  decide

end Json
end Shulcrum
