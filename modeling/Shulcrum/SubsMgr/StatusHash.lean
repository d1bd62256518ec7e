import Mathlib.Data.BitVec
import Mathlib.Data.List.Basic
import Mathlib.Tactic.IntervalCases
import Mathlib.Tactic.SplitIfs
import Shulcrum.Lib.Chunks

/-!
# The status of a script hash

The status is the hash of the text of the history.  `optimizedStatusHashCalc`
writes the text of each item into a small buffer on the stack and hands the
buffers to the hasher one by one.  `SBuf` cuts off what does not fit and prints
integers by itself.

A write or a read outside an array of the source is `none` here.

**Results.**
* `decimalDigits_eq`: every 32-bit integer is printed as its decimal notation.
* `itemBytes_eq`: nothing of an item is cut off.
* `hasherInput_eq`: the hasher gets the text of the plain version.
-/

namespace Shulcrum
namespace SubsMgr
namespace StatusHash

/-- The bytes of a string. -/
def utf8 (s : String) : List UInt8 := s.toList.flatMap String.utf8EncodeChar

@[simp] theorem utf8_append (s t : String) : utf8 (s ++ t) = utf8 s ++ utf8 t := by
  simp [utf8]

@[simp] theorem utf8_join (l : List String) : utf8 (String.join l) = l.flatMap utf8 := by
  simp only [utf8, String.toList_join, List.flatMap_assoc]
  rfl

section Hex

/-- The table of `ToHexFastInPlace`. -/
def hexmap : String := String.join
  ["000102030405060708090a0b0c0d0e0f", "101112131415161718191a1b1c1d1e1f",
   "202122232425262728292a2b2c2d2e2f", "303132333435363738393a3b3c3d3e3f",
   "404142434445464748494a4b4c4d4e4f", "505152535455565758595a5b5c5d5e5f",
   "606162636465666768696a6b6c6d6e6f", "707172737475767778797a7b7c7d7e7f",
   "808182838485868788898a8b8c8d8e8f", "909192939495969798999a9b9c9d9e9f",
   "a0a1a2a3a4a5a6a7a8a9aaabacadaeaf", "b0b1b2b3b4b5b6b7b8b9babbbcbdbebf",
   "c0c1c2c3c4c5c6c7c8c9cacbcccdcecf", "d0d1d2d3d4d5d6d7d8d9dadbdcdddedf",
   "e0e1e2e3e4e5e6e7e8e9eaebecedeeef", "f0f1f2f3f4f5f6f7f8f9fafbfcfdfeff"]

/-- The two characters of a byte. -/
def nibbles (x : UInt8) : List UInt8 := ((utf8 hexmap).drop (x.toNat * 2)).take 2

/-- `ToHexFastInPlace`; `none` if the destination is too small. -/
def toHexFastInPlace (ba : List UInt8) (bufsz : Nat) : Option (List UInt8) :=
  if bufsz < ba.length * 2 then none else some (ba.flatMap nibbles)

/-- The lower-case hexadecimal notation of a byte string. -/
def hexText (ba : List UInt8) : String :=
  String.join (ba.map fun x => String.ofList ((Nat.toDigits 16 x.toNat).leftpad 2 '0'))

/-- The two hexadecimal digits of a byte. -/
def hexDigits (n : Nat) : List UInt8 :=
  ((Nat.toDigits 16 n).leftpad 2 '0').flatMap String.utf8EncodeChar

theorem hexmap_eq : utf8 hexmap = ((List.range 256).map hexDigits).flatten := by
  rw [hexmap, utf8_join]
  decide +kernel

theorem length_hexDigits {n : Nat} (h : n < 256) : (hexDigits n).length = 2 := by
  interval_cases n <;> rfl

theorem nibbles_eq (x : UInt8) : nibbles x = hexDigits x.toNat := by
  rw [nibbles, hexmap_eq, Nat.mul_comm]
  refine Chunks.slice_flatten ?_ ?_
  · intro r hr
    obtain ⟨n, hn, rfl⟩ := List.mem_map.mp hr
    exact length_hexDigits (List.mem_range.mp hn)
  · rw [List.getElem?_map, List.getElem?_range x.toNat_lt]
    rfl

theorem length_nibbles (x : UInt8) : (nibbles x).length = 2 := by
  rw [nibbles_eq, length_hexDigits x.toNat_lt]

theorem flatMap_nibbles (ba : List UInt8) : ba.flatMap nibbles = utf8 (hexText ba) := by
  induction ba with
  | nil => rfl
  | cons x ba ih =>
      have hcons : utf8 (hexText (x :: ba)) = hexDigits x.toNat ++ utf8 (hexText ba) := by
        simp [utf8, hexText, hexDigits, String.toList_join]
      rw [List.flatMap_cons, ih, nibbles_eq, hcons]

theorem length_flatMap_nibbles (ba : List UInt8) :
    (ba.flatMap nibbles).length = ba.length * 2 := by
  induction ba with
  | nil => rfl
  | cons x ba ih =>
      rw [List.flatMap_cons, List.length_append, length_nibbles, ih, List.length_cons]
      omega

end Hex

section Decimal

/-- `TmpMaxLen`. -/
def tmpMaxLen : Nat := 64

/-- The conversion of a small integer to `char`. -/
def toChar (n : Int32) : UInt8 := n.toInt8.toUInt8

/-- The loop over the digits, the last one first, with `room` places left in `tmpBuf`. -/
def putDigits : Nat → Int32 → List UInt8 → Option (List UInt8)
  | 0, _, _ => none
  | room + 1, n, tmpBuf =>
      let tmpBuf := tmpBuf ++ [toChar (48 + n % 10)]
      let n := n / 10
      if n = 0 then some tmpBuf else putDigits room n tmpBuf

/-- What `append` collects in `tmpBuf`: the decimal notation backwards. -/
def decimalDigits (n : Int32) : Option (List UInt8) :=
  if n < 0 then do
    let (n, tmpBuf) :=
      -- the most negative number has no positive counterpart
      if n = Int32.minValue then (n / 10, [toChar (48 - n % 10)]) else (n, [])
    let tmpBuf ← putDigits (tmpMaxLen - tmpBuf.length) (-n) tmpBuf
    if tmpBuf.length < tmpMaxLen then some (tmpBuf ++ [45]) else none
  else putDigits tmpMaxLen n []

/-- The bytes of a number in decimal notation. -/
def decimal (m : Nat) : List UInt8 := utf8 m.repr

theorem utf8EncodeChar_digitChar {d : Nat} (h : d < 10) :
    String.utf8EncodeChar d.digitChar = [UInt8.ofNat (48 + d)] := by
  interval_cases d <;> decide

theorem decimal_of_lt {m : Nat} (h : m < 10) : decimal m = [UInt8.ofNat (48 + m)] := by
  simp [decimal, utf8, Nat.toDigits_of_lt_base h, utf8EncodeChar_digitChar h]

theorem decimal_of_le {m : Nat} (h : 10 ≤ m) :
    decimal m = decimal (m / 10) ++ [UInt8.ofNat (48 + m % 10)] := by
  simp [decimal, utf8, Nat.toDigits_of_base_le (by omega : 1 < 10) h,
    utf8EncodeChar_digitChar (Nat.mod_lt m (by omega : 10 > 0))]

/-- A number below a power of ten has at most that many digits. -/
theorem length_decimal_le {m k : Nat} (hk : 0 < k) (h : m < 10 ^ k) :
    (decimal m).length ≤ k := by
  induction k generalizing m with
  | zero => omega
  | succ k ih =>
      by_cases hm : m < 10
      · rw [decimal_of_lt hm]
        simp
      · have hlt : m / 10 < 10 ^ k := by
          rw [Nat.div_lt_iff_lt_mul (by omega)]
          rwa [Nat.pow_succ] at h
        have hk' : 0 < k := by
          by_contra h0
          obtain rfl : k = 0 := by omega
          omega
        have hlen := ih hk' hlt
        rw [decimal_of_le (by omega), List.length_append, List.length_singleton]
        omega

theorem toChar_digit {n : Int32} {m : Nat} (h : n.toInt = m) :
    toChar (48 + n % 10) = UInt8.ofNat (48 + m % 10) := by
  have hmod : (n % 10).toInt = ((m % 10 : Nat) : Int) := by
    have hten : (10 : Int32).toInt = 10 := by decide
    rw [Int32.toInt_mod, hten, h]
    exact (Int.ofNat_tmod m 10).symm
  have hofInt : n % 10 = Int32.ofInt ((m % 10 : Nat) : Int) := by
    rw [← hmod, Int32.ofInt_toInt]
  have hlt : m % 10 < 10 := Nat.mod_lt m (by omega)
  rw [hofInt]
  generalize m % 10 = d at hlt
  interval_cases d <;> decide

theorem toInt_div_ten {n : Int32} {m : Nat} (h : n.toInt = m) :
    (n / 10).toInt = ((m / 10 : Nat) : Int) := by
  have hten : (10 : Int32).toInt = 10 := by decide
  rw [Int32.toInt_div_of_ne_right _ _ (by decide), hten, h]
  exact (Int.ofNat_tdiv m 10).symm

/-- The loop writes the digits backwards, and it needs no more room than there are digits. -/
theorem putDigits_eq {room m : Nat} {n : Int32} (h : n.toInt = m) (hroom : 0 < room)
    (hlt : m < 10 ^ room) (tmpBuf : List UInt8) :
    putDigits room n tmpBuf = some (tmpBuf ++ (decimal m).reverse) := by
  induction room generalizing n m tmpBuf with
  | zero => omega
  | succ room ih =>
      have hdiv := toInt_div_ten h
      rw [putDigits, toChar_digit h]
      by_cases hm : m < 10
      · have hzero : n / 10 = 0 := by
          rw [← Int32.toInt_inj, hdiv, Nat.div_eq_of_lt hm]
          rfl
        simp only [hzero, if_true]
        rw [decimal_of_lt hm, Nat.mod_eq_of_lt hm, List.reverse_singleton]
      · have hne : n / 10 ≠ 0 := by
          intro h0
          rw [h0] at hdiv
          have h00 : (0 : Int32).toInt = 0 := rfl
          omega
        have hlt' : m / 10 < 10 ^ room := by
          rw [Nat.div_lt_iff_lt_mul (by omega)]
          rwa [Nat.pow_succ] at hlt
        have hroom' : 0 < room := by
          by_contra h0
          obtain rfl : room = 0 := by omega
          omega
        simp only [if_neg hne]
        have hdecimal := decimal_of_le (m := m) (by omega)
        rw [ih hdiv hroom' hlt', hdecimal, List.reverse_append, List.reverse_singleton,
          List.append_assoc]

theorem utf8_toString_of_nonneg {k : Int} (h : 0 ≤ k) :
    utf8 (toString k) = decimal k.toNat := by
  rw [Int.toString_eq_repr, Int.repr_eq_if, if_pos h, decimal]

theorem utf8_toString_of_neg {k : Int} (h : k < 0) :
    utf8 (toString k) = 45 :: decimal (-k).toNat := by
  have hminus : utf8 "-" = [45] := by decide
  rw [Int.toString_eq_repr, Int.repr_eq_if, if_neg (by omega), utf8_append, hminus, decimal]
  rfl

/-- Every 32-bit integer is printed as its decimal notation. -/
theorem decimalDigits_eq (n : Int32) :
    decimalDigits n = some (utf8 (toString n.toInt)).reverse := by
  have hlow := n.le_toInt
  have hhigh := n.toInt_lt
  have hzero : (0 : Int32).toInt = 0 := rfl
  rw [decimalDigits]
  by_cases hneg : n < 0
  · rw [if_pos hneg]
    have hn : n.toInt < 0 := by rwa [Int32.lt_iff_toInt_lt, hzero] at hneg
    rw [utf8_toString_of_neg hn, List.reverse_cons]
    by_cases hmin : n = Int32.minValue
    · subst hmin
      decide +kernel
    · have hneg : (-n).toInt = ((-n.toInt).toNat : Int) := by
        have hne : n.toInt ≠ Int32.minValue.toInt := fun h => hmin (Int32.toInt_inj.mp h)
        rw [Int32.toInt_minValue] at hne
        rw [Int32.toInt_neg, Int.bmod_eq_of_le (by omega) (by omega)]
        omega
      have hlen : (decimal (-n.toInt).toNat).length ≤ 10 :=
        length_decimal_le (by omega) (by omega)
      have hput := putDigits_eq hneg (by decide : 0 < tmpMaxLen) (by rw [tmpMaxLen]; omega) []
      simp only [if_neg hmin, List.length_nil, Nat.sub_zero, hput, Option.bind_eq_bind,
        Option.bind_some, List.nil_append, List.length_reverse]
      rw [if_pos (by rw [tmpMaxLen]; omega)]
  · rw [if_neg hneg]
    have hn : 0 ≤ n.toInt := by
      rw [Int32.lt_iff_toInt_lt, hzero] at hneg
      omega
    have hcast : n.toInt = (n.toInt.toNat : Int) := by omega
    have hput := putDigits_eq hcast (by decide : 0 < tmpMaxLen) (by rw [tmpMaxLen]; omega) []
    rw [hput, utf8_toString_of_nonneg hn, List.nil_append]

/-- Sign and digits of a 32-bit integer are at most eleven characters. -/
theorem length_utf8_toString_le (n : Int32) : (utf8 (toString n.toInt)).length ≤ 11 := by
  have hlow := n.le_toInt
  have hhigh := n.toInt_lt
  by_cases hn : 0 ≤ n.toInt
  · have hlen : (decimal n.toInt.toNat).length ≤ 10 := length_decimal_le (by omega) (by omega)
    rw [utf8_toString_of_nonneg hn]
    omega
  · have hlen : (decimal (-n.toInt).toNat).length ≤ 10 :=
      length_decimal_le (by omega) (by omega)
    rw [utf8_toString_of_neg (k := n.toInt) (by omega), List.length_cons]
    omega

end Decimal

section Buffer

/-- `SBuf`: the text in a buffer of `maxLen` characters. -/
structure SBuf (maxLen : Nat) where
  text : List UInt8 := []
  fits : text.length ≤ maxLen := by exact Nat.zero_le _

namespace SBuf

variable {maxLen : Nat}

/-- Characters copied into `strBuf` by hand, with `len` moved behind them. -/
def write (sbuf : SBuf maxLen) (cs : List UInt8) : Option (SBuf maxLen) :=
  if h : sbuf.text.length + cs.length ≤ maxLen then
    some ⟨sbuf.text ++ cs, by rwa [List.length_append]⟩
  else none

/-- `SBuf::append` of a character. -/
def appendChar (sbuf : SBuf maxLen) (c : UInt8) : SBuf maxLen :=
  if h : sbuf.text.length ≥ maxLen then sbuf
  else ⟨sbuf.text ++ [c], by rw [List.length_append, List.length_singleton]; omega⟩

/-- `SBuf::append` of an integer: what does not fit is cut off at the end. -/
def appendInt (sbuf : SBuf maxLen) (n : Int32) : Option (SBuf maxLen) := do
  let tmpBuf ← decimalDigits n
  let nBytes := min (maxLen - sbuf.text.length) tmpBuf.length
  some ⟨sbuf.text ++ tmpBuf.reverse.take nBytes, by
    have hfits := sbuf.fits
    rw [List.length_append, List.length_take]
    omega⟩

theorem write_of_le {sbuf : SBuf maxLen} {cs : List UInt8}
    (h : sbuf.text.length + cs.length ≤ maxLen) :
    ∃ sbuf', sbuf.write cs = some sbuf' ∧ sbuf'.text = sbuf.text ++ cs :=
  ⟨_, dif_pos h, rfl⟩

theorem appendChar_of_lt {sbuf : SBuf maxLen} (h : sbuf.text.length < maxLen) (c : UInt8) :
    (sbuf.appendChar c).text = sbuf.text ++ [c] := by
  rw [appendChar, dif_neg (by omega)]

/-- A number that fits is written in full. -/
theorem appendInt_of_le {sbuf : SBuf maxLen} {n : Int32} (h : sbuf.text.length + 11 ≤ maxLen) :
    ∃ sbuf', sbuf.appendInt n = some sbuf' ∧
      sbuf'.text = sbuf.text ++ utf8 (toString n.toInt) := by
  have hlen := length_utf8_toString_le n
  simp only [appendInt, decimalDigits_eq, Option.bind_eq_bind, Option.bind_some,
    List.reverse_reverse, List.length_reverse]
  refine ⟨_, rfl, ?_⟩
  simp only [Nat.min_eq_right (show (utf8 (toString n.toInt)).length ≤
    maxLen - sbuf.text.length by omega), List.take_length]

end SBuf

end Buffer

section Status

/-- What the status reads of a `Storage::HistoryItem`. -/
structure HistoryItem where
  hash : List UInt8
  height : Int32

/-- `HashLen`. -/
def hashLen : Nat := 32

/-- `WorstCaseElementSize`. -/
def worstCaseElementSize : Nat := hashLen * 2 + 11 + 2

/-- `BufSize`. -/
def bufSize : Nat := worstCaseElementSize + 10

/-- What one round of `optimizedStatusHashCalc` hands to the hasher. -/
def itemBytes (item : HistoryItem) : Option (List UInt8) := do
  let sbuf : SBuf bufSize := {}
  let hexLen := item.hash.length * 2
  let sbuf ←
    if hexLen ≤ hashLen * 2 then (toHexFastInPlace item.hash hexLen).bind sbuf.write
    else some sbuf
  let sbuf ← (sbuf.appendChar 58).appendInt item.height
  some (sbuf.appendChar 58).text

/-- The bytes that `optimizedStatusHashCalc` feeds to the hasher. -/
def hasherInput (hist : List HistoryItem) : Option (List UInt8) :=
  (hist.mapM itemBytes).map List.flatten

/-- `optimizedStatusHashCalc`, with the hash function as a parameter. -/
def optimizedStatusHashCalc (hashOnce : List UInt8 → List UInt8) (hist : List HistoryItem) :
    Option (List UInt8) := (hasherInput hist).map hashOnce

/-- The text of an item in the plain version. -/
def itemText (item : HistoryItem) : String :=
  hexText item.hash ++ ":" ++ toString item.height.toInt ++ ":"

/-- `historyString` of the plain version. -/
def historyString (hist : List HistoryItem) : String := String.join (hist.map itemText)

/-- Nothing of an item is cut off, and no character is written outside an array. -/
theorem itemBytes_eq {item : HistoryItem} (h : item.hash.length ≤ hashLen) :
    itemBytes item = some (utf8 (itemText item)) := by
  have hsize : bufSize = 87 := rfl
  have hhash : hashLen = 32 := rfl
  have hhex : toHexFastInPlace item.hash (item.hash.length * 2) =
      some (item.hash.flatMap nibbles) := if_neg (by omega)
  have hlen := length_flatMap_nibbles item.hash
  obtain ⟨sbuf, hwrite, htext⟩ := @SBuf.write_of_le bufSize {}
    (item.hash.flatMap nibbles) (by rw [List.length_nil]; omega)
  rw [List.nil_append] at htext
  have hcolon := @SBuf.appendChar_of_lt bufSize sbuf (by rw [htext]; omega) 58
  obtain ⟨sbuf', hint, htext'⟩ := @SBuf.appendInt_of_le bufSize (sbuf.appendChar 58)
    item.height (by rw [hcolon, htext, List.length_append, List.length_singleton]; omega)
  have hlen' := length_utf8_toString_le item.height
  have hend := @SBuf.appendChar_of_lt bufSize sbuf' (by
    rw [htext', hcolon, htext]
    simp only [List.length_append, List.length_singleton]
    omega) 58
  have hbyte : utf8 ":" = [58] := by decide
  simp only [itemBytes, if_pos (show item.hash.length * 2 ≤ hashLen * 2 by omega), hhex,
    Option.bind_eq_bind, Option.bind_some, hwrite, hint, hend, htext', hcolon, htext]
  rw [itemText, utf8_append, utf8_append, utf8_append, hbyte, flatMap_nibbles]

theorem utf8_historyString (hist : List HistoryItem) :
    utf8 (historyString hist) = (hist.map fun item => utf8 (itemText item)).flatten := by
  induction hist with
  | nil => rfl
  | cons item hist ih =>
      have hcons : utf8 (historyString (item :: hist)) =
          utf8 (itemText item) ++ utf8 (historyString hist) := by
        simp [utf8, historyString, String.toList_join]
      rw [hcons, ih, List.map_cons, List.flatten_cons]

theorem mapM_itemBytes {hist : List HistoryItem}
    (h : ∀ item ∈ hist, item.hash.length ≤ hashLen) :
    hist.mapM itemBytes = some (hist.map fun item => utf8 (itemText item)) := by
  induction hist with
  | nil => rfl
  | cons item hist ih =>
      have hitem := itemBytes_eq (h item List.mem_cons_self)
      have hrest := ih fun item' hmem => h item' (List.mem_cons_of_mem _ hmem)
      rw [List.mapM_cons, hitem, hrest]
      rfl

/--
The hasher gets the text of the plain version, for all hashes of at most 32 bytes
and all 32-bit heights.
-/
theorem hasherInput_eq (hist : List HistoryItem)
    (h : ∀ item ∈ hist, item.hash.length ≤ hashLen) :
    hasherInput hist = some (utf8 (historyString hist)) := by
  rw [hasherInput, mapM_itemBytes h, utf8_historyString]
  rfl

/-- An empty hash and the most negative height. -/
theorem hasherInput_minValue :
    hasherInput [⟨[], Int32.minValue⟩, ⟨[1, 255], 5⟩] = some (utf8 ":-2147483648:01ff:5:") := by
  rw [hasherInput_eq _ (by decide)]
  decide +kernel

end Status

end StatusHash
end SubsMgr
end Shulcrum
