import Shulcrum.Lib.SortUnique
import Shulcrum.Streams
import Shulcrum.Transaction

/-!
# Prefix tables

A `Rpa::PrefixTable` has one row for each 16-bit prefix; a row lists indices of
transactions.  A shorter prefix stands for the range of rows it starts.  A
table that is complete is serialized as its rows, each with its size, and a
table of contents with the offset of every 256th row.

**Results.**
* `row_addForPrefix`: adding an index changes the rows of the prefix only.
* `serialize_fst`: the cached serialization of the empty table is never wrong.
-/

namespace Shulcrum
namespace Rpa

open BTC Streams SortUnique

/-- `Rpa::PrefixBits`. -/
def prefixBits : Nat := 16

/-- `Rpa::PrefixBitsMin`. -/
def prefixBitsMin : Nat := 4

/-- `PrefixTable::numRows`. -/
def numRows : Nat := 2 ^ prefixBits

/-- `Rpa::SerializedTxIdxBits`. -/
def serializedTxIdxBits : Nat := 24

/-- `Rpa::MaxTxIdx`. -/
def maxTxIdx : Nat := 2 ^ serializedTxIdxBits - 1

/-- `Rpa::TxIdx`. -/
abbrev TxIdx := UInt32

/-- `Rpa::Prefix`: its number of bits, at the front of the 16 bits of `n`. -/
structure Prefix where
  bits : Nat
  n : UInt16
  min_le : prefixBitsMin ≤ bits
  le_max : bits ≤ prefixBits

namespace Prefix

/-- `Rpa::Prefix(Rpa::Hash(input))`: the first 16 bits of the hash of an input. -/
def ofTxIn (H : Hashers) (input : CTxIn) : Prefix :=
  ⟨prefixBits, H.rpaPrefix input, by decide, le_refl _⟩

/-- `Prefix::range`: the first row and the one after the last. -/
def range (p : Prefix) : Nat × Nat := (p.n.toNat, p.n.toNat + 2 ^ (prefixBits - p.bits))

/-- The rows of a prefix, as the loops of the generic functions go through them. -/
def rows (p : Prefix) (size : Nat) : List Nat :=
  List.range' p.range.1 (min p.range.2 size - p.range.1)

theorem mem_rows {p : Prefix} {size i : Nat} :
    i ∈ p.rows size ↔ p.range.1 ≤ i ∧ i < p.range.2 ∧ i < size := by
  rw [rows, List.mem_range'_1]
  omega

theorem nodup_rows (p : Prefix) (size : Nat) : (p.rows size).Nodup := List.nodup_range'

/-- The row of a full prefix. -/
theorem mem_rows_ofTxIn {H : Hashers} {input : CTxIn} {i : Nat} :
    i ∈ (ofTxIn H input).rows numRows ↔ i = (H.rpaPrefix input).toNat := by
  have hlt : (H.rpaPrefix input).toNat < numRows := (H.rpaPrefix input).toNat_lt
  rw [mem_rows]
  simp only [range, ofTxIn, Nat.sub_self, Nat.pow_zero]
  omega

end Prefix

/-- `push_back`, unless the item is the last one already. -/
def pushBack (item : TxIdx) (vec : List TxIdx) : List TxIdx :=
  if vec.getLast? = some item then vec else vec ++ [item]

theorem mem_pushBack {item x : TxIdx} {vec : List TxIdx} :
    x ∈ pushBack item vec ↔ x ∈ vec ∨ x = item := by
  unfold pushBack
  split_ifs with hlast
  · refine ⟨Or.inl, ?_⟩
    rintro (hx | rfl)
    · exact hx
    · exact List.mem_of_getLast? hlast
  · simp

/--
A `PrefixTable` that can be written to.  `isDefinitelyEmpty` is set until the
first index is added.
-/
structure PrefixTable where
  rows : List (List TxIdx)
  isDefinitelyEmpty : Bool
  length_rows : rows.length = numRows
  rows_of_empty : isDefinitelyEmpty = true → rows = List.replicate numRows []

namespace PrefixTable

/-- `PrefixTable()`. -/
def empty : PrefixTable where
  rows := List.replicate numRows []
  isDefinitelyEmpty := true
  length_rows := List.length_replicate
  rows_of_empty _ := rfl

theorem length_foldl_modify {l : List Nat} {f : List TxIdx → List TxIdx}
    {rows : List (List TxIdx)} :
    (l.foldl (fun rows i => rows.modify i f) rows).length = rows.length := by
  induction l generalizing rows with
  | nil => rfl
  | cons i l ih => rw [List.foldl_cons, ih, List.length_modify]

/-- `PrefixTable::addForPrefix`. -/
def addForPrefix (t : PrefixTable) (p : Prefix) (item : TxIdx) : PrefixTable where
  rows := (p.rows t.rows.length).foldl (fun rows i => rows.modify i (pushBack item)) t.rows
  isDefinitelyEmpty := false
  length_rows := length_foldl_modify.trans t.length_rows
  rows_of_empty h := by cases h

/-- The row at an index. -/
def row (t : PrefixTable) (i : Nat) : List TxIdx := t.rows[i]?.getD []

/-- `PrefixTable::searchPrefix` of a table that can be written to. -/
def searchPrefix (t : PrefixTable) (p : Prefix) (sortAndMakeUnique : Bool) : List TxIdx :=
  let ret := (p.rows t.rows.length).flatMap t.row
  if sortAndMakeUnique ∧ ret.length > 1 then sortUnique (fun a b => decide (a ≤ b)) ret else ret

section Rows

theorem getElem?_foldl_modify {l : List Nat} (hl : l.Nodup) {f : List TxIdx → List TxIdx}
    {rows : List (List TxIdx)} {k : Nat} :
    (l.foldl (fun rows i => rows.modify i f) rows)[k]? =
      if k ∈ l then rows[k]?.map f else rows[k]? := by
  induction l generalizing rows with
  | nil => simp
  | cons i l ih =>
      obtain ⟨hi, hl⟩ := List.nodup_cons.mp hl
      rw [List.foldl_cons, ih hl, List.getElem?_modify]
      by_cases hk : i = k
      · subst hk
        simp [hi]
      · have hk' : ¬ k = i := fun he => hk he.symm
        simp [hk, hk']

/-- Adding an index changes the rows of the prefix only. -/
theorem row_addForPrefix (t : PrefixTable) (p : Prefix) (item : TxIdx) {i : Nat}
    (hi : i < numRows) :
    (t.addForPrefix p item).row i =
      if i ∈ p.rows numRows then pushBack item (t.row i) else t.row i := by
  have hget : t.rows[i]? = some (t.row i) := by
    rw [row, List.getElem?_eq_getElem (by rw [t.length_rows]; exact hi)]
    rfl
  have hrow : (t.addForPrefix p item).row i =
      ((p.rows t.rows.length).foldl (fun rows i => rows.modify i (pushBack item)) t.rows)[i]?.getD
        [] := rfl
  rw [hrow, getElem?_foldl_modify (p.nodup_rows _), t.length_rows, hget]
  split_ifs <;> rfl

theorem row_empty (i : Nat) : empty.row i = [] := by
  simp only [row, empty, List.getElem?_replicate]
  split_ifs <;> rfl

end Rows

section Serialize

/-- `PrefixTable::serializeRow`: three bytes for each index. -/
def serializeRow (vec : List TxIdx) : List UInt8 :=
  vec.flatMap fun n => leBytes (serializedTxIdxBits / 8) n.toNat

/-- The buffer that is written, and the offsets of the table of contents. -/
structure Writer where
  dataBuf : List UInt8
  prefix0Offsets : List Nat

/-- The loop over the rows; `i` is the index of the first one. -/
def writeRows : Nat → List (List TxIdx) → Writer → Writer
  | _, [], w => w
  | i, vec :: rows, w =>
      writeRows (i + 1) rows
        { dataBuf :=
            w.dataBuf ++ writeCompactSize (serializeRow vec).length ++ serializeRow vec
          prefix0Offsets :=
            if i % 256 = 0 then w.prefix0Offsets.set (i / 256) w.dataBuf.length
            else w.prefix0Offsets }

/-- Write over the bytes of a buffer at a position. -/
def overwrite (b x : List UInt8) (pos : Nat) : List UInt8 :=
  b.take pos ++ x ++ b.drop (pos + x.length)

/-- The buffer of `PrefixTable::serialize` before it is compressed. -/
def dataBuf (t : PrefixTable) : List UInt8 :=
  -- two bytes of header and nine that are reserved for the offset of the table of contents
  let header := [UInt8.ofNat prefixBits, UInt8.ofNat serializedTxIdxBits] ++ List.replicate 9 0
  let w := writeRows 0 t.rows { dataBuf := header, prefix0Offsets := List.replicate 256 0 }
  overwrite w.dataBuf (writeCompactSize w.dataBuf.length) 2 ++
    writeCompactSize w.prefix0Offsets.length ++ w.prefix0Offsets.flatMap (leBytes 8)

variable (qCompress : List UInt8 → List UInt8)

/-- The static `emptySerialization`: if it is set, it is that of the empty table. -/
structure EmptySerialization where
  value : Option (List UInt8)
  eq_of_some : ∀ ser, value = some ser → ser = qCompress empty.dataBuf

/-- The start: nothing is cached, and nothing is compressed. -/
def noCache : EmptySerialization id := ⟨none, fun _ h => by cases h⟩

variable {qCompress}

theorem eq_empty (t : PrefixTable) (h : t.isDefinitelyEmpty = true) : t = empty := by
  obtain ⟨rows, flag, hlen, hrows⟩ := t
  cases hrows h
  cases h
  rfl

/-- `PrefixTable::serialize`, and the cache after it. -/
def serialize (t : PrefixTable) (cache : EmptySerialization qCompress) :
    List UInt8 × EmptySerialization qCompress :=
  if h : t.isDefinitelyEmpty = true then
    match cache.value with
    | some ser => (ser, cache)
    | none =>
        (qCompress t.dataBuf,
          ⟨some (qCompress t.dataBuf),
            fun ser hser => by rw [← Option.some.inj hser, eq_empty t h]⟩)
  else (qCompress t.dataBuf, cache)

/-- The cache does not change what is returned. -/
theorem serialize_fst (t : PrefixTable) (cache : EmptySerialization qCompress) :
    (t.serialize cache).1 = qCompress t.dataBuf := by
  unfold serialize
  split_ifs with hempty
  · cases hvalue : cache.value with
    | none => rfl
    | some ser =>
        have hser := cache.eq_of_some ser hvalue
        rw [← eq_empty t hempty] at hser
        exact hser
  · rfl

end Serialize

end PrefixTable
end Rpa
end Shulcrum
