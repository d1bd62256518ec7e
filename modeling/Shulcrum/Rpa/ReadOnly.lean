import Shulcrum.Lib.Chunks
import Shulcrum.Rpa.PrefixTable

/-!
# Reading prefix tables

A `PrefixTable` made from serialized data keeps the uncompressed data and its
table of contents.  A row is loaded when it is first needed: the reader starts
at the offset of its first byte and skips the rows before it.

**Results.**
* `dataBuf_eq`: the serialized data in closed form.
* `readHeader_image`, `loadRow_image`: what is read from such data.
-/

namespace Shulcrum
namespace Rpa

open BTC Streams SortUnique

/-- `PrefixTable::ReadOnly`.  A row is null until it is loaded. -/
structure ReadOnly where
  serializedData : List UInt8
  rows : List (Option (List UInt8)) := List.replicate numRows none
  prefix0Offsets : List Nat

namespace ReadOnly

section Deserialize

/-- The loop over the entries of the table of contents. -/
def readToc (b : List UInt8) : Nat → Nat → Except ReadError (List Nat)
  | 0, _ => .ok []
  | k + 1, pos => do
      let (val, pos) ← readLE b 8 pos
      require (val < b.length) "PrefixTable: Bad toc entry, out of range"
      let vals ← readToc b k pos
      return val :: vals

/-- The checks of the constructor on the uncompressed data, and the table of contents. -/
def readHeader (b : List UInt8) : Except ReadError (List Nat) := do
  let (pbits, pos) ← readLE b 1 0
  let (dbits, pos) ← readLE b 1 pos
  require (pbits = prefixBits) "PrefixTable: Wrong byte value at position 0"
  require (dbits = serializedTxIdxBits) "PrefixTable: Wrong byte value at position 1"
  let (tocOffset, _) ← readCompactSize b pos
  require (tocOffset < b.length) "PrefixTable: Bad tocOffset, exceeds buffer size"
  let pos ← seek tocOffset
  let (numTocEntries, pos) ← readCompactSize b pos
  require (numTocEntries = 256) "PrefixTable: Bad toc entry count"
  readToc b 256 pos

/-- `PrefixTable(compressedSerializedData)`. -/
def deserialize (qUncompress : List UInt8 → Option (List UInt8)) (ser : List UInt8) :
    Except ReadError ReadOnly :=
  match qUncompress ser with
  | none =>
      .error (.failure
        "PrefixTable: Failed to uncompress serialized data .. is the data corrupt?")
  | some b => do
      let toc ← readHeader b
      return { serializedData := b, prefix0Offsets := toc }

end Deserialize

section Load

/-- The loop of `lazyLoadRow` that skips rows. -/
def skipRows (b : List UInt8) : Nat → Nat → Except ReadError Nat
  | 0, pos => .ok pos
  | k + 1, pos => do
      let (sz, pos) ← readCompactSize b pos
      let pos ← seek (pos + sz)
      skipRows b k pos

/-- The size of the row after `pfx1` others and where its bytes start. -/
def findRow (b : List UInt8) (start pfx1 : Nat) : Except ReadError (Nat × Nat) := do
  require (start ≤ b.length) "VectorReader(...): end of data (m_pos > m_data.size())"
  let pos ← skipRows b pfx1 start
  readCompactSize b pos

/-- The bytes of the row at `index`. -/
def loadRow (ro : ReadOnly) (index : Nat) : Except ReadError (List UInt8) :=
  match ro.prefix0Offsets[index / 256]? with
  | none =>
      .error (.failure ("PrefixTable serialized TOC has bad size, indexing position " ++
        toString (index / 256) ++ " but TOC size is " ++ toString ro.prefix0Offsets.length ++
        ". FIXME!"))
  | some start => do
      let b := ro.serializedData
      let (sz, pos) ← findRow b start (index % 256)
      require (sz ≤ b.length ∧ pos + sz ≤ b.length)
        ("Bad size read from serialized data buffer when attempting to deserialize a " ++
          "PrefixTable row")
      require (sz % (serializedTxIdxBits / 8) = 0)
        "packedBuffer must have a length that is a multiple of bytesPerElement!"
      return (b.drop pos).take sz

/-- `PrefixTable::lazyLoadRow`. -/
def lazyLoadRow (ro : ReadOnly) (index : Nat) : Except ReadError ReadOnly :=
  match ro.rows[index]? with
  -- `rows.at(index)` throws
  | none => .error (.failure "std::out_of_range")
  | some (some _) => .ok ro
  | some none => do
      let row ← loadRow ro index
      return { ro with rows := ro.rows.set index (some row) }

/-- The numbers of a `PackedNumView`. -/
def elements (buf : List UInt8) : List TxIdx :=
  (List.range (buf.length / 3)).map fun i => UInt32.ofNat (ofLE ((buf.drop (3 * i)).take 3))

/-- The loop of `searchPrefixGeneric`, which loads each row it needs. -/
def collect : List Nat → ReadOnly → List TxIdx → Except ReadError (List TxIdx × ReadOnly)
  | [], ro, ret => .ok (ret, ro)
  | i :: is, ro, ret => do
      let ro ← lazyLoadRow ro i
      collect is ro (ret ++ elements (ro.rows[i]?.join.getD []))

/-- `PrefixTable::searchPrefix` of a table that was read. -/
def searchPrefix (ro : ReadOnly) (p : Prefix) (sortAndMakeUnique : Bool) :
    Except ReadError (List TxIdx × ReadOnly) := do
  let (ret, ro) ← collect (p.rows ro.rows.length) ro []
  if sortAndMakeUnique ∧ ret.length > 1 then
    return (sortUnique (fun a b => decide (a ≤ b)) ret, ro)
  return (ret, ro)

/-- Rows are loaded one after the other. -/
def loads (ro : ReadOnly) : List Nat → Except ReadError ReadOnly
  | [] => .ok ro
  | i :: is => do
      let ro ← lazyLoadRow ro i
      loads ro is

end Load

section Image

/-- The bytes of one row. -/
def rowBytes (vec : List TxIdx) : List UInt8 :=
  writeCompactSize (PrefixTable.serializeRow vec).length ++ PrefixTable.serializeRow vec

/-- The bytes of the rows. -/
def rowsBytes (rows : List (List TxIdx)) : List UInt8 := rows.flatMap rowBytes

/-- The offset of the row at index `m`. -/
def offset (rows : List (List TxIdx)) (m : Nat) : Nat := 11 + (rowsBytes (rows.take m)).length

/-- The part of the data before the rows. -/
def header (rows : List (List TxIdx)) : List UInt8 :=
  let cs := writeCompactSize (11 + (rowsBytes rows).length)
  [UInt8.ofNat prefixBits, UInt8.ofNat serializedTxIdxBits] ++ cs ++
    List.replicate (9 - cs.length) 0

/-- Serialized data with any table of contents. -/
def image (rows : List (List TxIdx)) (toc : List Nat) : List UInt8 :=
  header rows ++ rowsBytes rows ++ writeCompactSize toc.length ++ toc.flatMap (leBytes 8)

/-- The table of contents of the rows. -/
def offsets (rows : List (List TxIdx)) : List Nat :=
  (List.range 256).map fun k => offset rows (256 * k)

variable {rows : List (List TxIdx)} {toc : List Nat}

theorem length_offsets (rows : List (List TxIdx)) : (offsets rows).length = 256 := by
  rw [offsets, List.length_map, List.length_range]

@[simp] theorem length_header : (header rows).length = 11 := by
  have hle := length_writeCompactSize_le (11 + (rowsBytes rows).length)
  simp only [header, List.length_append, List.length_cons, List.length_nil,
    List.length_replicate]
  omega

theorem dataBuf_writeRows (i : Nat) (rows : List (List TxIdx)) (w : PrefixTable.Writer) :
    (PrefixTable.writeRows i rows w).dataBuf = w.dataBuf ++ rowsBytes rows := by
  induction rows generalizing i w with
  | nil => simp [PrefixTable.writeRows, rowsBytes]
  | cons vec rows ih =>
      rw [PrefixTable.writeRows, ih]
      simp [rowsBytes, rowBytes]

theorem getElem?_writeRows (i : Nat) (rows : List (List TxIdx)) (w : PrefixTable.Writer) {k : Nat}
    (hk : k < w.prefix0Offsets.length) :
    (PrefixTable.writeRows i rows w).prefix0Offsets[k]? =
      if i ≤ 256 * k ∧ 256 * k < i + rows.length then
        some (w.dataBuf.length + (rowsBytes (rows.take (256 * k - i))).length)
      else w.prefix0Offsets[k]? := by
  induction rows generalizing i w with
  | nil =>
      have hno : ¬ (i ≤ 256 * k ∧ 256 * k < i + ([] : List (List TxIdx)).length) := by
        simp only [List.length_nil]
        omega
      rw [if_neg hno, PrefixTable.writeRows]
  | cons vec rows ih =>
      rw [PrefixTable.writeRows, ih _ _ (by split_ifs <;> simpa using hk)]
      by_cases hik : i = 256 * k
      · -- this row starts a new first byte
        have h1 : ¬ (i + 1 ≤ 256 * k ∧ 256 * k < i + 1 + rows.length) := by omega
        have h2 : i ≤ 256 * k ∧ 256 * k < i + (vec :: rows).length := by
          rw [List.length_cons]
          omega
        have hmod : i % 256 = 0 := by omega
        have hdiv : i / 256 = k := by omega
        have hzero : 256 * k - i = 0 := by omega
        rw [if_neg h1, if_pos h2, if_pos hmod, hdiv, hzero, List.getElem?_set_self hk]
        simp [rowsBytes]
      · by_cases hin : i + 1 ≤ 256 * k ∧ 256 * k < i + 1 + rows.length
        · have h2 : i ≤ 256 * k ∧ 256 * k < i + (vec :: rows).length := by
            rw [List.length_cons]
            omega
          obtain ⟨j, hj⟩ : ∃ j, 256 * k - i = j + 1 := ⟨256 * k - i - 1, by omega⟩
          have hj' : 256 * k - (i + 1) = j := by omega
          rw [if_pos hin, if_pos h2, hj, hj', List.take_succ_cons]
          simp only [rowsBytes, List.flatMap_cons, rowBytes, List.length_append,
            Option.some.injEq]
          omega
        · have h2 : ¬ (i ≤ 256 * k ∧ 256 * k < i + (vec :: rows).length) := by
            rw [List.length_cons]
            omega
          rw [if_neg hin, if_neg h2]
          split_ifs with hmod
          · have hne : i / 256 ≠ k := by omega
            rw [List.getElem?_set_ne hne]
          · rfl

theorem length_writeRows (i : Nat) (rows : List (List TxIdx)) (w : PrefixTable.Writer) :
    (PrefixTable.writeRows i rows w).prefix0Offsets.length = w.prefix0Offsets.length := by
  induction rows generalizing i w with
  | nil => rfl
  | cons vec rows ih =>
      rw [PrefixTable.writeRows, ih]
      split_ifs <;> simp

theorem overwrite_header (a b : UInt8) {x z rest : List UInt8} (hz : x.length ≤ z.length) :
    PrefixTable.overwrite ([a, b] ++ z ++ rest) x 2 =
      [a, b] ++ x ++ z.drop x.length ++ rest := by
  have hdrop : ([a, b] ++ z ++ rest).drop (2 + x.length) = z.drop x.length ++ rest := by
    rw [← List.drop_drop, List.append_assoc]
    simp [List.drop_append_of_le_length hz]
  rw [PrefixTable.overwrite, hdrop]
  simp

theorem offsets_writeRows {rows : List (List TxIdx)} (hrows : rows.length = numRows)
    {b : List UInt8} (hb : b.length = 11) :
    (PrefixTable.writeRows 0 rows
      { dataBuf := b, prefix0Offsets := List.replicate 256 0 }).prefix0Offsets = offsets rows := by
  have hnum : numRows = 65536 := rfl
  apply List.ext_getElem?
  intro k
  by_cases hk : k < 256
  · have hin : 0 ≤ 256 * k ∧ 256 * k < 0 + rows.length := by omega
    have hlen : k < (List.replicate 256 0).length := by
      rw [List.length_replicate]
      exact hk
    rw [getElem?_writeRows _ _ _ hlen, if_pos hin, offsets, List.getElem?_map,
      List.getElem?_range hk]
    simp only [Option.map_some, offset, hb, Nat.sub_zero]
  · rw [List.getElem?_eq_none, List.getElem?_eq_none]
    · rw [length_offsets]
      omega
    · rw [length_writeRows, List.length_replicate]
      omega

/-- The serialized form of a table. -/
theorem dataBuf_eq (t : PrefixTable) : t.dataBuf = image t.rows (offsets t.rows) := by
  have hle := length_writeCompactSize_le (11 + (rowsBytes t.rows).length)
  simp only [PrefixTable.dataBuf]
  rw [offsets_writeRows t.length_rows (by simp), dataBuf_writeRows]
  simp only [List.length_append, List.length_cons, List.length_nil, List.length_replicate]
  rw [overwrite_header _ _ (by simpa using hle), List.drop_replicate]
  simp only [image, header]

end Image

section Reading

variable {b : List UInt8} {pos : Nat}

theorem readToc_of_drop (hlen : b.length < posLimit) {toc : List Nat} {rest : List UInt8}
    (htoc : ∀ val ∈ toc, val < b.length) (hb : b.drop pos = toc.flatMap (leBytes 8) ++ rest) :
    readToc b toc.length pos = .ok toc := by
  induction toc generalizing pos with
  | nil => rfl
  | cons val toc ih =>
      have hval := htoc val List.mem_cons_self
      have hlim : posLimit = 2 ^ 63 := rfl
      rw [List.flatMap_cons, List.append_assoc] at hb
      have hread : readLE b 8 pos = .ok (val, pos + 8) :=
        readLE_of_drop hlen (by omega) (by omega) hb
      have hrest := drop_add_length hb
      rw [length_leBytes] at hrest
      have hnext := ih (fun v hv => htoc v (List.mem_cons_of_mem _ hv)) hrest
      rw [List.length_cons, readToc, hread]
      simp only [bind, Except.bind, require_of hval, hnext]
      rfl

theorem seek_of_lt {n : Nat} (hn : n < posLimit) : seek n = .ok n := by
  have hlim : posLimit = 2 ^ 63 := rfl
  have hmod : n % 2 ^ 64 = n := Nat.mod_eq_of_lt (by omega)
  rw [seek, hmod, if_neg (not_le.mpr hn)]

/-- A row at a position. -/
theorem readCompactSize_row (hlen : b.length < posLimit) {vec : List TxIdx} {rest : List UInt8}
    (hb : b.drop pos = rowBytes vec ++ rest) :
    ∃ start, readCompactSize b pos = .ok ((PrefixTable.serializeRow vec).length, start) ∧
      start + (PrefixTable.serializeRow vec).length = pos + (rowBytes vec).length ∧
      start + (PrefixTable.serializeRow vec).length ≤ b.length ∧
      (b.drop start).take (PrefixTable.serializeRow vec).length =
        PrefixTable.serializeRow vec := by
  have hlim : posLimit = 2 ^ 63 := rfl
  have hsize := congrArg List.length hb
  simp only [List.length_drop, rowBytes, List.length_append] at hsize
  rw [rowBytes, List.append_assoc] at hb
  have hne := List.length_pos_iff.mpr
    (writeCompactSize_ne_nil (PrefixTable.serializeRow vec).length)
  refine ⟨pos + (writeCompactSize (PrefixTable.serializeRow vec).length).length,
    readCompactSize_of_drop hlen (by omega) hb, ?_, by omega, ?_⟩
  · rw [rowBytes, List.length_append]
    omega
  · rw [drop_add_length hb, List.take_left]

theorem skipRows_of_drop (hlen : b.length < posLimit) {l : List (List TxIdx)} {rest : List UInt8}
    (hb : b.drop pos = rowsBytes l ++ rest) (hpos : pos ≤ b.length) :
    skipRows b l.length pos = .ok (pos + (rowsBytes l).length) := by
  induction l generalizing pos with
  | nil => simp [skipRows, rowsBytes]
  | cons vec l ih =>
      have hcons : rowsBytes (vec :: l) = rowBytes vec ++ rowsBytes l := rfl
      rw [hcons, List.append_assoc] at hb
      obtain ⟨start, hread, hend, hin, -⟩ := readCompactSize_row hlen hb
      have hrest := drop_add_length hb
      rw [List.length_cons, skipRows, hread]
      simp only [bind, Except.bind]
      rw [seek_of_lt (by omega)]
      simp only
      rw [hend, ih hrest (by omega), hcons, List.length_append, Nat.add_assoc]

end Reading

section Elements

theorem serializeRow_eq_flatten (vec : List TxIdx) :
    PrefixTable.serializeRow vec = (vec.map fun n => leBytes 3 n.toNat).flatten := by
  rw [PrefixTable.serializeRow, List.flatMap_def]
  rfl

theorem length_serializeRow (vec : List TxIdx) :
    (PrefixTable.serializeRow vec).length = 3 * vec.length := by
  rw [serializeRow_eq_flatten, Chunks.length_flatten_of_length (s := 3) (by simp),
    List.length_map]

/-- Indices of 24 bits are read back. -/
theorem elements_serializeRow {vec : List TxIdx} (h : ∀ n ∈ vec, n.toNat ≤ maxTxIdx) :
    elements (PrefixTable.serializeRow vec) = vec := by
  have hmax : maxTxIdx = 2 ^ 24 - 1 := rfl
  have hsize : (PrefixTable.serializeRow vec).length / 3 = vec.length := by
    rw [length_serializeRow]
    omega
  apply List.ext_getElem?
  intro i
  rw [elements, hsize, List.getElem?_map]
  by_cases hi : i < vec.length
  · have hget : (vec.map fun n => leBytes 3 n.toNat)[i]? = some (leBytes 3 vec[i].toNat) := by
      rw [List.getElem?_map, List.getElem?_eq_getElem hi]
      rfl
    have hle := h vec[i] (List.getElem_mem hi)
    rw [List.getElem?_range hi, List.getElem?_eq_getElem hi, Option.map_some,
      serializeRow_eq_flatten, Chunks.slice_flatten (by simp) hget, ofLE_leBytes (by omega),
      UInt32.ofNat_toNat]
  · have hout : vec.length ≤ i := by omega
    rw [List.getElem?_eq_none hout, List.getElem?_eq_none (by simpa using hout)]
    rfl

end Elements

section Roundtrip

variable {rows : List (List TxIdx)} {toc : List Nat}

theorem drop_image_offset (m : Nat) :
    (image rows toc).drop (offset rows m) =
      rowsBytes (rows.drop m) ++ (writeCompactSize toc.length ++ toc.flatMap (leBytes 8)) := by
  have hsplit : rowsBytes rows = rowsBytes (rows.take m) ++ rowsBytes (rows.drop m) := by
    rw [rowsBytes, rowsBytes, rowsBytes, ← List.flatMap_append, List.take_append_drop]
  have hlen : offset rows m = (header rows ++ rowsBytes (rows.take m)).length := by
    rw [List.length_append, length_header, offset]
  rw [hlen, image, hsplit]
  simp only [List.append_assoc]
  rw [← List.append_assoc, List.drop_left]

theorem drop_image_toc :
    (image rows toc).drop (11 + (rowsBytes rows).length) =
      writeCompactSize toc.length ++ toc.flatMap (leBytes 8) := by
  have hlen : 11 + (rowsBytes rows).length = (header rows ++ rowsBytes rows).length := by
    rw [List.length_append, length_header]
  rw [hlen, image, List.append_assoc, List.drop_left]

/-- The constructor accepts the data with any offsets inside the buffer. -/
theorem readHeader_image (hlen : (image rows toc).length < posLimit) (htoc : toc.length = 256)
    (hin : ∀ val ∈ toc, val < (image rows toc).length) : readHeader (image rows toc) = .ok toc := by
  have hlim : posLimit = 2 ^ 63 := rfl
  obtain ⟨x, hx⟩ : ∃ x, image rows toc =
      UInt8.ofNat prefixBits :: UInt8.ofNat serializedTxIdxBits ::
        (writeCompactSize (11 + (rowsBytes rows).length) ++ x) := by
    simp only [image, header, List.append_assoc]
    exact ⟨_, rfl⟩
  rw [← List.drop_zero (l := image rows toc)] at hx
  obtain ⟨h0, hdrop0⟩ := readLE_marker hlen hx
  obtain ⟨h1, hdrop1⟩ := readLE_marker hlen hdrop0
  have hsize : 11 + (rowsBytes rows).length < (image rows toc).length := by
    have hpos := List.length_pos_iff.mpr (writeCompactSize_ne_nil toc.length)
    simp only [image, List.length_append, length_header]
    omega
  have h2 := readCompactSize_of_drop hlen (by omega) hdrop1
  have h3 : seek (11 + (rowsBytes rows).length) = .ok _ := seek_of_lt (by omega)
  have hdrop2 : (image rows toc).drop (11 + (rowsBytes rows).length) = _ := drop_image_toc
  have h4 := readCompactSize_of_drop hlen (by omega) hdrop2
  have hdrop3 := drop_add_length hdrop2
  rw [← List.append_nil (toc.flatMap (leBytes 8))] at hdrop3
  have h5 := readToc_of_drop hlen hin hdrop3
  rw [htoc] at h4 h5
  have hp : (UInt8.ofNat prefixBits).toNat = prefixBits := rfl
  have hd : (UInt8.ofNat serializedTxIdxBits).toNat = serializedTxIdxBits := rfl
  rw [hp] at h0
  rw [hd] at h1
  simp only [readHeader, h0, h1, h2, h3, h4, bind, Except.bind, require_of hsize]
  exact h5

/-- The row that a table of contents leads to. -/
theorem loadRow_image (hlen : (image rows toc).length < posLimit) {ro : ReadOnly}
    (hdata : ro.serializedData = image rows toc) (hoffs : ro.prefix0Offsets = toc) {index m : Nat}
    (hoff : toc[index / 256]? = some (offset rows m)) {vec : List TxIdx}
    (hvec : rows[m + index % 256]? = some vec) :
    loadRow ro index = .ok (PrefixTable.serializeRow vec) := by
  have hdrop : (image rows toc).drop (offset rows m) = _ := drop_image_offset m
  have hsplit : rows.drop m = (rows.drop m).take (index % 256) ++
      vec :: (rows.drop m).drop (index % 256 + 1) := by
    have hget : (rows.drop m)[index % 256]? = some vec := by
      rw [List.getElem?_drop]
      exact hvec
    obtain ⟨hlt, rfl⟩ := List.getElem?_eq_some_iff.mp hget
    rw [List.cons_getElem_drop_succ, List.take_append_drop]
  have hlong : ((rows.drop m).take (index % 256)).length = index % 256 := by
    obtain ⟨hlt, -⟩ := List.getElem?_eq_some_iff.mp hvec
    rw [List.length_take, List.length_drop]
    omega
  generalize (rows.drop m).take (index % 256) = before at hsplit hlong
  generalize (rows.drop m).drop (index % 256 + 1) = after at hsplit
  have hbytes : rowsBytes (before ++ vec :: after) =
      rowsBytes before ++ (rowBytes vec ++ rowsBytes after) := by
    simp [rowsBytes]
  rw [hsplit, hbytes, List.append_assoc, List.append_assoc] at hdrop
  have hstart : offset rows m ≤ (image rows toc).length := by
    by_contra hlt
    rw [List.drop_eq_nil_of_le (by omega)] at hdrop
    simp [writeCompactSize_ne_nil] at hdrop
  have hskip := skipRows_of_drop hlen hdrop hstart
  have hrow := drop_add_length hdrop
  obtain ⟨start, hread, -, hin, hslice⟩ := readCompactSize_row hlen hrow
  rw [hlong] at hskip
  have hfind : findRow (image rows toc) (offset rows m) (index % 256) =
      .ok ((PrefixTable.serializeRow vec).length, start) := by
    simp only [findRow, bind, Except.bind, require_of hstart, hskip]
    exact hread
  have hfits : (PrefixTable.serializeRow vec).length ≤ (image rows toc).length ∧
      start + (PrefixTable.serializeRow vec).length ≤ (image rows toc).length := by
    omega
  have hthree : (PrefixTable.serializeRow vec).length % (serializedTxIdxBits / 8) = 0 := by
    rw [length_serializeRow]
    exact Nat.mul_mod_right 3 _
  rw [← hoffs] at hoff
  simp only [loadRow, hoff, hdata, hfind, bind, Except.bind, require_of hfits,
    require_of hthree, hslice]
  rfl

end Roundtrip

end ReadOnly
end Rpa
end Shulcrum
