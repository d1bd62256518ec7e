import Shulcrum.Rpa.ReadOnly

/-!
# The codec of prefix tables

A table that is serialized and read again answers every search as before, with
its rows loaded in any order.  The table of contents of data that is read is
only checked against the size of the buffer.

**Results.**
* `prefixTable_codec`: searches of a table that was read, and what is checked
  of data from elsewhere.
-/

namespace Shulcrum
namespace Rpa

open Streams SortUnique ReadOnly Fallible

section Loaded

/-- A table that was read from the serialization of `t`, with some rows loaded. -/
structure Loaded (t : PrefixTable) (ro : ReadOnly) : Prop where
  data : ro.serializedData = t.dataBuf
  toc : ro.prefix0Offsets = offsets t.rows
  length : ro.rows.length = numRows
  row : ∀ i, i < numRows → ro.rows[i]? = some none ∨
    ro.rows[i]? = some (some (PrefixTable.serializeRow (t.row i)))

variable {t : PrefixTable} {ro : ReadOnly}

theorem getElem?_rows {i : Nat} (hi : i < numRows) : t.rows[i]? = some (t.row i) := by
  rw [PrefixTable.row, List.getElem?_eq_getElem (by rw [t.length_rows]; exact hi)]
  rfl

theorem Loaded.loadRow (h : Loaded t ro) (hsize : t.dataBuf.length < posLimit) {i : Nat}
    (hi : i < numRows) : loadRow ro i = .ok (PrefixTable.serializeRow (t.row i)) := by
  have hnum : numRows = 65536 := rfl
  have hoff : (offsets t.rows)[i / 256]? = some (offset t.rows (256 * (i / 256))) := by
    rw [offsets, List.getElem?_map, List.getElem?_range (by omega)]
    rfl
  have hrow : t.rows[256 * (i / 256) + i % 256]? = some (t.row i) := by
    rw [Nat.div_add_mod]
    exact getElem?_rows hi
  rw [dataBuf_eq] at hsize
  exact loadRow_image hsize (h.data.trans (dataBuf_eq t)) h.toc hoff hrow

theorem Loaded.lazyLoadRow (h : Loaded t ro) (hsize : t.dataBuf.length < posLimit) {i : Nat}
    (hi : i < numRows) :
    ∃ ro', lazyLoadRow ro i = .ok ro' ∧ Loaded t ro' ∧
      ro'.rows[i]? = some (some (PrefixTable.serializeRow (t.row i))) := by
  unfold ReadOnly.lazyLoadRow
  rcases h.row i hi with hnull | hrow
  · rw [hnull, h.loadRow hsize hi]
    have hlt : i < ro.rows.length := by
      rw [h.length]
      exact hi
    refine ⟨_, rfl, ⟨h.data, h.toc, ?_, ?_⟩, List.getElem?_set_self hlt⟩
    · rw [List.length_set, h.length]
    · intro j hj
      rw [List.getElem?_set]
      split_ifs with hij
      · subst hij
        exact Or.inr rfl
      · exact h.row j hj
  · rw [hrow]
    exact ⟨ro, rfl, h, hrow⟩

/-- Rows can be loaded in any order. -/
theorem Loaded.loads (h : Loaded t ro) (hsize : t.dataBuf.length < posLimit) {order : List Nat}
    (horder : ∀ i ∈ order, i < numRows) : ∃ ro', loads ro order = .ok ro' ∧ Loaded t ro' := by
  induction order generalizing ro with
  | nil => exact ⟨ro, rfl, h⟩
  | cons i order ih =>
      obtain ⟨ro₁, hload, h₁, -⟩ := h.lazyLoadRow hsize (horder i List.mem_cons_self)
      obtain ⟨ro', hloads, h'⟩ := ih h₁ fun j hj => horder j (List.mem_cons_of_mem _ hj)
      refine ⟨ro', ?_, h'⟩
      rw [ReadOnly.loads, hload]
      exact hloads

variable (hidx : ∀ i, ∀ n ∈ t.row i, n.toNat ≤ maxTxIdx)
include hidx

theorem Loaded.collect (h : Loaded t ro) (hsize : t.dataBuf.length < posLimit) {l : List Nat}
    (hl : ∀ i ∈ l, i < numRows) (ret : List TxIdx) :
    ∃ ro', collect l ro ret = .ok (ret ++ l.flatMap t.row, ro') ∧ Loaded t ro' := by
  induction l generalizing ro ret with
  | nil => exact ⟨ro, by simp [ReadOnly.collect], h⟩
  | cons i l ih =>
      obtain ⟨ro₁, hload, h₁, hrow⟩ := h.lazyLoadRow hsize (hl i List.mem_cons_self)
      obtain ⟨ro', hcollect, h'⟩ := ih h₁ (fun j hj => hl j (List.mem_cons_of_mem _ hj))
        (ret ++ t.row i)
      refine ⟨ro', ?_, h'⟩
      rw [ReadOnly.collect, hload]
      simp only [bind, Except.bind, hrow, Option.join_some, Option.getD_some,
        elements_serializeRow (hidx i), hcollect, List.flatMap_cons, List.append_assoc]

/-- A search of the table that was read. -/
theorem Loaded.searchPrefix (h : Loaded t ro) (hsize : t.dataBuf.length < posLimit) (p : Prefix)
    (sortAndMakeUnique : Bool) :
    ∃ ro', searchPrefix ro p sortAndMakeUnique =
        .ok (t.searchPrefix p sortAndMakeUnique, ro') ∧ Loaded t ro' := by
  have hrows : ∀ i ∈ p.rows numRows, i < numRows := fun i hi => (Prefix.mem_rows.mp hi).2.2
  obtain ⟨ro', hcollect, h'⟩ := h.collect hidx hsize hrows []
  refine ⟨ro', ?_, h'⟩
  rw [ReadOnly.searchPrefix, h.length, hcollect, PrefixTable.searchPrefix, t.length_rows]
  simp only [bind, Except.bind, List.nil_append]
  split_ifs <;> rfl

end Loaded

section Deserialize

theorem offset_lt (rows : List (List TxIdx)) (toc : List Nat) (m : Nat) :
    offset rows m < (image rows toc).length := by
  by_contra hlt
  have hdrop : (image rows toc).drop (offset rows m) = _ := drop_image_offset m
  rw [List.drop_eq_nil_of_le (by omega)] at hdrop
  simp [writeCompactSize_ne_nil] at hdrop

theorem readHeader_dataBuf {t : PrefixTable} (hsize : t.dataBuf.length < posLimit) :
    readHeader t.dataBuf = .ok (offsets t.rows) := by
  rw [dataBuf_eq] at hsize ⊢
  refine readHeader_image hsize (length_offsets _) ?_
  intro val hval
  obtain ⟨k, -, rfl⟩ := List.mem_map.mp hval
  exact offset_lt _ _ _

variable {qCompress : List UInt8 → List UInt8} {qUncompress : List UInt8 → Option (List UInt8)}

theorem deserialize_eq {ser b : List UInt8} {toc : List Nat} (hb : qUncompress ser = some b)
    (htoc : readHeader b = .ok toc) :
    ReadOnly.deserialize qUncompress ser = .ok { serializedData := b, prefix0Offsets := toc } := by
  rw [ReadOnly.deserialize, hb]
  simp only [htoc, bind, Except.bind]
  rfl

/-- The constructor reads the serialization of a table. -/
theorem deserialize_serialize (hq : ∀ b, qUncompress (qCompress b) = some b) {t : PrefixTable}
    (hsize : t.dataBuf.length < posLimit) (cache : PrefixTable.EmptySerialization qCompress) :
    ∃ ro, deserialize qUncompress (t.serialize cache).1 = .ok ro ∧ Loaded t ro := by
  rw [PrefixTable.serialize_fst]
  refine ⟨_, deserialize_eq (hq _) (readHeader_dataBuf hsize), rfl, rfl, List.length_replicate, ?_⟩
  intro i hi
  refine Or.inl ?_
  simp only [List.getElem?_replicate, if_pos hi]

end Deserialize

section Malformed

theorem readToc_spec {b : List UInt8} {k pos : Nat} {toc : List Nat}
    (h : readToc b k pos = .ok toc) : toc.length = k ∧ ∀ val ∈ toc, val < b.length := by
  induction k generalizing pos toc with
  | zero =>
      cases h
      simp
  | succ k ih =>
      simp only [readToc, bind_eq_ok, require_eq_ok] at h
      obtain ⟨⟨val, pos'⟩, -, -, hval, vals, hrest, h⟩ := h
      cases h
      obtain ⟨hlen, hin⟩ := ih hrest
      refine ⟨by rw [List.length_cons, hlen], ?_⟩
      intro v hv
      rcases List.mem_cons.mp hv with rfl | hv
      · exact hval
      · exact hin v hv

/-- What the constructor checks of the data. -/
theorem readHeader_spec {b : List UInt8} {toc : List Nat} (h : readHeader b = .ok toc) :
    readLE b 1 0 = .ok (prefixBits, 1) ∧ readLE b 1 1 = .ok (serializedTxIdxBits, 2) ∧
      toc.length = 256 ∧ ∀ val ∈ toc, val < b.length := by
  simp only [readHeader, bind_eq_ok, require_eq_ok] at h
  obtain ⟨⟨pbits, pos₀⟩, h0, ⟨dbits, pos₁⟩, h1, _, hp, _, hd, _, _, _, _, _, _, _, _, _, _, h⟩ := h
  obtain ⟨-, rfl, -⟩ := readLE_spec (by omega) h0
  obtain ⟨-, rfl, -⟩ := readLE_spec (by omega) h1
  simp only at hp hd
  subst hp hd
  exact ⟨h0, h1, readToc_spec h⟩

/-- A row that is answered is the one its offset leads to, and lies inside the data. -/
theorem loadRow_spec {ro : ReadOnly} {index : Nat} {row : List UInt8}
    (h : loadRow ro index = .ok row) :
    ∃ start sz pos, ro.prefix0Offsets[index / 256]? = some start ∧
      findRow ro.serializedData start (index % 256) = .ok (sz, pos) ∧
      pos + sz ≤ ro.serializedData.length ∧ sz % 3 = 0 ∧
      row = (ro.serializedData.drop pos).take sz := by
  unfold loadRow at h
  cases hoff : ro.prefix0Offsets[index / 256]? with
  | none =>
      rw [hoff] at h
      cases h
  | some start =>
      rw [hoff] at h
      simp only [bind_eq_ok, require_eq_ok] at h
      obtain ⟨⟨sz, pos⟩, hfind, -, ⟨-, hin⟩, -, hthree, h⟩ := h
      cases h
      exact ⟨start, sz, pos, rfl, hfind, hin, hthree, rfl⟩

end Malformed

section Codec

/-- A table with a list of indices added. -/
def PrefixTable.ofAdds (adds : List (Prefix × TxIdx)) : PrefixTable :=
  adds.foldl (fun t a => t.addForPrefix a.1 a.2) .empty

theorem PrefixTable.row_of_le {t : PrefixTable} {i : Nat} (hi : numRows ≤ i) : t.row i = [] := by
  rw [PrefixTable.row, List.getElem?_eq_none (by rw [t.length_rows]; exact hi)]
  rfl

/-- What holds of all indices added holds of all indices of the table. -/
theorem PrefixTable.forall_row_ofAdds {q : TxIdx → Prop} {adds : List (Prefix × TxIdx)}
    (hadds : ∀ a ∈ adds, q a.2) (i : Nat) : ∀ n ∈ (PrefixTable.ofAdds adds).row i, q n := by
  have hrun : ∀ t : PrefixTable, (∀ n ∈ t.row i, q n) →
      ∀ n ∈ (adds.foldl (fun t a => t.addForPrefix a.1 a.2) t).row i, q n := by
    induction adds with
    | nil => exact fun t ht => ht
    | cons a adds ih =>
        intro t ht
        refine ih (fun a' ha' => hadds a' (List.mem_cons_of_mem _ ha')) _ ?_
        intro n hn
        rcases Nat.lt_or_ge i numRows with hi | hi
        · rw [PrefixTable.row_addForPrefix _ _ _ hi] at hn
          split_ifs at hn
          · rcases mem_pushBack.mp hn with hn | rfl
            · exact ht n hn
            · exact hadds a List.mem_cons_self
          · exact ht n hn
        · rw [PrefixTable.row_of_le hi] at hn
          cases hn
  exact hrun .empty (by simp [PrefixTable.row_empty])

/--
A table of 24-bit indices whose serialization fits into a buffer is read back,
and answers every search as before whatever rows were loaded.  Of other data
the header and the range of the offsets are checked when the table is made; a
row that is answered lies inside the data, at the place its offset and the
sizes of the rows before it lead to.
-/
theorem prefixTable_codec {qCompress : List UInt8 → List UInt8}
    {qUncompress : List UInt8 → Option (List UInt8)}
    (hq : ∀ b, qUncompress (qCompress b) = some b) :
    (∀ (adds : List (Prefix × TxIdx)) (cache : PrefixTable.EmptySerialization qCompress),
      (∀ a ∈ adds, a.2.toNat ≤ maxTxIdx) →
      (PrefixTable.ofAdds adds).dataBuf.length < 2 ^ 63 →
      ∃ ro, ReadOnly.deserialize qUncompress ((PrefixTable.ofAdds adds).serialize cache).1 =
          .ok ro ∧
        ∀ order : List Nat, (∀ i ∈ order, i < numRows) →
          ∃ ro', loads ro order = .ok ro' ∧
            ∀ p s, ∃ ro'', searchPrefix ro' p s =
              .ok ((PrefixTable.ofAdds adds).searchPrefix p s, ro'')) ∧
    ∀ ser ro, ReadOnly.deserialize qUncompress ser = .ok ro →
      (∃ b, qUncompress ser = some b ∧ ro.serializedData = b ∧
        readLE b 1 0 = .ok (prefixBits, 1) ∧ readLE b 1 1 = .ok (serializedTxIdxBits, 2) ∧
        ro.prefix0Offsets.length = 256 ∧ ∀ off ∈ ro.prefix0Offsets, off < b.length) ∧
      ∀ index row, loadRow ro index = .ok row →
        ∃ start sz pos, ro.prefix0Offsets[index / 256]? = some start ∧
          findRow ro.serializedData start (index % 256) = .ok (sz, pos) ∧
          pos + sz ≤ ro.serializedData.length ∧ sz % 3 = 0 ∧
          row = (ro.serializedData.drop pos).take sz := by
  refine ⟨?_, ?_⟩
  · intro adds cache hadds hsize
    have hidx : ∀ i, ∀ n ∈ (PrefixTable.ofAdds adds).row i, n.toNat ≤ maxTxIdx :=
      fun i => PrefixTable.forall_row_ofAdds hadds i
    obtain ⟨ro, hro, hloaded⟩ := deserialize_serialize hq hsize cache
    refine ⟨ro, hro, ?_⟩
    intro order horder
    obtain ⟨ro', hloads, hloaded'⟩ := hloaded.loads hsize horder
    refine ⟨ro', hloads, ?_⟩
    intro p s
    obtain ⟨ro'', hsearch, -⟩ := hloaded'.searchPrefix hidx hsize p s
    exact ⟨ro'', hsearch⟩
  · intro ser ro hro
    refine ⟨?_, fun index row hrow => loadRow_spec hrow⟩
    unfold ReadOnly.deserialize at hro
    cases hb : qUncompress ser with
    | none =>
        rw [hb] at hro
        cases hro
    | some b =>
        rw [hb] at hro
        simp only [bind_eq_ok] at hro
        obtain ⟨toc, hheader, hro⟩ := hro
        cases hro
        exact ⟨b, rfl, rfl, readHeader_spec hheader⟩

end Codec

section Witnesses

/-- The full prefix with a value. -/
def fullPrefix (n : UInt16) : Prefix := ⟨16, n, by decide, le_refl _⟩

theorem rows_fullPrefix (n : UInt16) : (fullPrefix n).rows numRows = [n.toNat] := by
  have hnum : numRows = 65536 := rfl
  have hn : n.toNat < 65536 := n.toNat_lt
  have hlow : (fullPrefix n).range.1 = n.toNat := rfl
  have hhigh : (fullPrefix n).range.2 = n.toNat + 1 := rfl
  have hcount : min (n.toNat + 1) numRows - n.toNat = 1 := by omega
  rw [Prefix.rows, hlow, hhigh, hcount]
  rfl

/-- A table with two indices, under the prefixes 0x0100 and 0x0201. -/
def twoRows : PrefixTable := PrefixTable.ofAdds [(fullPrefix 256, 5), (fullPrefix 513, 7)]

theorem row_twoRows {i : Nat} (hi : i < numRows) :
    twoRows.row i = if i = 256 then [5] else if i = 513 then [7] else [] := by
  have hfirst := PrefixTable.row_addForPrefix .empty (fullPrefix 256) 5 hi
  have hrow := PrefixTable.row_addForPrefix (PrefixTable.empty.addForPrefix (fullPrefix 256) 5)
    (fullPrefix 513) 7 hi
  rw [hfirst, PrefixTable.row_empty, rows_fullPrefix, rows_fullPrefix] at hrow
  simp only [List.mem_singleton] at hrow
  refine hrow.trans ?_
  by_cases h513 : i = 513
  · rw [h513]
    rfl
  · rw [if_neg h513]
    exact if_neg h513

theorem length_rowsBytes_le {rows : List (List TxIdx)} {k : Nat}
    (h : ∀ vec ∈ rows, vec.length ≤ k) :
    (rowsBytes rows).length ≤ rows.length * (9 + 3 * k) := by
  induction rows with
  | nil => simp [rowsBytes]
  | cons vec rows ih =>
      have hcons : rowsBytes (vec :: rows) = rowBytes vec ++ rowsBytes rows := rfl
      have hvec := h vec List.mem_cons_self
      have hrest := ih fun v hv => h v (List.mem_cons_of_mem _ hv)
      have hcs := length_writeCompactSize_le (PrefixTable.serializeRow vec).length
      rw [hcons, List.length_append, rowBytes, List.length_append, length_serializeRow,
        List.length_cons, Nat.add_mul]
      rw [length_serializeRow] at hcs
      omega

theorem length_image_twoRows {toc : List Nat} (htoc : toc.length = 256) :
    (image twoRows.rows toc).length < posLimit := by
  have hnum : numRows = 65536 := rfl
  have hlim : posLimit = 2 ^ 63 := rfl
  have hshort : ∀ vec ∈ twoRows.rows, vec.length ≤ 1 := by
    intro vec hvec
    obtain ⟨i, hi⟩ := List.mem_iff_getElem?.mp hvec
    have hlt : i < numRows := by
      rw [← twoRows.length_rows]
      exact (List.getElem?_eq_some_iff.mp hi).1
    rw [getElem?_rows hlt, Option.some.injEq, row_twoRows hlt] at hi
    subst hi
    split_ifs <;> simp
  have hrows := length_rowsBytes_le hshort
  rw [twoRows.length_rows] at hrows
  have hcs := length_writeCompactSize_le toc.length
  have hoffs : (toc.flatMap (BTC.leBytes 8)).length = 8 * 256 := by
    rw [List.flatMap_def, Chunks.length_flatten_of_length (s := 8) (by simp), List.length_map,
      htoc]
  simp only [image, List.length_append, length_header]
  omega

/-- `twoRows` is read back, and its rows can be loaded in any order. -/
theorem prefixTable_codec_twoRows : ∃ ro,
    ReadOnly.deserialize some (twoRows.serialize PrefixTable.noCache).1 = .ok ro ∧
      ∃ ro', loads ro [513, 256, 0] = .ok ro' ∧
        ∃ ro'', searchPrefix ro' (fullPrefix 256) true =
          .ok (twoRows.searchPrefix (fullPrefix 256) true, ro'') := by
  have hsize : twoRows.dataBuf.length < 2 ^ 63 := by
    rw [dataBuf_eq]
    exact length_image_twoRows (length_offsets _)
  obtain ⟨ro, hro, hall⟩ := (@prefixTable_codec id some fun _ => rfl).1
    [(fullPrefix 256, 5), (fullPrefix 513, 7)] PrefixTable.noCache (by decide) hsize
  obtain ⟨ro', hloads, hsearch⟩ := hall [513, 256, 0] (by decide)
  exact ⟨ro, hro, ro', hloads, hsearch (fullPrefix 256) true⟩

/-- The offsets of `twoRows` with the one of the first byte 0 replaced by that of 1. -/
def wrongOffsets : List Nat := (offsets twoRows.rows).set 0 (offset twoRows.rows 256)

/-- The serialization of `twoRows` with these offsets. -/
def wrongImage : List UInt8 := image twoRows.rows wrongOffsets

theorem length_wrongOffsets : wrongOffsets.length = 256 := by
  rw [wrongOffsets, List.length_set, length_offsets]

theorem head_wrongOffsets : wrongOffsets[0]? = some (offset twoRows.rows 256) :=
  List.getElem?_set_self (by rw [length_offsets]; omega)

theorem readHeader_wrongImage : readHeader wrongImage = .ok wrongOffsets := by
  refine readHeader_image (length_image_twoRows length_wrongOffsets) length_wrongOffsets ?_
  intro val hval
  rcases List.mem_or_eq_of_mem_set hval with hmem | heq
  · obtain ⟨k, -, hk⟩ := List.mem_map.mp hmem
    rw [← hk]
    exact offset_lt _ _ _
  · rw [heq]
    exact offset_lt _ _ _

/-- Every row takes a byte. -/
theorem length_le_rowsBytes (rows : List (List TxIdx)) : rows.length ≤ (rowsBytes rows).length := by
  induction rows with
  | nil => simp
  | cons vec rows ih =>
      have hcons : rowsBytes (vec :: rows) = rowBytes vec ++ rowsBytes rows := rfl
      have hne := List.length_pos_iff.mpr
        (writeCompactSize_ne_nil (PrefixTable.serializeRow vec).length)
      rw [hcons, List.length_append, rowBytes, List.length_append, List.length_cons]
      omega

/-- The rows of the first byte 1 do not start where those of the first byte 0 do. -/
theorem offset_ne_offset_zero {rows : List (List TxIdx)} (h : 256 ≤ rows.length)
    (rows' : List (List TxIdx)) : offset rows 256 ≠ offset rows' 0 := by
  have hbytes := length_le_rowsBytes (rows.take 256)
  have hnil : (rowsBytes ([] : List (List TxIdx))).length = 0 := rfl
  rw [List.length_take_of_le h] at hbytes
  rw [offset, offset, List.take_zero, hnil]
  omega

/-- No table is serialized to `wrongImage`. -/
theorem wrongImage_ne (t : PrefixTable) : t.dataBuf ≠ wrongImage := by
  intro heq
  have hsize : t.dataBuf.length < posLimit := by
    rw [heq]
    exact length_image_twoRows length_wrongOffsets
  have hheader := readHeader_dataBuf hsize
  rw [heq, readHeader_wrongImage, Except.ok.injEq] at hheader
  have hfirst := congrArg (fun toc : List Nat => toc[0]?) hheader
  have hright : (offsets t.rows)[0]? = some (offset t.rows 0) := by
    rw [offsets, List.getElem?_map, List.getElem?_range (by omega)]
    rfl
  simp only [head_wrongOffsets, hright, Option.some.injEq] at hfirst
  have hrows : 256 ≤ twoRows.rows.length := by
    rw [twoRows.length_rows]
    decide
  exact offset_ne_offset_zero hrows t.rows hfirst

/-- The search for a full prefix reads one row. -/
theorem searchPrefix_fullPrefix {ro : ReadOnly} (hlen : ro.rows.length = numRows) {n : UInt16}
    (hnull : ro.rows[n.toNat]? = some none) {vec : List TxIdx}
    (hvec : ∀ x ∈ vec, x.toNat ≤ maxTxIdx)
    (hload : loadRow ro n.toNat = .ok (PrefixTable.serializeRow vec)) :
    ∃ ro', searchPrefix ro (fullPrefix n) false = .ok (vec, ro') := by
  have hlt : n.toNat < ro.rows.length := by
    rw [hlen]
    exact n.toNat_lt
  refine ⟨{ ro with rows := ro.rows.set n.toNat (some (PrefixTable.serializeRow vec)) }, ?_⟩
  simp only [ReadOnly.searchPrefix, hlen, rows_fullPrefix, ReadOnly.collect, ReadOnly.lazyLoadRow,
    hnull, hload, bind, Except.bind, pure, Except.pure, List.getElem?_set_self hlt,
    Option.join_some, Option.getD_some, List.nil_append, elements_serializeRow hvec,
    Bool.false_eq_true, false_and, if_false]

/--
`wrongImage` is not the serialization of any table, but it is accepted and the
search for the prefix 0 returns the row of the prefix 0x0100.
-/
theorem wrongImage_answered :
    (∀ (t : PrefixTable) (cache : PrefixTable.EmptySerialization id),
      (t.serialize cache).1 ≠ wrongImage) ∧
    ∃ ro ro', ReadOnly.deserialize some wrongImage = .ok ro ∧
      searchPrefix ro (fullPrefix 0) false = .ok ([5], ro') ∧
      twoRows.row 0 = [] ∧ twoRows.row 256 = [5] := by
  have hnum : numRows = 65536 := rfl
  have hrow : twoRows.row 256 = [5] := by rw [row_twoRows (by omega), if_pos rfl]
  refine ⟨?_, ?_⟩
  · intro t cache heq
    rw [PrefixTable.serialize_fst, id_eq] at heq
    exact wrongImage_ne t heq
  · obtain ⟨ro, hro, hdata, htoc, hrows⟩ : ∃ ro, ReadOnly.deserialize some wrongImage = .ok ro ∧
        ro.serializedData = wrongImage ∧ ro.prefix0Offsets = wrongOffsets ∧
        ro.rows = List.replicate numRows none :=
      ⟨_, deserialize_eq rfl readHeader_wrongImage, rfl, rfl, rfl⟩
    have hzero : (0 : UInt16).toNat = 0 := rfl
    have hload : loadRow ro (0 : UInt16).toNat = .ok (PrefixTable.serializeRow [5]) := by
      have hvec : twoRows.rows[256]? = some [5] := by
        rw [getElem?_rows (by omega), hrow]
      rw [hzero]
      refine loadRow_image (m := 256) (length_image_twoRows length_wrongOffsets) hdata htoc ?_ ?_
      · rw [Nat.zero_div]
        exact head_wrongOffsets
      · rw [Nat.zero_mod, Nat.add_zero]
        exact hvec
    have hlen : ro.rows.length = numRows := by rw [hrows, List.length_replicate]
    have hnull : ro.rows[(0 : UInt16).toNat]? = some none := by
      have hlt : (0 : UInt16).toNat < numRows := by
        rw [hnum, hzero]
        omega
      rw [hrows, List.getElem?_replicate, if_pos hlt]
    have hfive : ∀ x ∈ ([5] : List TxIdx), x.toNat ≤ maxTxIdx := by
      intro x hx
      rw [List.mem_singleton.mp hx]
      decide
    obtain ⟨ro', hsearch⟩ := searchPrefix_fullPrefix hlen hnull hfive hload
    refine ⟨ro, ro', hro, hsearch, ?_, hrow⟩
    rw [row_twoRows (by omega), if_neg (by omega), if_neg (by omega)]

end Witnesses

end Rpa
end Shulcrum
