import Shulcrum.Rpa.Blocks
import Shulcrum.Rpa.Codec

/-!
# Searching the prefix table of a block

The rows of the table of a block list the positions of its transactions in
ascending order.  A search goes through the rows of a prefix and, if there are
several, sorts what it finds and removes repetitions: the result are the positions
of the transactions after the coinbase that have one of their first inputs under
the prefix.

**Results.**
* `row_blockTable_strict`: the rows are strictly increasing.
* `searchPrefix_blockTable`: what a search finds.
* `searchPrefix_serialized`: the same for the table that is read from the database.
-/

namespace Shulcrum
namespace Rpa

open SortUnique Streams ReadOnly

/-- `Rpa::Prefix(num, bits)`. -/
def Prefix.ofNum (num bits : Nat) (hmin : prefixBitsMin ≤ bits) (hmax : bits ≤ prefixBits) :
    Prefix :=
  ⟨bits, UInt16.ofNat (num % 2 ^ bits * 2 ^ (prefixBits - bits)), hmin, hmax⟩

/-- A transaction has one of its first inputs under the prefix. -/
def Matches (H : Hashers) (p : Prefix) (tx : CTransaction) : Prop :=
  ∃ q ∈ rpaPrefixes H tx, p.range.1 ≤ q.toNat ∧ q.toNat < p.range.2

instance (H : Hashers) (p : Prefix) (tx : CTransaction) : Decidable (Matches H p tx) :=
  inferInstanceAs (Decidable (∃ q ∈ rpaPrefixes H tx, _))

section Prefixes

/-- The rows of a prefix are those that start with its bits. -/
theorem Prefix.range_ofNum {num bits : Nat} (hmin : prefixBitsMin ≤ bits)
    (hmax : bits ≤ prefixBits) (q : UInt16) :
    (Prefix.ofNum num bits hmin hmax).range.1 ≤ q.toNat ∧
        q.toNat < (Prefix.ofNum num bits hmin hmax).range.2 ↔
      q.toNat / 2 ^ (prefixBits - bits) = num % 2 ^ bits := by
  have hmod : num % 2 ^ bits < 2 ^ bits := Nat.mod_lt _ (by positivity)
  have hpos : 0 < 2 ^ (prefixBits - bits) := by positivity
  have hpow : 2 ^ bits * 2 ^ (prefixBits - bits) = 2 ^ 16 := by
    rw [← pow_add, Nat.add_sub_cancel' hmax]
    rfl
  have hlt : num % 2 ^ bits * 2 ^ (prefixBits - bits) < 2 ^ 16 := by
    rw [← hpow]
    exact Nat.mul_lt_mul_of_pos_right hmod hpos
  have hn : (Prefix.ofNum num bits hmin hmax).n.toNat =
      num % 2 ^ bits * 2 ^ (prefixBits - bits) := by
    rw [Prefix.ofNum, UInt16.toNat_ofNat', Nat.mod_eq_of_lt hlt]
  have hbits : (Prefix.ofNum num bits hmin hmax).bits = bits := rfl
  rw [Prefix.range, hn, hbits, Nat.div_eq_iff hpos]
  constructor
  · rintro ⟨h1, h2⟩
    omega
  · rintro ⟨h1, h2⟩
    omega

end Prefixes

section Rows

variable {H : Hashers}

/-- A row that is strictly increasing and has no index past `k`. -/
def Ascending (k : Nat) (vec : List TxIdx) : Prop :=
  vec.Pairwise (fun a b => a.toNat < b.toNat) ∧ ∀ x ∈ vec, x.toNat ≤ k

theorem Ascending.mono {k k' : Nat} {vec : List TxIdx} (h : Ascending k vec) (hk : k ≤ k') :
    Ascending k' vec :=
  ⟨h.1, fun x hx => le_trans (h.2 x hx) hk⟩

/-- The greatest index is added once. -/
theorem Ascending.pushBack {k : Nat} {vec : List TxIdx} (h : Ascending k vec) {item : TxIdx}
    (hitem : item.toNat = k) : Ascending k (pushBack item vec) := by
  unfold Rpa.pushBack
  split_ifs with hlast
  · exact h
  · refine ⟨?_, ?_⟩
    · rw [List.pairwise_append]
      refine ⟨h.1, List.pairwise_singleton _ _, ?_⟩
      intro x hx y hy
      rw [List.mem_singleton] at hy
      subst hy
      have hle := h.2 x hx
      refine lt_of_le_of_ne (by omega) fun heq => hlast ?_
      -- an index that is there already is the greatest, hence the last one
      have hxy : x = y := UInt32.toNat_inj.mp heq
      subst hxy
      obtain ⟨l, r, rfl⟩ := List.append_of_mem hx
      have hr : r = [] := by
        rw [List.eq_nil_iff_forall_not_mem]
        intro z hz
        have hlt := (List.pairwise_cons.mp (List.pairwise_append.mp h.1).2.1).1 z hz
        have hle' := h.2 z (by simp [hz])
        omega
      rw [hr]
      simp
    · intro x hx
      rw [List.mem_append, List.mem_singleton] at hx
      rcases hx with hx | rfl
      · exact h.2 x hx
      · omega

theorem ascending_foldl {k : Nat} {item : TxIdx} (hitem : item.toNat = k) {l : List CTxIn}
    {t : PrefixTable} (ht : ∀ i, Ascending k (t.row i)) (i : Nat) :
    Ascending k ((l.foldl (fun pft input => pft.addForPrefix (.ofTxIn H input) item) t).row i) := by
  induction l generalizing t with
  | nil => exact ht i
  | cons input l ih =>
      refine ih (fun j => ?_)
      rcases Nat.lt_or_ge j numRows with hj | hj
      · rw [PrefixTable.row_addForPrefix _ _ _ hj]
        split_ifs
        · exact (ht j).pushBack hitem
        · exact ht j
      · rw [PrefixTable.row_of_le hj]
        exact ⟨List.Pairwise.nil, by simp⟩

theorem ascending_addTxs {vtx : List CTransaction} {txIdx : Nat} {s : PrefixTable × Nat}
    (hlen : txIdx + vtx.length ≤ 2 ^ 32) (ht : ∀ i, Ascending txIdx (s.1.row i)) (i : Nat) :
    Ascending (txIdx + vtx.length) ((addTxs H txIdx vtx s).1.row i) := by
  induction vtx generalizing txIdx s with
  | nil => exact ht i
  | cons tx vtx ih =>
      rw [List.length_cons] at hlen ⊢
      have hitem : (UInt32.ofNat txIdx).toNat = txIdx := by
        rw [UInt32.toNat_ofNat', Nat.mod_eq_of_lt]
        omega
      rw [addTxs, show txIdx + (vtx.length + 1) = txIdx + 1 + vtx.length by omega]
      refine ih (by omega) (fun j => ?_)
      exact (ascending_foldl hitem ht j).mono (by omega)

/-- The rows of the table of a block are strictly increasing. -/
theorem row_blockTable_strict {vtx : List CTransaction} (hlen : vtx.length ≤ maxTxIdx + 1)
    (i : Nat) : ((blockTable H vtx).1.row i).Pairwise (fun a b => a.toNat < b.toNat) := by
  have hmax : maxTxIdx + 1 = 2 ^ 24 := rfl
  have hempty : ∀ i, Ascending 1 ((PrefixTable.empty, 0).1.row i) := by
    intro i
    rw [PrefixTable.row_empty]
    exact ⟨List.Pairwise.nil, by simp⟩
  have hfits : 1 + (vtx.drop 1).length ≤ 2 ^ 32 := by
    rw [List.length_drop]
    omega
  exact (ascending_addTxs hfits hempty i).1

/-- What a row of the table of a block lists. -/
theorem mem_row_blockTable_iff {vtx : List CTransaction} (hlen : vtx.length ≤ maxTxIdx + 1)
    {p : UInt16} {x : TxIdx} :
    x ∈ (blockTable H vtx).1.row p.toNat ↔
      ∃ i tx, 1 ≤ i ∧ vtx[i]? = some tx ∧ x.toNat = i ∧ p ∈ rpaPrefixes H tx := by
  have hmax : maxTxIdx + 1 = 2 ^ 24 := rfl
  have hbound : ∀ j, j < vtx.length → (UInt32.ofNat j).toNat = j := by
    intro j hj
    rw [UInt32.toNat_ofNat', Nat.mod_eq_of_lt]
    omega
  rw [blockTable, mem_row_addTxs, PrefixTable.row_empty]
  simp only [List.not_mem_nil, false_or, List.getElem?_drop]
  constructor
  · rintro ⟨j, tx, hget, rfl, hp⟩
    exact ⟨1 + j, tx, by omega, hget, hbound _ (List.getElem?_eq_some_iff.mp hget).1, hp⟩
  · rintro ⟨i, tx, hi, hget, hx, hp⟩
    refine ⟨i - 1, tx, by rw [Nat.add_sub_cancel' hi]; exact hget, ?_, hp⟩
    rw [Nat.add_sub_cancel' hi, ← UInt32.toNat_inj, hx,
      hbound _ (List.getElem?_eq_some_iff.mp hget).1]

/-- The indices of the table fit. -/
theorem row_blockTable_le {vtx : List CTransaction} (hlen : vtx.length ≤ maxTxIdx + 1) (i : Nat) :
    ∀ x ∈ (blockTable H vtx).1.row i, x.toNat ≤ maxTxIdx := by
  intro x hx
  rcases Nat.lt_or_ge i numRows with hi | hi
  · have hnum : numRows = 2 ^ 16 := rfl
    have hp : (UInt16.ofNat i).toNat = i := by
      rw [UInt16.toNat_ofNat', Nat.mod_eq_of_lt (by omega)]
    rw [← hp] at hx
    obtain ⟨j, tx, -, hget, hxj, -⟩ := (mem_row_blockTable_iff hlen).mp hx
    have hj := (List.getElem?_eq_some_iff.mp hget).1
    omega
  · rw [PrefixTable.row_of_le hi] at hx
    cases hx

/-- The serialization of the table of a block fits into a buffer. -/
theorem length_dataBuf_blockTable {vtx : List CTransaction} (hlen : vtx.length ≤ maxTxIdx + 1) :
    (blockTable H vtx).1.dataBuf.length < posLimit := by
  have hnum : numRows = 65536 := rfl
  have hlim : posLimit = 2 ^ 63 := rfl
  have hmax : maxTxIdx + 1 = 2 ^ 24 := rfl
  have hshort : ∀ vec ∈ (blockTable H vtx).1.rows, vec.length ≤ maxTxIdx + 1 := by
    intro vec hvec
    obtain ⟨i, hi⟩ := List.mem_iff_getElem?.mp hvec
    have hlt : i < numRows := by
      rw [← (blockTable H vtx).1.length_rows]
      exact (List.getElem?_eq_some_iff.mp hi).1
    rw [getElem?_rows hlt, Option.some.injEq] at hi
    subst hi
    -- different indices below `2 ^ 24`
    have hnodup : (((blockTable H vtx).1.row i).map UInt32.toNat).Nodup := by
      rw [List.Nodup, List.pairwise_map]
      exact (row_blockTable_strict hlen i).imp fun h => Nat.ne_of_lt h
    have hsub : ((blockTable H vtx).1.row i).map UInt32.toNat ⊆ List.range (maxTxIdx + 1) := by
      intro n hn
      obtain ⟨x, hx, rfl⟩ := List.mem_map.mp hn
      have hle := row_blockTable_le hlen i x hx
      exact List.mem_range.mpr (by omega)
    have hle := (List.subperm_of_subset hnodup hsub).length_le
    rwa [List.length_map, List.length_range] at hle
  have hrows := length_rowsBytes_le hshort
  rw [(blockTable H vtx).1.length_rows, hmax, hnum] at hrows
  have hcs := length_writeCompactSize_le (offsets (blockTable H vtx).1.rows).length
  have hoffs : ((offsets (blockTable H vtx).1.rows).flatMap (BTC.leBytes 8)).length = 8 * 256 := by
    rw [List.flatMap_def, Chunks.length_flatten_of_length (s := 8) (by simp), List.length_map,
      length_offsets]
  rw [dataBuf_eq]
  simp only [image, List.length_append, length_header]
  omega

end Rows

section Search

variable {H : Hashers} {p : Prefix}

/-- The positions of the transactions after the coinbase that match. -/
def matchIdx (H : Hashers) (p : Prefix) (vtx : List CTransaction) : List Nat :=
  ((vtx.zipIdx.drop 1).filter fun e => decide (Matches H p e.1)).map Prod.snd

theorem matchIdx_strict (vtx : List CTransaction) : (matchIdx H p vtx).Pairwise (· < ·) := by
  have hsub : (matchIdx H p vtx).Sublist (vtx.zipIdx.map Prod.snd) :=
    ((List.filter_sublist).trans (List.drop_sublist 1 _)).map Prod.snd
  refine List.Pairwise.sublist hsub ?_
  rw [List.zipIdx_map_snd]
  exact List.pairwise_lt_range'

theorem mem_matchIdx {vtx : List CTransaction} {i : Nat} :
    i ∈ matchIdx H p vtx ↔ ∃ tx, 1 ≤ i ∧ vtx[i]? = some tx ∧ Matches H p tx := by
  have hdrop : ∀ e : CTransaction × Nat, e ∈ vtx.zipIdx.drop 1 ↔
      1 ≤ e.2 ∧ vtx[e.2]? = some e.1 := by
    rintro ⟨tx, i⟩
    cases vtx with
    | nil => simp
    | cons tx₀ vtx =>
        rw [List.zipIdx_cons, List.drop_one, List.tail_cons,
          List.mem_zipIdx_iff_le_and_getElem?_sub]
        simp only [Nat.zero_add]
        refine and_congr_right fun hi => ?_
        obtain ⟨j, rfl⟩ : ∃ j, i = j + 1 := ⟨i - 1, by omega⟩
        simp
  simp only [matchIdx, List.mem_map, List.mem_filter, hdrop, decide_eq_true_eq, Prod.exists]
  constructor
  · rintro ⟨tx, _, ⟨⟨hi, hget⟩, hmatch⟩, rfl⟩
    exact ⟨tx, hi, hget, hmatch⟩
  · rintro ⟨tx, hi, hget, hmatch⟩
    exact ⟨tx, i, ⟨⟨hi, hget⟩, hmatch⟩, rfl⟩

/-- The order by which indices are sorted. -/
theorem idxLe_isOrder : IsOrder fun a b : TxIdx => decide (a ≤ b) where
  trans a b c hab hbc := by
    rw [decide_eq_true_eq] at hab hbc ⊢
    exact UInt32.le_trans hab hbc
  total a b := by
    rw [Bool.or_eq_true, decide_eq_true_eq, decide_eq_true_eq]
    exact UInt32.le_total a b
  antisymm a b hab hba := by
    rw [decide_eq_true_eq] at hab hba
    exact UInt32.le_antisymm hab hba

/-- What a search finds, with repetitions. -/
theorem mem_flatMap_rows {vtx : List CTransaction} (hlen : vtx.length ≤ maxTxIdx + 1)
    {x : TxIdx} :
    x ∈ (p.rows numRows).flatMap (blockTable H vtx).1.row ↔ x.toNat ∈ matchIdx H p vtx := by
  have hnum : numRows = 2 ^ 16 := rfl
  rw [List.mem_flatMap, mem_matchIdx]
  constructor
  · rintro ⟨i, hi, hx⟩
    obtain ⟨h1, h2, h3⟩ := Prefix.mem_rows.mp hi
    have hp : (UInt16.ofNat i).toNat = i := by
      rw [UInt16.toNat_ofNat', Nat.mod_eq_of_lt (by omega)]
    rw [← hp] at hx
    obtain ⟨j, tx, hj, hget, hxj, hq⟩ := (mem_row_blockTable_iff hlen).mp hx
    rw [hxj]
    exact ⟨tx, hj, hget, UInt16.ofNat i, hq, by rw [hp]; exact ⟨h1, h2⟩⟩
  · rintro ⟨tx, hi, hget, q, hq, h1, h2⟩
    refine ⟨q.toNat, Prefix.mem_rows.mpr ⟨h1, h2, q.toNat_lt⟩, ?_⟩
    exact (mem_row_blockTable_iff hlen).mpr ⟨x.toNat, tx, hi, hget, rfl, hq⟩

/-- `prefix.range().size() > 1u`. -/
def Prefix.needSort (p : Prefix) : Bool := decide (p.range.2 - p.range.1 > 1)

/-- A full prefix has one row. -/
theorem Prefix.rows_of_not_needSort (h : ¬p.needSort = true) : p.rows numRows = [p.n.toNat] := by
  have hpos : 0 < 2 ^ (prefixBits - p.bits) := by positivity
  have hlt : p.n.toNat < numRows := p.n.toNat_lt
  unfold Prefix.needSort at h
  rw [decide_eq_true_eq] at h
  unfold Prefix.rows
  unfold Prefix.range at h ⊢
  simp only at h ⊢
  rw [show min (p.n.toNat + 2 ^ (prefixBits - p.bits)) numRows - p.n.toNat = 1 by omega]
  rfl

/-- A list of indices that is strictly increasing is determined by its elements. -/
theorem map_toNat_eq {vec : List TxIdx} {idx : List Nat}
    (hvec : vec.Pairwise (fun a b => a.toNat < b.toNat)) (hidx : idx.Pairwise (· < ·))
    (hmem : ∀ x : TxIdx, x ∈ vec ↔ x.toNat ∈ idx) (hfit : ∀ i ∈ idx, i < 2 ^ 32) :
    vec.map UInt32.toNat = idx := by
  have hsorted : (vec.map UInt32.toNat).Pairwise (· < ·) := by
    rw [List.pairwise_map]
    exact hvec
  have hperm : (vec.map UInt32.toNat).Perm idx := by
    refine (List.perm_ext_iff_of_nodup (hsorted.imp fun h => Nat.ne_of_lt h)
      (hidx.imp fun h => Nat.ne_of_lt h)).mpr fun i => ?_
    rw [List.mem_map]
    constructor
    · rintro ⟨x, hx, rfl⟩
      exact (hmem x).mp hx
    · intro hi
      have hto : (UInt32.ofNat i).toNat = i := by
        rw [UInt32.toNat_ofNat', Nat.mod_eq_of_lt (hfit i hi)]
      exact ⟨UInt32.ofNat i, (hmem _).mpr (by rw [hto]; exact hi), hto⟩
  exact hperm.eq_of_pairwise' hsorted hidx

/-- A search finds the positions of the transactions that match, in order. -/
theorem searchPrefix_blockTable {vtx : List CTransaction} (hlen : vtx.length ≤ maxTxIdx + 1) :
    ((blockTable H vtx).1.searchPrefix p p.needSort).map UInt32.toNat = matchIdx H p vtx := by
  have hmax : maxTxIdx + 1 = 2 ^ 24 := rfl
  have hfit : ∀ i ∈ matchIdx H p vtx, i < 2 ^ 32 := by
    intro i hi
    obtain ⟨tx, -, hget, -⟩ := mem_matchIdx.mp hi
    have hlt := (List.getElem?_eq_some_iff.mp hget).1
    omega
  unfold PrefixTable.searchPrefix
  simp only [(blockTable H vtx).1.length_rows]
  split_ifs with hsort
  · refine map_toNat_eq ?_ (matchIdx_strict vtx) (fun x => ?_) hfit
    · refine (pairwise_sortUnique idxLe_isOrder _).imp ?_
      rintro a b ⟨hle, hne⟩
      rw [decide_eq_true_eq, UInt32.le_iff_toNat_le] at hle
      exact lt_of_le_of_ne hle fun h => hne (UInt32.toNat_inj.mp h)
    · rw [mem_sortUnique]
      exact mem_flatMap_rows hlen
  · refine map_toNat_eq ?_ (matchIdx_strict vtx) (fun x => mem_flatMap_rows hlen) hfit
    by_cases hone : p.needSort = true
    · -- nothing to sort
      have hshort : ((p.rows numRows).flatMap (blockTable H vtx).1.row).length ≤ 1 := by
        by_contra hlong
        exact hsort ⟨hone, by omega⟩
      generalize (p.rows numRows).flatMap (blockTable H vtx).1.row = found at hshort
      match found, hshort with
      | [], _ => exact List.Pairwise.nil
      | [x], _ => exact List.pairwise_singleton _ _
    · rw [Prefix.rows_of_not_needSort hone, List.flatMap_singleton]
      exact row_blockTable_strict hlen _

end Search

section Serialized

variable {H : Hashers} {qCompress : List UInt8 → List UInt8}
  {qUncompress : List UInt8 → Option (List UInt8)}

/-- The table of a block is read from the database and searched. -/
theorem searchPrefix_serialized (hq : ∀ b, qUncompress (qCompress b) = some b) {height : Nat}
    {cache : PrefixTable.EmptySerialization qCompress} {vtx : List CTransaction}
    {ser : List UInt8} (hser : rpaWork H cache height vtx = .ok ser) (p : Prefix) :
    ∃ ro ro' found, ReadOnly.deserialize qUncompress ser = .ok ro ∧
      ReadOnly.searchPrefix ro p p.needSort = .ok (found, ro') ∧
      found.map UInt32.toNat = matchIdx H p vtx := by
  obtain ⟨hlen, rfl⟩ := (rpaWork_eq_ok_iff cache height vtx ser).mp hser
  have hsize : (blockTable H vtx).1.dataBuf.length < posLimit := length_dataBuf_blockTable hlen
  obtain ⟨ro, hro, hloaded⟩ := deserialize_serialize hq hsize cache
  rw [PrefixTable.serialize_fst] at hro
  obtain ⟨ro', hsearch, -⟩ :=
    hloaded.searchPrefix (row_blockTable_le hlen) hsize p p.needSort
  exact ⟨ro, ro', _, hro, hsearch, searchPrefix_blockTable hlen⟩

end Serialized

end Rpa
end Shulcrum
