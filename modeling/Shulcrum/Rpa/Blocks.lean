import Shulcrum.BlockProc.Fill
import Shulcrum.Rpa.PrefixTable

/-!
# Prefix tables of blocks

Two paths build the prefix table of a block: the RPA task of
`PreProcessedBlock::fill`, and `DownloadBlocksTask_SynchRpa`, which indexes
blocks again without preprocessing them.

**Results.**
* `mem_row_blockTable`: the table lists a transaction under the prefixes of its
  first inputs.
* `rpaWork_eq_synchRpa_iff`: the two paths agree exactly on the blocks whose
  transactions have indices of 24 bits.
-/

namespace Shulcrum
namespace Rpa

open PreProcessedBlock

section Fill

variable (H : Hashers)

/-- The loop over the first inputs of a transaction in the RPA task. -/
def addFirstInputs (txIdx : Nat) (tx : CTransaction) (pft : PrefixTable) : PrefixTable :=
  let inMax := min tx.vin.length rpaInputIndexLimit
  (tx.vin.take inMax).foldl
    (fun pft input => pft.addForPrefix (.ofTxIn H input) (UInt32.ofNat txIdx)) pft

/-- The loop over the transactions from `txIdx` on, with `maxTxIdxSeen`. -/
def addTxs : Nat → List CTransaction → PrefixTable × Nat → PrefixTable × Nat
  | _, [], s => s
  | txIdx, tx :: vtx, s => addTxs (txIdx + 1) vtx (addFirstInputs H txIdx tx s.1, txIdx)

/-- The table the RPA task builds, which skips the coinbase, and `maxTxIdxSeen`. -/
def blockTable (vtx : List CTransaction) : PrefixTable × Nat :=
  addTxs H 1 (vtx.drop 1) (.empty, 0)

def tooManyTxs (height maxTxIdxSeen : Nat) : Exception :=
  .internalError ("Block " ++ toString height ++ " too many txs (" ++ toString maxTxIdxSeen ++
    ") and has overflowed the maximum txIdx we support for RPA (" ++ toString maxTxIdx ++
    "). Please contact the developers and report this issue.")

variable {qCompress : List UInt8 → List UInt8}

/-- The work of the RPA task of `PreProcessedBlock::fill`. -/
def rpaWork (cache : PrefixTable.EmptySerialization qCompress) (height : Nat)
    (vtx : List CTransaction) : Except Exception (List UInt8) :=
  let s := blockTable H vtx
  if s.2 > maxTxIdx then .error (tooManyTxs height s.2) else .ok (s.1.serialize cache).1

end Fill

section SynchRpa

variable (H : Hashers)

/-- `Controller::RpaOnlyModeData`. -/
structure RpaOnlyModeData where
  height : Nat := 0
  hash : Hash := 0
  serializedPrefixTable : List UInt8 := []
  nTx : Nat := 0
  nTxsIndexed : Nat := 0
  nIns : Nat := 0
  nInsIndexed : Nat := 0
  nOuts : Nat := 0
  rawBlockSizeBytes : Nat := 0

/-- The loop over the inputs of a transaction, from `inputNum` on. -/
def synchInputs (txIdx : Nat) :
    Nat → List CTxIn → PrefixTable × RpaOnlyModeData → PrefixTable × RpaOnlyModeData
  | _, [], s => s
  | inputNum, inp :: vin, (pt, ret) =>
      if inputNum < rpaInputIndexLimit then
        synchInputs txIdx (inputNum + 1) vin
          (pt.addForPrefix (.ofTxIn H inp) (UInt32.ofNat txIdx),
            { ret with nInsIndexed := ret.nInsIndexed + 1 })
      else (pt, ret)

/-- The loop over the transactions, from `txIdx` on. -/
def synchTxs :
    Nat → List CTransaction → PrefixTable × RpaOnlyModeData → PrefixTable × RpaOnlyModeData
  | _, [], s => s
  | txIdx, tx :: vtx, (pt, ret) =>
      let (pt, ret) :=
        synchInputs H txIdx 0 tx.vin (pt, { ret with nIns := ret.nIns + tx.vin.length })
      synchTxs (txIdx + 1) vtx
        (pt, { ret with nOuts := ret.nOuts + tx.vout.length, nTxsIndexed := ret.nTxsIndexed + 1 })

variable {qCompress : List UInt8 → List UInt8}

/-- `DownloadBlocksTask_SynchRpa::process_block_guts`. -/
def synchRpa (cache : PrefixTable.EmptySerialization qCompress) (bnum : Nat) (bhash : Hash)
    (rawblockSize : Nat) (cblock : CBlock) : RpaOnlyModeData :=
  let s := synchTxs H 1 (cblock.vtx.drop 1)
    (.empty,
      { height := bnum, hash := bhash, rawBlockSizeBytes := rawblockSize
        nTx := cblock.vtx.length })
  { s.2 with serializedPrefixTable := (s.1.serialize cache).1 }

end SynchRpa

section Agreement

variable {H : Hashers}

theorem synchInputs_fst (txIdx : Nat) {inputNum : Nat} (hnum : inputNum ≤ rpaInputIndexLimit)
    (vin : List CTxIn) (s : PrefixTable × RpaOnlyModeData) :
    (synchInputs H txIdx inputNum vin s).1 =
      (vin.take (rpaInputIndexLimit - inputNum)).foldl
        (fun pft input => pft.addForPrefix (.ofTxIn H input) (UInt32.ofNat txIdx)) s.1 := by
  induction vin generalizing inputNum s with
  | nil => simp [synchInputs]
  | cons inp vin ih =>
      rw [synchInputs]
      split_ifs with hlt
      · obtain ⟨k, hk⟩ : ∃ k, rpaInputIndexLimit - inputNum = k + 1 :=
          ⟨rpaInputIndexLimit - inputNum - 1, by omega⟩
        have hk' : rpaInputIndexLimit - (inputNum + 1) = k := by omega
        rw [ih (by omega), hk, hk', List.take_succ_cons, List.foldl_cons]
      · have hzero : rpaInputIndexLimit - inputNum = 0 := by omega
        rw [hzero, List.take_zero, List.foldl_nil]

/-- The loops over the transactions build the same table. -/
theorem synchTxs_fst (txIdx : Nat) (vtx : List CTransaction) (s : PrefixTable × RpaOnlyModeData)
    (n : Nat) : (synchTxs H txIdx vtx s).1 = (addTxs H txIdx vtx (s.1, n)).1 := by
  induction vtx generalizing txIdx s n with
  | nil => rfl
  | cons tx vtx ih =>
      rw [synchTxs, addTxs, ih (n := txIdx)]
      have hinputs := synchInputs_fst (H := H) txIdx (Nat.zero_le rpaInputIndexLimit) tx.vin
        (s.1, { s.2 with nIns := s.2.nIns + tx.vin.length })
      have htake : tx.vin.take (min tx.vin.length rpaInputIndexLimit) =
          tx.vin.take rpaInputIndexLimit := by
        rw [Nat.min_comm, ← List.take_take, List.take_length]
      have hfirst : (synchInputs H txIdx 0 tx.vin
          (s.1, { s.2 with nIns := s.2.nIns + tx.vin.length })).1 =
            addFirstInputs H txIdx tx s.1 := by
        rw [hinputs, Nat.sub_zero, addFirstInputs, htake]
      rw [hfirst]

theorem addTxs_snd (txIdx : Nat) (vtx : List CTransaction) (s : PrefixTable × Nat) :
    (addTxs H txIdx vtx s).2 = if vtx = [] then s.2 else txIdx + vtx.length - 1 := by
  induction vtx generalizing txIdx s with
  | nil => rfl
  | cons tx vtx ih =>
      rw [addTxs, ih]
      cases vtx with
      | nil => simp
      | cons tx' vtx =>
          simp only [reduceCtorEq, if_false, List.length_cons]
          omega

/-- `maxTxIdxSeen` is the last index of the block. -/
theorem blockTable_snd (vtx : List CTransaction) : (blockTable H vtx).2 = vtx.length - 1 := by
  rw [blockTable, addTxs_snd]
  split_ifs with hnil
  · rw [List.drop_eq_nil_iff] at hnil
    omega
  · rw [List.length_drop]
    rw [List.drop_eq_nil_iff] at hnil
    omega

variable {qCompress : List UInt8 → List UInt8}

theorem serializedPrefixTable_synchRpa (cache : PrefixTable.EmptySerialization qCompress)
    (bnum : Nat) (bhash : Hash) (rawblockSize : Nat) (b : CBlock) :
    (synchRpa H cache bnum bhash rawblockSize b).serializedPrefixTable =
      qCompress (blockTable H b.vtx).1.dataBuf := by
  simp only [synchRpa, PrefixTable.serialize_fst, synchTxs_fst (n := 0), blockTable]

/-- The RPA task returns a table iff the indices fit. -/
theorem rpaWork_eq_ok_iff (cache : PrefixTable.EmptySerialization qCompress) (height : Nat)
    (vtx : List CTransaction) (ser : List UInt8) :
    rpaWork H cache height vtx = .ok ser ↔
      vtx.length ≤ maxTxIdx + 1 ∧ ser = qCompress (blockTable H vtx).1.dataBuf := by
  simp only [rpaWork, PrefixTable.serialize_fst, blockTable_snd]
  split_ifs with hlong
  · simp only [false_iff, not_and]
    omega
  · simp only [Except.ok.injEq]
    refine ⟨fun h => ⟨by omega, h.symm⟩, fun h => h.2.symm⟩

/-- The two paths agree on exactly the blocks whose indices fit. -/
theorem rpaWork_eq_synchRpa_iff (cache cache' : PrefixTable.EmptySerialization qCompress)
    (height : Nat) (bhash : Hash) (rawblockSize : Nat) (b : CBlock) :
    rpaWork H cache height b.vtx =
        .ok (synchRpa H cache' height bhash rawblockSize b).serializedPrefixTable ↔
      b.vtx.length ≤ maxTxIdx + 1 := by
  rw [rpaWork_eq_ok_iff, serializedPrefixTable_synchRpa]
  exact and_iff_left rfl

/-- The table `fill` returns is the one of its RPA task. -/
theorem serializedRpaPrefixTable_of_fill {height : Nat}
    {work : List CTransaction → Except Exception (List UInt8)} {blockHash : Hash}
    {blockSize : Nat} {b : CBlock} {ppb : PreProcessedBlock}
    (h : fill H height (some work) blockHash blockSize b = .ok ppb) :
    ∃ ser, work b.vtx = .ok ser ∧ ppb.serializedRpaPrefixTable = some ser := by
  unfold fill at h
  cases hf : fillTxs H height {} b.vtx with
  | error e =>
      rw [hf] at h
      cases h
  | ok f =>
      rw [hf] at h
      simp only at h
      cases hr : resolveInputs H height b.vtx f
          { outputs := f.outputs, hashXAggregated := f.hashXAggregated } f.inputs with
      | error e =>
          rw [hr] at h
          cases h
      | ok r =>
          rw [hr] at h
          simp only at h
          cases hw : work b.vtx with
          | error e =>
              rw [hw] at h
              cases h
          | ok ser =>
              rw [hw] at h
              cases h
              exact ⟨ser, rfl, rfl⟩

end Agreement

section Rows

variable {H : Hashers}

theorem mem_row_foldl {l : List CTxIn} {txIdx : TxIdx} {t : PrefixTable} {p : UInt16}
    {x : TxIdx} :
    x ∈ (l.foldl (fun pft input => pft.addForPrefix (.ofTxIn H input) txIdx) t).row p.toNat ↔
      x ∈ t.row p.toNat ∨ (x = txIdx ∧ p ∈ l.map H.rpaPrefix) := by
  induction l generalizing t with
  | nil => simp
  | cons input l ih =>
      have hp : p.toNat < numRows := p.toNat_lt
      rw [List.foldl_cons, ih, PrefixTable.row_addForPrefix _ _ _ hp, List.map_cons,
        List.mem_cons]
      simp only [Prefix.mem_rows_ofTxIn, UInt16.toNat_inj]
      split_ifs with he
      · rw [mem_pushBack]
        tauto
      · tauto

/-- The prefixes of the inputs of a transaction that are indexed. -/
def rpaPrefixes (H : Hashers) (tx : CTransaction) : List UInt16 :=
  (tx.vin.take rpaInputIndexLimit).map H.rpaPrefix

theorem mem_row_addFirstInputs {txIdx : Nat} {tx : CTransaction} {t : PrefixTable} {p : UInt16}
    {x : TxIdx} :
    x ∈ (addFirstInputs H txIdx tx t).row p.toNat ↔
      x ∈ t.row p.toNat ∨ (x = UInt32.ofNat txIdx ∧ p ∈ rpaPrefixes H tx) := by
  rw [addFirstInputs, mem_row_foldl, rpaPrefixes, Nat.min_comm, ← List.take_take,
    List.take_length]

theorem mem_row_addTxs {txIdx : Nat} {vtx : List CTransaction} {s : PrefixTable × Nat}
    {p : UInt16} {x : TxIdx} :
    x ∈ (addTxs H txIdx vtx s).1.row p.toNat ↔
      x ∈ s.1.row p.toNat ∨
        ∃ i tx, vtx[i]? = some tx ∧ x = UInt32.ofNat (txIdx + i) ∧ p ∈ rpaPrefixes H tx := by
  induction vtx generalizing txIdx s with
  | nil => simp [addTxs]
  | cons tx vtx ih =>
      rw [addTxs, ih, mem_row_addFirstInputs, or_assoc]
      refine or_congr Iff.rfl ?_
      constructor
      · rintro (⟨hx, hp⟩ | ⟨i, tx', hget, hx, hp⟩)
        · exact ⟨0, tx, rfl, hx, hp⟩
        · refine ⟨i + 1, tx', hget, ?_, hp⟩
          rw [hx]
          congr 1
          omega
      · rintro ⟨i, tx', hget, hx, hp⟩
        cases i with
        | zero =>
            cases hget
            exact Or.inl ⟨hx, hp⟩
        | succ i =>
            refine Or.inr ⟨i, tx', hget, ?_, hp⟩
            rw [hx]
            congr 1
            omega

/-- A transaction after the coinbase is listed under the prefixes of its first inputs. -/
theorem mem_row_blockTable {vtx : List CTransaction} (hlen : vtx.length ≤ maxTxIdx + 1) {i : Nat}
    (hi : 1 ≤ i) {tx : CTransaction} (htx : vtx[i]? = some tx) {p : UInt16} :
    (∃ x ∈ (blockTable H vtx).1.row p.toNat, x.toNat = i) ↔ p ∈ rpaPrefixes H tx := by
  have hbound : ∀ j, j < vtx.length → (UInt32.ofNat j).toNat = j := by
    intro j hj
    have hmax : maxTxIdx + 1 = 2 ^ 24 := rfl
    rw [UInt32.toNat_ofNat', Nat.mod_eq_of_lt]
    omega
  have hilt : i < vtx.length := (List.getElem?_eq_some_iff.mp htx).1
  have hrows : ∀ x, x ∈ (blockTable H vtx).1.row p.toNat ↔
      ∃ j tx, vtx[1 + j]? = some tx ∧ x = UInt32.ofNat (1 + j) ∧ p ∈ rpaPrefixes H tx := by
    intro x
    rw [blockTable, mem_row_addTxs, PrefixTable.row_empty]
    simp only [List.not_mem_nil, false_or, List.getElem?_drop]
  constructor
  · rintro ⟨x, hx, rfl⟩
    obtain ⟨j, tx', hget, rfl, hp⟩ := (hrows _).mp hx
    have hjlt := (List.getElem?_eq_some_iff.mp hget).1
    rw [hbound _ hjlt, hget] at htx
    cases htx
    exact hp
  · intro hp
    refine ⟨UInt32.ofNat i, (hrows _).mpr ⟨i - 1, tx, ?_, ?_, hp⟩, hbound i hilt⟩
    · rw [Nat.add_sub_cancel' hi]
      exact htx
    · rw [Nat.add_sub_cancel' hi]

end Rows

end Rpa
end Shulcrum
