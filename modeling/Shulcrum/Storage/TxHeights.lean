import Shulcrum.Lib.Fallible
import Shulcrum.Storage.TxStatus

/-!
# The heights of transactions

The blocks cut the transaction numbers into ranges, one after the other.  The
height of a number is looked up in a map with the first number of every block,
and the vector of the blocks tells whether the range found contains the number.
`getTxHeights` looks up many transactions at once, and reads all records of the
index in one batch.

**Results.**
* `getTxHeights_eq`: the batch gives what the single lookups give.
* `txNums_partitioned`: the ranges, the lookup by number, and the batch, in every
  run.
-/

namespace Shulcrum
namespace Storage

open Invariant ChainIndex Fallible Positions

/-! ## Many lookups at once -/

/-- The loop of `findMany` over the rows: the record numbers, and the range of each hash. -/
def collectTxNums : List (Option (List Nat)) → List Nat → List Nat × List (Option (Nat × Nat))
  | [], recNums => (recNums, [])
  | none :: rows, recNums =>
      let (recNums, ranges) := collectTxNums rows recNums
      (recNums, none :: ranges)
  | some txNums :: rows, recNums =>
      let first := recNums.length
      let second := first + txNums.length
      let (recNums, ranges) := collectTxNums rows (recNums ++ txNums)
      (recNums, (if second > first then some (first, second) else none) :: ranges)

/-- The first number of a range whose record is the hash. -/
def firstInRange (recs : List (Option TxHash × Nat)) (txHash : TxHash) (range : Nat × Nat) :
    Option Nat :=
  (((recs.drop range.1).take (range.2 - range.1)).find? fun e => decide (e.1 = some txHash)).map
    Prod.snd

/-- `TxHash2TxNumMgr::findMany`. -/
def ChainIndex.findMany (ix : ChainIndex) (txHashes : List TxHash) : List (Option Nat) :=
  let (recNums, ranges) :=
    collectTxNums (txHashes.map fun h => ix.txhash2txnum[makeKeyFromHash h]?) []
  let recs := recNums.map fun n => (ix.txNums[n]?, n)
  (txHashes.zip ranges).map fun e => e.2.bind (firstInRange recs e.1)

/-- `Storage::getTxHeights`. -/
def getTxHeights (s : State) (txHashes : List TxHash) : Except Exception (List (Option Nat)) :=
  let txNums := s.index.findMany txHashes
  if txNums.length ≠ txHashes.length then
    .error (.internalError "findMany() returned an unexpected number of elements! FIXME!")
  else
    -- missing numbers need a mempool check, where 0 stands for a mempool transaction
    let txNums := (txHashes.zip txNums).map fun e =>
      if e.2 = none ∧ e.1 ∈ s.mempool.txs then some 0 else e.2
    .ok (txNums.map fun txNum => txNum.bind fun n =>
      if n ≠ 0 then heightForTxNum s n else some 0)

section FindMany

variable {ix : ChainIndex} (rowOfHash : TxHash → Option (List Nat))

/-- The numbers that are collected go after those that are there. -/
theorem collectTxNums_append (rows : List (Option (List Nat))) (recNums : List Nat) :
    ∃ more, (collectTxNums rows recNums).1 = recNums ++ more := by
  induction rows generalizing recNums with
  | nil => exact ⟨[], (List.append_nil recNums).symm⟩
  | cons row rows ih =>
      cases row with
      | none => exact ih recNums
      | some txNums =>
          obtain ⟨more, hmore⟩ := ih (recNums ++ txNums)
          refine ⟨txNums ++ more, ?_⟩
          rw [collectTxNums, ← List.append_assoc]
          exact hmore

/-- Each hash is looked up among the numbers of its own row. -/
theorem collectTxNums_ranges (record : Nat → Option TxHash) (txHashes : List TxHash)
    (recNums : List Nat) :
    (txHashes.zip (collectTxNums (txHashes.map rowOfHash) recNums).2).map (fun e =>
        e.2.bind (firstInRange ((collectTxNums (txHashes.map rowOfHash) recNums).1.map
          fun n => (record n, n)) e.1)) =
      txHashes.map fun h => ((rowOfHash h).getD []).find? fun n => decide (record n = some h) := by
  induction txHashes generalizing recNums with
  | nil => rfl
  | cons h txHashes ih =>
      rw [List.map_cons, List.map_cons]
      cases hrow : rowOfHash h with
      | none =>
          rw [collectTxNums]
          dsimp only
          rw [List.zip_cons_cons, List.map_cons, ih recNums]
          rfl
      | some txNums =>
          obtain ⟨more, hmore⟩ := collectTxNums_append (txHashes.map rowOfHash) (recNums ++ txNums)
          rw [collectTxNums]
          dsimp only
          rw [List.zip_cons_cons, List.map_cons, ih (recNums ++ txNums), hmore]
          congr 1
          split_ifs with hsome
          · rw [Option.bind_some, firstInRange, List.map_append, List.map_append,
              List.append_assoc, List.drop_left' (by rw [List.length_map]),
              List.take_left' (by rw [List.length_map]; omega), List.find?_map, Option.map_map]
            exact Option.map_id_apply
          · have hnil : txNums = [] := List.eq_nil_of_length_eq_zero (by omega)
            rw [hnil]
            rfl

theorem findMany_eq (ix : ChainIndex) (txHashes : List TxHash) :
    ix.findMany txHashes = txHashes.map fun h =>
      ((ix.txhash2txnum[makeKeyFromHash h]?).getD []).find? fun n =>
        decide (ix.txNums[n]? = some h) :=
  collectTxNums_ranges _ (fun n => ix.txNums[n]?) txHashes []

theorem TxIndexed.findMany_eq (h : TxIndexed ix) (txHashes : List TxHash) :
    ix.findMany txHashes = txHashes.map ix.numberOf := by
  rw [Storage.findMany_eq]
  refine List.map_congr_left fun txHash _ => ?_
  rw [h, rowOf_getD, find?_positions]
  rfl

end FindMany

section Heights

variable {H : Hashers} {opts : Options} {s : State}

/-- A block starts where the one before it ends. -/
theorem ChainIndex.WellFormed.contiguous {ix : ChainIndex} (hw : WellFormed ix) {k : Nat}
    {bi bi' : BlkInfo} (hget : ix.blkInfos[k]? = some bi) (hget' : ix.blkInfos[k + 1]? = some bi') :
    bi'.txNum0 = bi.txNum0 + bi.nTx := by
  rw [(hw.blkInfos (k + 1) bi' hget').2, (hw.blkInfos k bi hget).2, List.take_add_one, hget]
  simp

/-- The last block ends at the next free number. -/
theorem ChainIndex.WellFormed.ends {ix : ChainIndex} (hw : WellFormed ix) {bi : BlkInfo}
    (hget : ix.blkInfos.getLast? = some bi) : bi.txNum0 + bi.nTx = ix.txNumNext := by
  obtain ⟨init, hinit⟩ := List.getLast?_eq_some_iff.mp hget
  have hlast : ix.blkInfos[init.length]? = some bi := by
    rw [hinit]
    exact List.getElem?_concat_length
  rw [hw.txNumNext, (hw.blkInfos init.length bi hlast).2, hinit, List.take_left]
  simp

/-- A number has the height of the block with the number in its range. -/
theorem heightForTxNum_iff (hw : WellFormed s.index) {n h : Nat} :
    heightForTxNum s n = some h ↔ ∃ bi, s.index.blkInfos[h]? = some bi ∧ bi.txNum0 ≤ n ∧
      n < bi.txNum0 + bi.nTx := by
  constructor
  · intro hheight
    unfold heightForTxNum at hheight
    split at hheight
    · cases hheight
    · split at hheight
      · cases hheight
      · next e _ _ bi hget =>
          split_ifs at hheight with hin
          rw [Option.some.injEq] at hheight
          subst hheight
          exact ⟨bi, hget, hin⟩
  · rintro ⟨bi, hget, hlo, hhi⟩
    exact heightForTxNum_eq hw hget hlo hhi

theorem heightForTxNum_eq_none_iff (hw : WellFormed s.index) {n : Nat} :
    heightForTxNum s n = none ↔ s.index.txNumNext ≤ n := by
  constructor
  · intro hnone
    by_contra hlt
    obtain ⟨k, bi, hget, hlo, hhi⟩ := hw.exists_blkInfo (not_le.mp hlt)
    rw [heightForTxNum_eq hw hget hlo hhi] at hnone
    cases hnone
  · intro hle
    cases hheight : heightForTxNum s n with
    | none => rfl
    | some h =>
        obtain ⟨bi, hget, -, hhi⟩ := (heightForTxNum_iff hw).mp hheight
        have hend := hw.blkInfo_le hget
        omega

/-- The first number has height 0, which is what the batch says without a lookup. -/
theorem heightForTxNum_zero (hw : WellFormed s.index) (hpos : 0 < s.index.txNumNext) :
    heightForTxNum s 0 = some 0 := by
  cases hinfos : s.index.blkInfos with
  | nil =>
      rw [hw.txNumNext, hinfos] at hpos
      exact absurd hpos (lt_irrefl 0)
  | cons bi infos =>
      have hget : s.index.blkInfos[0]? = some bi := by rw [hinfos, List.getElem?_cons_zero]
      obtain ⟨hnTx, hstart⟩ := hw.blkInfos 0 bi hget
      have hzero : bi.txNum0 = 0 := by rw [hstart, List.take_zero, List.map_nil, List.sum_nil]
      exact heightForTxNum_eq hw hget (by omega) (by omega)

/-- The batch gives what the single lookups give. -/
theorem getTxHeights_eq (hidx : TxIndexed s.index) (hw : WellFormed s.index)
    (txHashes : List TxHash) : getTxHeights s txHashes = txHashes.mapM (getTxHeight s) := by
  have hsingle : txHashes.mapM (getTxHeight s) = .ok (txHashes.map fun h =>
      (s.index.numberOf h).elim (if h ∈ s.mempool.txs then some 0 else none)
        (heightForTxNum s)) := by
    refine mapM_ok fun h _ => ?_
    rw [getTxHeight_eq hidx h]
    cases s.index.numberOf h with
    | none => rfl
    | some txNum => rfl
  have hlen : ¬ (s.index.findMany txHashes).length ≠ txHashes.length := by
    rw [hidx.findMany_eq, List.length_map]
    exact not_not.mpr rfl
  rw [hsingle, getTxHeights, if_neg hlen, hidx.findMany_eq]
  refine congrArg Except.ok ?_
  have hzip : (txHashes.map id).zip (txHashes.map s.index.numberOf) =
      txHashes.map fun h => (h, s.index.numberOf h) := List.zip_map'
  rw [List.map_id] at hzip
  rw [List.map_map, hzip, List.map_map]
  refine List.map_congr_left fun h _ => ?_
  simp only [Function.comp_apply]
  cases hnum : s.index.numberOf h with
  | none =>
      by_cases hmem : h ∈ s.mempool.txs
      · simp [hmem]
      · simp [hmem]
  | some n =>
      have hlt := numberOf_lt hw hnum
      by_cases hn : n = 0
      · subst hn
        simp [heightForTxNum_zero hw hlt]
      · simp [hn]

end Heights

section Runs

variable {H : Hashers} {opts : Options} {valid : List CBlock → CBlock → Prop} {r : ChainRun}

/--
In every state of every run: the ranges of the blocks are contiguous from 0 to the
next free number; a number has the height of the block with the number in its
range, and none from the next free number on; and the batch of heights gives the
heights one by one.
-/
theorem txNums_partitioned (hr : Reachable ChainRun.Start (ChainStep H opts valid) r) :
    (∀ bi, r.state.index.blkInfos[0]? = some bi → bi.txNum0 = 0) ∧
    (∀ (h : Nat) (bi bi' : BlkInfo), r.state.index.blkInfos[h]? = some bi →
      r.state.index.blkInfos[h + 1]? = some bi' → bi'.txNum0 = bi.txNum0 + bi.nTx) ∧
    (∀ bi, r.state.index.blkInfos.getLast? = some bi →
      bi.txNum0 + bi.nTx = r.state.index.txNumNext) ∧
    (r.state.index.blkInfos = [] → r.state.index.txNumNext = 0) ∧
    (∀ n h : Nat, heightForTxNum r.state n = some h ↔
      ∃ bi, r.state.index.blkInfos[h]? = some bi ∧ bi.txNum0 ≤ n ∧ n < bi.txNum0 + bi.nTx) ∧
    (∀ n, heightForTxNum r.state n = none ↔ r.state.index.txNumNext ≤ n) ∧
    ∀ txHashes, getTxHeights r.state txHashes = txHashes.mapM (getTxHeight r.state) := by
  obtain ⟨hs, hidx⟩ := txIndexed_of_reachable hr
  have hw := hs.wellFormed
  refine ⟨fun bi hget => ?_, fun h bi bi' => hw.contiguous, fun bi => hw.ends, fun hnil => ?_,
    fun n h => heightForTxNum_iff hw, fun n => heightForTxNum_eq_none_iff hw,
    getTxHeights_eq hidx hw⟩
  · rw [(hw.blkInfos 0 bi hget).2, List.take_zero, List.map_nil, List.sum_nil]
  · rw [hw.txNumNext, hnil, List.map_nil, List.sum_nil]

end Runs

section SmallChain

open Mempool PreProcessedBlock

/-- In a chain of a block with one transaction and one with three. -/
theorem txNums_partitioned_second : ∃ r : ChainRun, r.blocks = [firstBlock, secondBlock 0] ∧
    heightForTxNum r.state 0 = some 0 ∧ heightForTxNum r.state 3 = some 1 ∧
      heightForTxNum r.state 4 = none := by
  have hfill : fill opTrueHashers 1 none 0 100 (secondBlock 0) =
      .ok (prepared 1 (secondBlock 0)) := rfl
  obtain ⟨s, notify, hadd, hinfos, hnext⟩ : ∃ s notify,
      addBlock opTrueHashers {} firstState (prepared 1 (secondBlock 0)) true false false =
          .ok s notify ∧
        s.index.blkInfos = [⟨0, 1⟩, ⟨1, 3⟩] ∧ s.index.txNumNext = 4 := ⟨_, _, rfl, rfl, rfl⟩
  have hr := (reachable_firstState ValidBlock validBlock_first).next
    (.add hfill validBlock_second (by decide) hadd)
  obtain ⟨-, -, -, -, hheight, hnone, -⟩ := txNums_partitioned hr
  refine ⟨_, rfl, (hheight 0 0).mpr ⟨⟨0, 1⟩, ?_, by decide, by decide⟩,
    (hheight 3 1).mpr ⟨⟨1, 3⟩, ?_, by decide, by decide⟩, (hnone 4).mpr hnext.le⟩
  · rw [hinfos]
    rfl
  · rw [hinfos]
    rfl

end SmallChain

end Storage
end Shulcrum
