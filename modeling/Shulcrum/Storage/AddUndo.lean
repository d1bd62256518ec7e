import Shulcrum.Storage.WellFormed

/-!
# Undoing a block that was just added

The undo record does not contain the block, only what it added and removed.
Table by table, this is enough to get the index back as it was.

**Results.**
* `Connected.disconnect_eq_ok_iff`: if it can be done, taking back a block whose
  transactions were new restores every table and every value in memory.
* `Connected.exists_truncate_iff`: it can if the rows of their ids are short enough
  to be read.
-/

namespace Shulcrum
namespace Storage

open TreeMap Flatten PreProcessedBlock

namespace ChainIndex

variable {H : Hashers} {opts : Options} {ix : ChainIndex} {b : CBlock} {ppb : PreProcessedBlock}
  {ch : BlockChanges}

/-- The undo record of a block. -/
def undoOf (H : Hashers) (ix : ChainIndex) (ppb : PreProcessedBlock) (ch : BlockChanges) :
    UndoInfo :=
  undoInfo H ix ppb ppb.header.serialize ch

theorem mem_addUndos {a : TXO × HashX × CompactTXO} :
    a ∈ (undoOf H ix ppb ch).addUndos ↔
      ∃ e ∈ ch.adds, (e.1, e.2.hashX, (shunspentKey e.1 e.2).ctxo) = a := by
  simp only [undoOf, undoInfo, List.mem_map]
  rfl

theorem mem_delUndos {d : TXO × TXOInfo} :
    d ∈ (undoOf H ix ppb ch).delUndos ↔ ∃ sp ∈ ch.spends, (sp.txo, sp.info) = d := by
  simp only [undoOf, undoInfo, List.mem_map]

theorem WellFormed.undo_byTxNum (hw : WellFormed ix) :
    (nextIndex opts ix ppb ch).blkInfosByTxNum.erase ix.txNumNext = ix.blkInfosByTxNum := by
  have hmap : (nextIndex opts ix ppb ch).blkInfosByTxNum =
      ix.blkInfosByTxNum.insert ix.txNumNext ix.blkInfos.length := rfl
  apply Std.ExtTreeMap.ext_getElem?
  intro t
  rw [hmap, get_erase, get_insert]
  split_ifs with ht
  · subst ht
    cases hget : ix.blkInfosByTxNum[ix.txNumNext]? with
    | none => rfl
    | some k =>
        -- no block of the old chain starts where the new one does
        obtain ⟨bi, hbi, hstart⟩ := (hw.byTxNum _ _).mp hget
        have hle := hw.blkInfo_le hbi
        have hpos := (hw.blkInfos k bi hbi).1
        omega
  · rfl

/-- The numbers of transactions fit into a row. -/
theorem WellFormed.row_lt (hw : WellFormed ix) (key : BitVec 48) :
    ∀ n ∈ ix.txhash2txnum[key]?.getD [], n < 2 ^ 64 := by
  intro n hn
  cases hget : ix.txhash2txnum[key]? with
  | none => simp [hget] at hn
  | some l =>
      rw [hget] at hn
      obtain ⟨hash, hhash, -⟩ := (hw.buckets key l hget).2 n hn
      have hlt := (List.getElem?_eq_some_iff.mp hhash).1
      have hle := hw.txNum_le
      simp only [txNumMax] at hle
      rw [hw.txNums_length] at hlt
      omega

theorem WellFormed.undo_txhash2txnum (hw : WellFormed ix)
    {m : Std.ExtTreeMap (BitVec 48) (List Nat) compare}
    (hm : truncateForUndo (nextIndex opts ix ppb ch) ix.txNumNext = .ok m) :
    m = ix.txhash2txnum := by
  have hnums : (nextIndex opts ix ppb ch).txNums = ix.txNums ++ ppb.txInfos.map TxInfo.hash := rfl
  apply Std.ExtTreeMap.ext_getElem?
  intro key
  have hlookup : (nextIndex opts ix ppb ch).txhash2txnum[key]? = _ :=
    get_insertForBlock ix.txhash2txnum ix.txNumNext ppb.txInfos key
  have hdrop : (nextIndex opts ix ppb ch).txNums.drop ix.txNumNext =
      ppb.txInfos.map TxInfo.hash := by
    rw [hnums, ← hw.txNums_length, List.drop_left]
  rw [get_truncateForUndo hm key, hlookup, hdrop]
  by_cases hempty : (bucketOf ppb.txInfos ix.txNumNext key).isEmpty = true
  · have hnone : ¬ ∃ rec ∈ ppb.txInfos.map TxInfo.hash, makeKeyFromHash rec = key := by
      rintro ⟨rec, hrec, hkey⟩
      obtain ⟨info, hinfo, rfl⟩ := List.mem_map.mp hrec
      obtain ⟨i, hi⟩ := List.mem_iff_getElem?.mp hinfo
      have hin : ix.txNumNext + i ∈ bucketOf ppb.txInfos ix.txNumNext key :=
        mem_bucketOf.mpr ⟨i, info, hi, hkey, rfl⟩
      rw [List.isEmpty_iff.mp hempty] at hin
      cases hin
    rw [if_neg hnone, if_pos hempty]
  · have hsome : ∃ rec ∈ ppb.txInfos.map TxInfo.hash, makeKeyFromHash rec = key := by
      have hne : bucketOf ppb.txInfos ix.txNumNext key ≠ [] :=
        fun hnil => hempty (List.isEmpty_iff.mpr hnil)
      obtain ⟨n, hn⟩ := List.exists_mem_of_ne_nil _ hne
      obtain ⟨i, info, hinfo, hkey, -⟩ := mem_bucketOf.mp hn
      exact ⟨info.hash, List.mem_map.mpr ⟨info, List.mem_of_getElem? hinfo, rfl⟩, hkey⟩
    rw [if_pos hsome, if_neg hempty, Option.bind_some, cutList_append]
    · cases hold : ix.txhash2txnum[key]? with
      | none => rfl
      | some l =>
          have hne := (hw.buckets key l hold).1
          simp [hne]
    · intro n hn
      cases hold : ix.txhash2txnum[key]? with
      | none => simp [hold] at hn
      | some l =>
          rw [hold] at hn
          obtain ⟨h', hh', -⟩ := (hw.buckets key l hold).2 n hn
          rw [← hw.txNums_length]
          exact (List.getElem?_eq_some_iff.mp hh').1
    · intro n hn
      obtain ⟨i, info, -, -, rfl⟩ := mem_bucketOf.mp hn
      omega

namespace Connected

theorem undo_shist (h : Connected H opts ix b ppb ch) (hw : WellFormed ix) :
    undoHistories (nextIndex opts ix ppb ch).shist ix.txNumNext (undoOf H ix ppb ch).scriptHashes =
      .ok ix.shist := by
  have hmem : ∀ hx, hx ∈ (undoOf H ix ppb ch).scriptHashes ↔ hx ∈ ch.hashXAggregated :=
    fun hx => Std.ExtTreeMap.mem_keys
  obtain ⟨shist, hok⟩ : ∃ shist, undoHistories (nextIndex opts ix ppb ch).shist ix.txNumNext
      (undoOf H ix ppb ch).scriptHashes = .ok shist := by
    refine undoHistories_ok fun hx hin => ?_
    obtain ⟨a, ha⟩ := mem_iff_getElem?.mp ((hmem hx).mp hin)
    rw [mem_iff_getElem?, h.get_shist, ha]
    exact ⟨_, rfl⟩
  rw [hok]
  congr 1
  apply Std.ExtTreeMap.ext_getElem?
  intro hx
  have hsorted : ∀ (hx : HashX) (vec : List Nat),
      (nextIndex opts ix ppb ch).shist[hx]? = some vec → vec.Pairwise (· < ·) :=
    fun hx vec hget => ((h.wellFormed hw).shist hx vec hget).2.1
  rw [get_undoHistories hok hsorted hx, h.get_shist]
  cases ha : ch.hashXAggregated[hx]? with
  | none =>
      have hnot : hx ∉ (undoOf H ix ppb ch).scriptHashes := by
        rw [hmem, not_mem_iff_getElem?]
        exact ha
      rw [if_neg hnot]
      rfl
  | some a =>
      have hin : hx ∈ (undoOf H ix ppb ch).scriptHashes := by
        rw [hmem, mem_iff_getElem?]
        exact ⟨a, ha⟩
      rw [if_pos hin]
      simp only [Option.elim_some, Option.bind_some]
      rw [cutList_append (hw.history hx).2]
      · cases hold : ix.shist[hx]? with
        | none => rfl
        | some l =>
            have hne := (hw.shist hx l hold).1
            simp [hne]
      · intro n hn
        obtain ⟨i, -, rfl⟩ := List.mem_map.mp hn
        omega

/-- The outputs of a block with new transactions were not in the UTXO set. -/
theorem adds_fresh (h : Connected H opts ix b ppb ch) (hw : WellFormed ix)
    (hnew : ∀ tx ∈ b.vtx, tx.hash ∉ ix.txNums) {e : TXO × TXOInfo} (he : e ∈ ch.adds) :
    ix.utxos.utxoset[e.1]? = none := by
  cases hget : ix.utxos.utxoset[e.1]? with
  | none => rfl
  | some info =>
      obtain ⟨i, n, out, tx, hx, htx, -, -, -, rfl⟩ := (h.changes.mem_adds e).mp he
      have hmem := List.mem_of_getElem? (hw.utxo _ _ hget).1
      exact absurd hmem (hnew tx (List.mem_of_getElem? htx))

theorem spend_info_le (h : Connected H opts ix b ppb ch) (hw : WellFormed ix) {sp : Spend}
    (hsp : sp ∈ ch.spends) : sp.info.txNum ≤ txNumMax := by
  have hlt := hw.utxo_txNum_lt (h.of_mem_spends hsp)
  have hle := hw.txNum_le
  omega

theorem undo_utxoset (h : Connected H opts ix b ppb ch) (hw : WellFormed ix)
    (hnew : ∀ tx ∈ b.vtx, tx.hash ∉ ix.txNums) :
    (undoUtxos (nextIndex opts ix ppb ch).utxos (undoOf H ix ppb ch)).utxoset =
      ix.utxos.utxoset := by
  apply Std.ExtTreeMap.ext_getElem?
  intro txo
  apply Option.ext
  intro info
  rw [get_undoUtxos]
  constructor
  · rintro ⟨hfold, hnot⟩
    rcases get_foldl_insert (l := (undoOf H ix ppb ch).delUndos) Prod.fst
      (fun e => storedInfo e.2) (nextIndex opts ix ppb ch).utxos.utxoset txo
      with ⟨d, hd, rfl, hlast⟩ | ⟨-, hold⟩
    · obtain ⟨sp, hsp, rfl⟩ := mem_delUndos.mp hd
      rw [storedInfo_of_le (h.spend_info_le hw hsp), hfold] at hlast
      rw [hlast]
      exact h.of_mem_spends hsp
    · rw [hold] at hfold
      obtain ⟨-, hadd | ⟨hget, -⟩⟩ := h.get_utxoset hfold
      · exact absurd rfl (hnot _ (mem_addUndos.mpr ⟨_, hadd, rfl⟩))
      · exact hget
  · intro hget
    have hnotadd : ∀ e ∈ ch.adds, e.1 ≠ txo := by
      rintro e he rfl
      rw [h.adds_fresh hw hnew he] at hget
      cases hget
    refine ⟨?_, ?_⟩
    · rcases get_foldl_insert (l := (undoOf H ix ppb ch).delUndos) Prod.fst
        (fun e => storedInfo e.2) (nextIndex opts ix ppb ch).utxos.utxoset txo
        with ⟨d, hd, rfl, hlast⟩ | ⟨hnone, hold⟩
      · obtain ⟨sp, hsp, rfl⟩ := mem_delUndos.mp hd
        rw [hlast, storedInfo_of_le (h.spend_info_le hw hsp)]
        have hsp' := h.of_mem_spends hsp
        simp only at hget
        rw [hget] at hsp'
        exact hsp'.symm
      · rw [hold]
        refine get_applyUtxos.mpr ⟨?_, ?_⟩
        · rcases get_foldl_insert (l := ch.adds) Prod.fst (fun e => storedInfo e.2)
            ix.utxos.utxoset txo with ⟨e, he, hkey, -⟩ | ⟨-, hsame⟩
          · exact absurd hkey (hnotadd e he)
          · rw [hsame]
            exact hget
        · intro sp hsp
          exact hnone _ (mem_delUndos.mpr ⟨sp, hsp, rfl⟩)
    · intro a ha
      obtain ⟨e, he, rfl⟩ := mem_addUndos.mp ha
      exact hnotadd e he

theorem undo_shunspent (h : Connected H opts ix b ppb ch) (hw : WellFormed ix) :
    (undoUtxos (nextIndex opts ix ppb ch).utxos (undoOf H ix ppb ch)).shunspent =
      ix.utxos.shunspent := by
  apply Std.ExtTreeMap.ext_getElem?
  intro key
  apply Option.ext
  intro v
  rw [get_undoUtxos_shunspent]
  have hspends : ∀ sp ∈ ch.spends, ix.utxos.shunspent[shunspentKey sp.txo sp.info]? =
      some ⟨sp.info.amount, sp.info.tokenDataPtr⟩ :=
    fun sp hsp => (hw.utxo _ _ (h.of_mem_spends hsp)).2.2
  constructor
  · rintro ⟨hfold, hnot⟩
    rcases get_foldl_insert (l := (undoOf H ix ppb ch).delUndos)
      (fun e => shunspentKey e.1 e.2)
      (fun e => (⟨e.2.amount, e.2.tokenDataPtr⟩ : SHUnspentValue))
      (nextIndex opts ix ppb ch).utxos.shunspent key with ⟨d, hd, rfl, hlast⟩ | ⟨-, hold⟩
    · obtain ⟨sp, hsp, rfl⟩ := mem_delUndos.mp hd
      rw [hfold] at hlast
      rw [hlast]
      exact hspends sp hsp
    · rw [hold] at hfold
      rcases (h.get_shunspent hw).mp hfold with ⟨e, he, hkey, -⟩ | ⟨hget, -⟩
      · exact absurd hkey (hnot _ (mem_addUndos.mpr ⟨e, he, rfl⟩))
      · exact hget
  · intro hget
    refine ⟨?_, ?_⟩
    · rcases get_foldl_insert (l := (undoOf H ix ppb ch).delUndos)
        (fun e => shunspentKey e.1 e.2)
        (fun e => (⟨e.2.amount, e.2.tokenDataPtr⟩ : SHUnspentValue))
        (nextIndex opts ix ppb ch).utxos.shunspent key with ⟨d, hd, rfl, hlast⟩ | ⟨hnone, hold⟩
      · obtain ⟨sp, hsp, rfl⟩ := mem_delUndos.mp hd
        rw [hlast, ← hget]
        exact (hspends sp hsp).symm
      · rw [hold]
        refine (h.get_shunspent hw).mpr (.inr ⟨hget, fun sp hsp => ?_⟩)
        exact hnone _ (mem_delUndos.mpr ⟨sp, hsp, rfl⟩)
    · intro a ha heq
      obtain ⟨e, he, rfl⟩ := mem_addUndos.mp ha
      have hlt := hw.unspent key v hget
      rw [← heq] at hlt
      have hle := (h.add_key_txNum he).1
      simp only at hlt
      omega

theorem undo_utxos (h : Connected H opts ix b ppb ch) (hw : WellFormed ix)
    (hnew : ∀ tx ∈ b.vtx, tx.hash ∉ ix.txNums) :
    undoUtxos (nextIndex opts ix ppb ch).utxos (undoOf H ix ppb ch) = ix.utxos := by
  have hct : (undoUtxos (nextIndex opts ix ppb ch).utxos (undoOf H ix ppb ch)).utxoCt =
      ix.utxos.utxoCt := by
    have hadds : (undoOf H ix ppb ch).addUndos.length = ch.adds.length := List.length_map _
    have hdels : (undoOf H ix ppb ch).delUndos.length = ch.spends.length := List.length_map _
    have hnext : (nextIndex opts ix ppb ch).utxos = applyUtxos ix.utxos ch.adds ch.spends := rfl
    rw [utxoCt_undoUtxos, hadds, hdels, hnext, utxoCt_applyUtxos]
    ring
  have hset := h.undo_utxoset hw hnew
  have hsh := h.undo_shunspent hw
  cases hu : undoUtxos (nextIndex opts ix ppb ch).utxos (undoOf H ix ppb ch)
  rw [hu] at hct hset hsh
  simp only at hct hset hsh
  rw [hct, hset, hsh]

theorem undo_blkinfo (h : Connected H opts ix b ppb ch) (hw : WellFormed ix) :
    (nextIndex opts ix ppb ch).blkinfo.erase (undoOf H ix ppb ch).height = ix.blkinfo := by
  have hmap : (nextIndex opts ix ppb ch).blkinfo =
      ix.blkinfo.insert ppb.height ⟨ix.txNumNext, ppb.txInfos.length⟩ := rfl
  have hheight : (undoOf H ix ppb ch).height = ppb.height := rfl
  apply Std.ExtTreeMap.ext_getElem?
  intro k
  rw [hmap, hheight, get_erase, get_insert]
  split_ifs with hk
  · rw [← hk, h.height, hw.headers_length, hw.blkinfo]
    simp
  · rfl

/-- What the undo finds in the index of the new block, the rows of `txhash2txnum` apart. -/
theorem disconnect_eq_ok_iff (h : Connected H opts ix b ppb ch) (hw : WellFormed ix)
    (hnew : ∀ tx ∈ b.vtx, tx.hash ∉ ix.txNums) {tip : Nat} {tipHeader : Header}
    (htip : ix.headers.length = tip + 1)
    (hheader : ix.headers[tip]? = some tipHeader) {ix' : ChainIndex} :
    disconnectBlock (nextIndex opts ix ppb ch) tip (BTC.trimHeaderRecord tipHeader)
        (undoOf H ix ppb ch) = .ok ix' ↔
      (∃ m, truncateForUndo (nextIndex opts ix ppb ch) ix.txNumNext = .ok m) ∧ ix' = ix := by
  have htxNum0 : (undoOf H ix ppb ch).blkInfo.txNum0 = ix.txNumNext := rfl
  have hnums : (nextIndex opts ix ppb ch).txNums.take ix.txNumNext = ix.txNums := by
    have happ : (nextIndex opts ix ppb ch).txNums = ix.txNums ++ ppb.txInfos.map TxInfo.hash := rfl
    rw [happ, ← hw.txNums_length, List.take_left]
  have hheaders : (nextIndex opts ix ppb ch).headers.take (tip + 1) = ix.headers := by
    have happ : (nextIndex opts ix ppb ch).headers =
        ix.headers ++ [BTC.padHeaderRecord opts.blockHeaderSize ppb.header.serialize] := rfl
    rw [happ, ← htip, List.take_left]
  have hinfos : (nextIndex opts ix ppb ch).blkInfos.dropLast = ix.blkInfos :=
    List.dropLast_concat
  have hverifier : BTC.HeaderVerifier.reset (tip + 1) (BTC.trimHeaderRecord tipHeader) =
      ix.headerVerifier := by
    rw [hw.verifier, BTC.HeaderVerifier.reset, List.getLast?_eq_getElem?, htip,
      Nat.add_sub_cancel, hheader]
    rfl
  simp only [disconnectBlock, htxNum0, h.undo_shist hw, h.undo_utxos hw hnew, h.undo_blkinfo hw,
    hw.undo_byTxNum, hnums, hheaders, hinfos, hverifier]
  cases hm : truncateForUndo (nextIndex opts ix ppb ch) ix.txNumNext with
  | error e => simp
  | ok m =>
      rw [hw.undo_txhash2txnum hm]
      simp only [Except.ok.injEq, exists_eq', true_and]
      exact eq_comm

theorem exists_truncate_iff (h : Connected H opts ix b ppb ch) (hw : WellFormed ix) :
    (∃ m, truncateForUndo (nextIndex opts ix ppb ch) ix.txNumNext = .ok m) ↔
      RowsFit (nextIndex opts ix ppb ch) ix.txNumNext := by
  refine exists_truncateForUndo_iff ?_ (h.wellFormed hw).row_lt
  have hnums : (nextIndex opts ix ppb ch).txNums = ix.txNums ++ ppb.txInfos.map TxInfo.hash := rfl
  rw [hnums, List.length_append, hw.txNums_length]
  omega

/-- The rows that an undo of the block reads are those of its ids. -/
theorem rowsFit_iff (h : Connected H opts ix b ppb ch) (hw : WellFormed ix) :
    RowsFit (nextIndex opts ix ppb ch) ix.txNumNext ↔ ∀ tx ∈ b.vtx,
      (rowBytes (nextIndex opts ix ppb ch).txhash2txnum (makeKeyFromHash tx.hash)).length <
        2 ^ 31 := by
  have hnums : (nextIndex opts ix ppb ch).txNums = ix.txNums ++ ppb.txInfos.map TxInfo.hash := rfl
  rw [RowsFit, hnums, ← hw.txNums_length, List.drop_left, h.prepared.hashes, List.forall_mem_map]

end Connected

end ChainIndex
end Storage
end Shulcrum
