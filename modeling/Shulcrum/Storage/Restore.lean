import Shulcrum.Storage.FirstUse
import Shulcrum.Storage.Startup

/-!
# The startup finds what was written

After any run whose sizes the server can hold, the tables pass all checks of the
startup, however many are asked for, and the values in memory are those of the run.

**Results.**
* `verified_of_reachable`: what the checks rely on, in every run.
* `verifyTxNums_ok`, `checkTxHash2TxNum_ok`: the buckets and the index of ids pass.
* `startup_database`: the startup after a run.
-/

namespace Shulcrum
namespace Storage

open Invariant TreeMap Flatten Fallible Positions ChainIndex PreProcessedBlock

variable {H : Hashers} {opts : Options}

/-! ## What every run keeps -/

/-- The blocks of a run give its index, and their headers pass the verifier. -/
structure Verified (H : Hashers) (opts : Options) (r : ChainRun) : Prop where
  chain : ChainInv H opts r
  linked : Linked H r.blocks
  notNull : ∀ b ∈ r.blocks, b.header.isNull = false

section Verified

variable {r : ChainRun}

/-- All blocks of a run have a header. -/
theorem notNull_of_reachable (h : Reachable ChainRun.Start (ChainStep H opts ValidBlock) r) :
    ∀ b ∈ r.blocks, b.header.isNull = false := by
  refine Reachable.invariant (I := fun r => ∀ b ∈ r.blocks, b.header.isNull = false) ?_ ?_ h
  · rintro _ rfl
    simp
  · intro r r' hr hstep
    cases hstep with
    | add hfill hv hfits hadd =>
        intro b hb
        rcases List.mem_append.mp hb with hold | hnew
        · exact hr b hold
        · rw [List.mem_singleton.mp hnew, ← (prepared_of_fill hfill).1.header]
          exact (header_of_addBlock hadd).1
    | reject hadd => exact hr
    | undo hundo => exact fun b hb => hr b (List.mem_of_mem_dropLast hb)
    | mempool mp => exact hr

theorem verified_of_reachable (h : Reachable ChainRun.Start (ChainStep H opts ValidBlock) r) :
    Verified H opts r :=
  ⟨(linked_of_reachable h).1, (linked_of_reachable h).2, notNull_of_reachable h⟩

/-- The records of the header table are those of the blocks. -/
theorem Chain.headers_eq {st : List (CBlock × UndoInfo)} {ix : ChainIndex}
    (h : Chain H opts st ix) :
    ix.headers = (st.map Prod.fst).map fun b =>
      BTC.padHeaderRecord opts.blockHeaderSize b.header.serialize := by
  refine (h.rec_on_blocks (P := fun blocks ix => ix.headers =
    blocks.map fun b => BTC.padHeaderRecord opts.blockHeaderSize b.header.serialize) rfl ?_).2
  intro blocks ix b ppb ch _ hheaders _ hc
  have hnext : (nextIndex opts ix ppb ch).headers =
      ix.headers ++ [BTC.padHeaderRecord opts.blockHeaderSize ppb.header.serialize] := rfl
  rw [hnext, hheaders, hc.prepared.header, List.map_append]
  rfl

/-- The table of ids has the numbers of every key. -/
theorem Chain.txIndexed {st : List (CBlock × UndoInfo)} {ix : ChainIndex}
    (h : Chain H opts st ix) : TxIndexed ix :=
  (h.rec_on_blocks (P := fun _ ix => TxIndexed ix) txIndexed_empty
    fun hnum hidx _ _ => hidx.connect hnum.wellFormed).2

/-- Every id occurs once. -/
theorem Chain.nodup_txNums {st : List (CBlock × UndoInfo)} {ix : ChainIndex}
    (h : Chain H opts st ix) : ix.txNums.Nodup := by
  have hdist := (h.rec_on_blocks (P := fun blocks _ => DistinctIds blocks)
    (by simp [DistinctIds, chainTxs]) fun _ hdist hv _ => hdist.connect hv).2
  rw [h.numbered.txNums]
  exact hdist

theorem Verified.length_eq (h : Verified H opts r) :
    r.state.index.headers.length = r.blocks.length := by
  obtain ⟨st, hchain, hblocks, -⟩ := h.chain
  rw [hchain.numbered.length, hblocks]

end Verified

/-! ## The headers -/

section Headers

variable {r : ChainRun}

/-- The verifier reads a header as it was written. -/
theorem verifyBytes_serialize {headerPoWHash : Header → Hash} {v : BTC.HeaderVerifier}
    {h : BTC.CBlockHeader} (hnull : h.isNull = false)
    (hlink : v.prev = [] ∨ headerPoWHash v.prev = h.hashPrevBlock) :
    verifyBytes headerPoWHash v h.serialize =
      .ok { prevHeight := v.prevHeight + 1, prev := h.serialize } := by
  have hnull' : h.canonical.isNull = false := by
    rw [BTC.CBlockHeader.isNull, BTC.nBits_canonical]
    exact hnull
  have hcheck : v.checkInner headerPoWHash (v.prevHeight + 1) h.canonical = .ok () := by
    rw [BTC.HeaderVerifier.checkInner, if_neg (by simp [hnull']), if_neg]
    rintro ⟨hne, hbad⟩
    rw [BTC.hashPrevBlock_canonical] at hbad
    rcases hlink with hnil | heq
    · exact hne hnil
    · exact hbad heq
  unfold verifyBytes
  rw [if_neg (not_not.mpr (BTC.length_serialize h)), BTC.deserialize_serialize]
  simp only [hcheck]

/-- All headers of linked blocks are accepted. -/
theorem foldlM_loadHeader {blocks : List CBlock} (hlinked : Linked H blocks)
    (hnull : ∀ b ∈ blocks, b.header.isNull = false) :
    (blocks.map fun b => b.header.serialize).foldlM (loadHeader H) {} =
      .ok
        { prevHeight := (blocks.length : Int) - 1
          prev := (blocks.getLast?.map fun b => b.header.serialize).getD [] } := by
  rw [List.foldlM_map]
  have hloop := foldlM_ok (l := blocks) (b := ({} : BTC.HeaderVerifier))
    (f := fun v b => loadHeader H v b.header.serialize)
    (P := fun pre v => v =
      { prevHeight := (pre.length : Int) - 1
        prev := (pre.getLast?.map fun b => b.header.serialize).getD [] }) rfl ?_
  · obtain ⟨v, hrun, hv⟩ := hloop
    rw [hrun, hv]
  · intro pre b post v hl hv
    have hmem : b ∈ blocks := by
      rw [hl]
      exact List.mem_append_right _ List.mem_cons_self
    have hlink : v.prev = [] ∨ H.headerPoWHash v.prev = b.header.hashPrevBlock := by
      rw [hv]
      rcases List.eq_nil_or_concat pre with rfl | ⟨init, tip, rfl⟩
      · exact .inl rfl
      · right
        have htip : blocks[init.length]? = some tip := by
          rw [hl]
          simp
        have hnext : blocks[init.length + 1]? = some b := by
          rw [hl]
          simp
        rw [hlinked _ _ _ htip hnext]
        simp
    refine ⟨_, ?_, rfl⟩
    unfold loadHeader
    rw [verifyBytes_serialize (hnull b hmem) hlink, hv]
    simp

/-- The headers of a run pass, and the verifier is as it was. -/
theorem loadCheckHeadersInDB_ok (h : Verified H opts r)
    (hmax : r.blocks.length ≤ maxHeaders) :
    loadCheckHeadersInDB H r.state.database.index =
      .ok { r.state.database.index with headerVerifier := r.state.index.headerVerifier } := by
  obtain ⟨st, hchain, hblocks, -⟩ := id h.chain
  have hheaders : r.state.database.index.headers = r.blocks.map fun b =>
      BTC.padHeaderRecord opts.blockHeaderSize b.header.serialize := by
    rw [← hblocks, ← hchain.headers_eq]
    rfl
  have hlen : r.state.database.index.headers.length = r.blocks.length := by
    rw [hheaders, List.length_map]
  have hnum : r.state.database.index.headers.length % 2 ^ 32 = r.blocks.length := by
    rw [hlen]
    exact Nat.mod_eq_of_lt (lt_of_le_of_lt hmax (by decide))
  have htrim : ((r.state.database.index.headers.take r.blocks.length).map BTC.trimHeaderRecord) =
      r.blocks.map fun b => b.header.serialize := by
    rw [← hlen, List.take_length, hheaders, List.map_map]
    refine List.map_congr_left fun b _ => ?_
    rw [Function.comp_apply, BTC.trimHeaderRecord_pad]
  simp only [loadCheckHeadersInDB, hnum]
  rw [if_neg (not_lt.mpr hmax), htrim, foldlM_loadHeader h.linked h.notNull, h.chain.verifier]

end Headers

/-! ## The transaction numbers -/

section Numbers

variable {r : ChainRun}

/-- The numbers of the blocks by their first transactions, from the last loop. -/
theorem byTxNum_eq {ix : ChainIndex} (hw : WellFormed ix) :
    (ix.blkInfos.zipIdx.foldl (fun m e => m.insert e.1.txNum0 e.2)
      (∅ : Std.ExtTreeMap Nat Nat compare)) = ix.blkInfosByTxNum := by
  apply Std.ExtTreeMap.ext_getElem?
  intro t
  rcases get_foldl_insert (l := ix.blkInfos.zipIdx) (fun e => e.1.txNum0) (fun e => e.2)
    (∅ : Std.ExtTreeMap Nat Nat compare) t with ⟨e, he, hkey, hget⟩ | ⟨hnone, hget⟩
  · rw [hget, eq_comm]
    exact (hw.byTxNum t e.2).mpr ⟨e.1, List.mem_zipIdx_iff_getElem?.mp he, hkey⟩
  · rw [hget]
    cases hold : ix.blkInfosByTxNum[t]? with
    | none => simp
    | some h =>
        obtain ⟨bi, hbi, heq⟩ := (hw.byTxNum t h).mp hold
        exact absurd heq (hnone (bi, h) (List.mem_zipIdx_iff_getElem?.mpr hbi))

theorem tipHeight_eq {ix : ChainIndex} (hw : WellFormed ix)
    (hprev : ix.headers ≠ [] → ix.headerVerifier.prev ≠ []) :
    ix.tipHeight = (ix.headers.length : Int) - 1 := by
  have hheight : ix.headerVerifier.prevHeight = (ix.headers.length : Int) - 1 := by
    rw [hw.verifier]
  unfold ChainIndex.tipHeight
  rcases List.eq_nil_or_concat ix.headers with hnil | ⟨init, tip, heq⟩
  · have hverifier := hw.verifier
    rw [hnil] at hverifier
    rw [hverifier, hnil]
    rfl
  · have hne : ix.headers ≠ [] := by simp [heq]
    have hpos := List.length_pos_of_ne_nil hne
    rw [if_neg, hheight]
    rw [not_or, hheight]
    exact ⟨hprev hne, by omega⟩

/-- The values after the blocks before height `k` were loaded. -/
def loadedTo (ix : ChainIndex) (k : Nat) : ChainIndex :=
  { withUtxoCt ix 0 with
    txNumNext := ((ix.blkInfos.take k).map BlkInfo.nTx).sum
    blkInfos := ix.blkInfos.take k
    blkInfosByTxNum := (ix.blkInfos.take k).zipIdx.foldl (fun m e => m.insert e.1.txNum0 e.2) ∅ }

theorem loadedTo_all {ix : ChainIndex} (hw : WellFormed ix) :
    loadedTo ix ix.blkInfos.length = withUtxoCt ix 0 := by
  rw [loadedTo, List.take_length, ← hw.txNumNext, byTxNum_eq hw]
  rfl

theorem loadedTo_succ {ix : ChainIndex} {k : Nat} {bi : BlkInfo} (hbi : ix.blkInfos[k]? = some bi) :
    { loadedTo ix k with
      txNumNext := (loadedTo ix k).txNumNext + bi.nTx
      blkInfos := (loadedTo ix k).blkInfos ++ [bi]
      blkInfosByTxNum := (loadedTo ix k).blkInfosByTxNum.insert bi.txNum0
        (loadedTo ix k).blkInfos.length } = loadedTo ix (k + 1) := by
  obtain ⟨hlt, rfl⟩ := List.getElem?_eq_some_iff.mp hbi
  have hmin : min k ix.blkInfos.length = k := by omega
  simp only [loadedTo, List.take_succ_eq_append_getElem hlt, List.map_append, List.sum_append,
    List.map_singleton, List.sum_singleton, List.zipIdx_append, List.zipIdx_singleton,
    List.foldl_append, List.foldl_cons, List.foldl_nil, List.length_take, hmin, Nat.zero_add]

/-- One round of the loop over the heights. -/
theorem loadBlkInfo_ok {ix : ChainIndex} {i : Nat} {bi : BlkInfo} (hget : ix.blkinfo[i]? = some bi)
    (hnum : bi.txNum0 = ix.txNumNext) :
    loadBlkInfo ix i = .ok
      { ix with
        txNumNext := ix.txNumNext + bi.nTx
        blkInfos := ix.blkInfos ++ [bi]
        blkInfosByTxNum := ix.blkInfosByTxNum.insert bi.txNum0 ix.blkInfos.length } := by
  unfold loadBlkInfo
  simp only [hget]
  rw [if_neg (not_not.mpr hnum)]

/-- The buckets of a list of ids pass. -/
theorem verifyTxNums_ok {d : DBRecordArray} {cf : ColumnFamily} {l : List Bytes}
    (h : DBRecordArray.Buckets d cf l) (hrec : d.recSz = 32)
    (hsize : d.bucketNRecs = txNumsDRA.bucketNRecs) : verifyTxNums cf l.length = .ok () := by
  have hexpected : txNumsDRA.expectedNBuckets l.length = d.expectedNBuckets l.length := by
    unfold DBRecordArray.expectedNBuckets
    rw [hsize]
  have hsixteen : d.bucketNRecs = 16 := hsize
  have hfits := h.fits
  have hloop := foldlM_ok (l := DBRecordArray.seekToFirstBucket cf) (b := (0, 0))
    (f := verifyBucket cf l.length)
    (P := fun pre seen => seen = (min (pre.length * 16) l.length, pre.length)) (by simp) ?_
  · obtain ⟨seen, hrun, rfl⟩ := hloop
    have hall := DBRecordArray.lt_expectedNBuckets_iff h.sized (n := l.length)
      (b := d.expectedNBuckets l.length)
    rw [hsixteen] at hall
    rw [DBRecordArray.seekToFirstBucket_eq h, List.length_map, List.length_range] at hrun
    unfold verifyTxNums
    rw [DBRecordArray.seekToFirstBucket_eq h, hrun]
    simp only [hexpected]
    rw [if_neg]
    omega
  · rintro pre key post _ hl rfl
    rw [DBRecordArray.seekToFirstBucket_eq h] at hl
    have hkey :
        ((List.range (d.expectedNBuckets l.length)).map DBRecordArray.makeKey)[pre.length]? =
        some key := by
      rw [hl]
      simp
    rw [List.getElem?_map, Option.map_eq_some_iff] at hkey
    obtain ⟨b, hb, rfl⟩ := hkey
    obtain ⟨hlt, rfl⟩ := List.getElem?_eq_some_iff.mp hb
    rw [List.length_range] at hlt
    rw [List.getElem_range]
    have hbucket := (DBRecordArray.lt_expectedNBuckets_iff h.sized).mp hlt
    rw [hsixteen] at hbucket
    have hdata : (cf.getD (DBRecordArray.makeKey pre.length) []).length =
        32 * min 16 (l.length - pre.length * 16) := by
      have hne : Chunks.chunk d.bucketNRecs l pre.length ≠ [] := by
        rw [Ne, Chunks.chunk_eq_nil_iff h.sized.bucketNRecs_pos, hsixteen]
        omega
      rw [Std.ExtTreeMap.getD_eq_getD_getElem?, h.get _ (by omega), if_neg hne, Option.getD_some,
        Chunks.length_flatten_of_length (h.chunk_records _), hrec, Chunks.length_chunk, hsixteen]
    have hnum : DBRecordArray.bucketNumFromDbKey (DBRecordArray.makeKey pre.length) =
        .ok pre.length := DBRecordArray.bucketNumFromDbKey_makeKey (by omega)
    have hbucketNRecs : txNumsDRA.bucketNRecs = 16 := rfl
    refine ⟨_, ?_, rfl⟩
    simp only [verifyBucket, hnum, hdata, hbucketNRecs]
    rw [if_neg (not_not.mpr rfl), if_neg (by omega), List.length_append, List.length_singleton]
    congr 2
    omega

/-- The rows that were written for the ids of a chain are their buckets. -/
theorem verifyTxNums_rows {txNums : List TxHash} (hlen : txNums.length < 2 ^ 64) :
    verifyTxNums (txNumRows txNums) txNums.length = .ok () := by
  have hsized : DBRecordArray.Sized txNumsDRA := ⟨by decide, rfl, by decide⟩
  have hstart : DBRecordArray.Holds txNumsDRA (KeyValue.apply ∅ txNumsDRA.writeMeta) [] := by
    refine ⟨(DBRecordArray.buckets_empty hsized rfl).putMeta _, ?_⟩
    rw [DBRecordArray.writeMeta, KeyValue.get_put, if_pos rfl]
  have hlist : DBRecordArray.commitList txNumsDRA.recSz [] none (txNums.map BTC.hashBytes) =
      txNums.map BTC.hashBytes := by
    rw [DBRecordArray.commitList, Option.elim_none, List.nil_append, List.filter_eq_self]
    intro r hr
    obtain ⟨hash, -, rfl⟩ := List.mem_map.mp hr
    simp [txNumsDRA]
  have hfits : (DBRecordArray.commitList txNumsDRA.recSz [] none
      (txNums.map BTC.hashBytes)).length < 2 ^ 64 := by
    rwa [hlist, List.length_map]
  obtain ⟨hholds, hsame⟩ := hstart.commit hfits
  rw [hlist] at hholds
  have hok := verifyTxNums_ok hholds.buckets (by rw [hsame]; rfl) (by rw [hsame])
  rwa [List.length_map] at hok

/-- The blocks of a run are found, and the counters are as they were. -/
theorem loadCheckTxNums_ok {ix : ChainIndex} (hw : WellFormed ix)
    (htip : ix.tipHeight = (ix.headers.length : Int) - 1) (checks : Nat) :
    loadCheckTxNumsDRAAndBlkInfo checks (txNumRows ix.txNums) (loadedTo ix 0) =
      .ok (withUtxoCt ix 0) := by
  have hrange : (ix.tipHeight + 1).toNat = ix.blkInfos.length := by
    have hlen := hw.headers_length
    omega
  have hloop := foldlM_ok (l := List.range ix.blkInfos.length) (b := loadedTo ix 0)
    (f := loadBlkInfo) (P := fun pre ix' => ix' = loadedTo ix pre.length) rfl ?_
  · obtain ⟨ix', hrun, hix'⟩ := hloop
    rw [List.length_range, loadedTo_all hw] at hix'
    rw [hix'] at hrun
    have htip' : (loadedTo ix 0).tipHeight = ix.tipHeight := rfl
    have hct : ¬ (withUtxoCt ix 0).txNumNext ≠ (withUtxoCt ix 0).txNums.length :=
      not_not.mpr hw.txNums_length.symm
    have hbuckets : verifyTxNums (txNumRows ix.txNums) (withUtxoCt ix 0).txNumNext = .ok () := by
      have hnext : (withUtxoCt ix 0).txNumNext = ix.txNums.length := hw.txNums_length.symm
      have hle := hw.txNum_le
      have hlen := hw.txNums_length
      simp only [txNumMax] at hle
      rw [hnext]
      exact verifyTxNums_rows (by omega)
    unfold loadCheckTxNumsDRAAndBlkInfo
    rw [htip', hrange, hrun]
    simp only
    rw [if_neg hct, hbuckets]
    split_ifs <;> rfl
  · intro pre i post ix' hl hix'
    have hi : pre.length = i ∧ i < ix.blkInfos.length := by
      have hget : (List.range ix.blkInfos.length)[pre.length]? = some i := by
        rw [hl]
        simp
      obtain ⟨hlt, heq⟩ := List.getElem?_eq_some_iff.mp hget
      rw [List.length_range] at hlt
      rw [List.getElem_range] at heq
      omega
    obtain ⟨rfl, hlt⟩ := hi
    have hbi : ix.blkInfos[pre.length]? = some ix.blkInfos[pre.length] :=
      List.getElem?_eq_getElem hlt
    rw [hix']
    refine ⟨_, loadBlkInfo_ok ((hw.blkinfo _).trans hbi) ?_, ?_⟩
    · exact (hw.blkInfos _ _ hbi).2
    · rw [List.length_append, List.length_singleton]
      exact loadedTo_succ hbi

end Numbers

/-! ## The index of transaction ids -/

section TxIds

variable {ix : ChainIndex}

theorem readTxNums_ok {m : Std.ExtTreeMap (BitVec 48) (List Nat) compare} {key : BitVec 48}
    (hnums : ∀ n ∈ m[key]?.getD [], n < 2 ^ 64) (hlen : (rowBytes m key).length < 2 ^ 31) :
    readTxNums m key = .ok (m[key]?.getD []) := by
  unfold readTxNums
  rw [rowBytes] at hlen ⊢
  rw [(VarInt.deserializeAll_encode_iff hnums).mpr hlen]
  simp [Except.map, Function.comp_def]

theorem procBatch_ok {txNums : List TxHash} {batch : List (BitVec 48 × Nat)}
    (h : ∀ e ∈ batch, txNums[e.2]?.map makeKeyFromHash = some e.1) :
    procBatch txNums batch = .ok () := by
  have hsorted : ∀ e ∈ batch.mergeSort (fun a b => a.2 ≤ b.2),
      txNums[e.2]?.map makeKeyFromHash = some e.1 := fun e he => h e (List.mem_mergeSort.mp he)
  have hfound : (batch.mergeSort (fun a b => a.2 ≤ b.2)).find?
      (fun e => txNums.length ≤ e.2) = none := by
    rw [List.find?_eq_none]
    intro e he
    obtain ⟨hash, hhash, -⟩ := Option.map_eq_some_iff.mp (hsorted e he)
    have hlt := (List.getElem?_eq_some_iff.mp hhash).1
    simp only [decide_eq_true_eq]
    omega
  unfold procBatch
  simp only [hfound]
  rw [forM_eq_ok]
  intro e he
  rw [if_neg (not_not.mpr (hsorted e he))]

theorem consistencyCheck_ok {txNums : List TxHash}
    {m : Std.ExtTreeMap (BitVec 48) (List Nat) compare} {keys : List (BitVec 48)}
    {batch : List (BitVec 48 × Nat)}
    (hkeys : ∀ key ∈ keys, m[key]?.getD [] ≠ [] ∧ readTxNums m key = .ok (m[key]?.getD []) ∧
      ∀ n ∈ m[key]?.getD [], txNums[n]?.map makeKeyFromHash = some key)
    (hbatch : ∀ e ∈ batch, txNums[e.2]?.map makeKeyFromHash = some e.1) :
    consistencyCheck txNums m keys batch = .ok () := by
  induction keys generalizing batch with
  | nil => exact procBatch_ok hbatch
  | cons key keys ih =>
      obtain ⟨⟨hne, hread, hnums⟩, hrest⟩ := List.forall_mem_cons.mp hkeys
      have hrow : ¬ (rowBytes m key).isEmpty = true := by
        obtain ⟨n, hn⟩ := List.exists_mem_of_ne_nil _ hne
        rw [List.isEmpty_iff, rowBytes, List.flatMap_eq_nil_iff]
        exact fun hnil => VarInt.encode_ne_nil false n (hnil n hn)
      have hall : ∀ e ∈ batch ++ (m[key]?.getD []).map fun n => (key, n),
          txNums[e.2]?.map makeKeyFromHash = some e.1 := by
        intro e he
        rcases List.mem_append.mp he with hold | hnew
        · exact hbatch e hold
        · obtain ⟨n, hn, rfl⟩ := List.mem_map.mp hnew
          exact hnums n hn
      unfold consistencyCheck
      rw [if_neg hrow]
      simp only [hread]
      split_ifs
      · rw [procBatch_ok hall]
        exact ih hrest (by simp)
      · exact ih hrest hall

/-- A complete index with rows that can be read passes all checks. -/
theorem checkTxHash2TxNum_ok (hidx : TxIndexed ix) (hnodup : ix.txNums.Nodup)
    (hlt : ix.txNums.length < 2 ^ 64)
    (hrow : ∀ key, (rowBytes ix.txhash2txnum key).length < 2 ^ 31) (checks : Nat) :
    checkTxHash2TxNum checks
      (if ix.txNums = [] then none else some ((ix.txNums.length : Int) - 1)) ix = .ok () := by
  have hnums : ∀ key, ∀ n ∈ ix.txhash2txnum[key]?.getD [],
      ix.txNums[n]?.map makeKeyFromHash = some key := by
    intro key n hn
    rw [hidx key, rowOf] at hn
    split_ifs at hn with hempty
    · cases hn
    · obtain ⟨hash, hhash, hkey⟩ := mem_positions.mp hn
      rw [hhash, ← hkey]
      rfl
  have hread : ∀ key, readTxNums ix.txhash2txnum key = .ok (ix.txhash2txnum[key]?.getD []) := by
    refine fun key => readTxNums_ok (fun n hn => ?_) (hrow key)
    obtain ⟨hash, hhash, -⟩ := Option.map_eq_some_iff.mp (hnums key n hn)
    have := (List.getElem?_eq_some_iff.mp hhash).1
    omega
  have hkeys : consistencyCheck ix.txNums ix.txhash2txnum ix.txhash2txnum.keys [] = .ok () := by
    refine consistencyCheck_ok (fun key hkey => ⟨?_, hread key, hnums key⟩) (by simp)
    obtain ⟨nums, hget⟩ := mem_iff_getElem?.mp (Std.ExtTreeMap.mem_keys.mp hkey)
    rw [hget, Option.getD_some]
    rw [hidx key, rowOf] at hget
    split_ifs at hget with hempty
    rw [← Option.some.inj hget]
    simpa using hempty
  have hreadAll : readAllTxNums ix = .ok () := by
    rw [readAllTxNums, forM_eq_ok]
    intro hash _
    rw [hread]
  have hresults : ∀ e ∈ (ix.txNums.zip (ix.findMany ix.txNums)).zipIdx,
      consistencyCheckResult e = .ok () := by
    intro e he
    have hget := List.mem_zipIdx_iff_getElem?.mp he
    rw [hidx.findMany_eq] at hget
    obtain ⟨hhash, hres⟩ := List.getElem?_zip_eq_some.mp hget
    rw [List.getElem?_map, hhash, Option.map_some, Option.some.injEq] at hres
    obtain ⟨hlt, heq⟩ := List.getElem?_eq_some_iff.mp hhash
    have hfirst : ix.numberOf e.1.1 = some e.2 := by
      rw [ChainIndex.numberOf, List.findIdx?_eq_some_iff_getElem]
      refine ⟨hlt, by simpa using heq, fun j hj => ?_⟩
      have hne : ix.txNums[j] ≠ ix.txNums[e.2] := by
        intro hsame
        have := (hnodup.getElem_inj_iff).mp hsame
        omega
      rw [heq] at hne
      simpa using hne
    unfold consistencyCheckResult
    rw [← hres, hfirst]
    simp
  have hsample : ∀ hash ∈ [0, ix.txNums.length / 2, ix.txNums.length - 1].filterMap
      (ix.txNums[·]?), ∃ n, ix.find hash = .ok (some n) := by
    intro hash hhash
    obtain ⟨n, -, hn⟩ := List.mem_filterMap.mp hhash
    have hmem := List.mem_of_getElem? hn
    rw [hidx.find_eq]
    cases hfind : ix.txNums.findIdx? fun h => decide (h = hash) with
    | none =>
        rw [List.findIdx?_eq_none_iff] at hfind
        exact absurd rfl (of_decide_eq_false (hfind hash hmem))
    | some n => exact ⟨n, rfl⟩
  have hempty : ix.txNums.length = 0 → ix.txhash2txnum.isEmpty = true := by
    intro hlen
    rw [Std.ExtTreeMap.isEmpty_iff]
    apply Std.ExtTreeMap.ext_getElem?
    intro key
    rw [hidx key, List.length_eq_zero_iff.mp hlen]
    rfl
  have hsanity : sanityCheckTxHash2TxNum
      (if ix.txNums = [] then none else some ((ix.txNums.length : Int) - 1)) ix = .ok () := by
    unfold sanityCheckTxHash2TxNum
    by_cases hlen : ix.txNums.length = 0
    · have hnil := List.length_eq_zero_iff.mp hlen
      simp [hnil, hempty hlen, maxTxNumSeenInDB]
      rfl
    · have hne : ix.txNums ≠ [] := fun hnil => hlen (List.length_eq_zero_iff.mpr hnil)
      have hmax : maxTxNumSeenInDB (some ((ix.txNums.length : Int) - 1)) + 1 =
          ix.txNums.length := by
        simp only [maxTxNumSeenInDB, Option.getD_some]
        omega
      simp only [if_neg hne, if_pos hlen]
      rw [bind_eq_ok]
      refine ⟨(), ?_, ?_⟩
      · rw [forM_eq_ok]
        intro hash hhash
        obtain ⟨n, hn⟩ := hsample hash hhash
        rw [hread]
        simp only [hn]
      · rw [if_neg (not_not.mpr hmax)]
        rfl
  unfold checkTxHash2TxNum
  rw [hsanity, hkeys]
  by_cases hone : checks ≥ 1
  · by_cases hthree : checks ≥ 3
    · simp only [if_pos hone, if_pos hthree, hreadAll, forM_eq_ok.mpr hresults]
      rfl
    · simp only [if_pos hone, if_neg hthree]
      rfl
  · rw [if_neg hone, if_neg (by omega)]
    rfl

theorem loadCheckTxHash2TxNumMgr_ok (hidx : TxIndexed ix) (hnodup : ix.txNums.Nodup)
    (hlt : ix.txNums.length < 2 ^ 64)
    (hrow : ∀ key, (rowBytes ix.txhash2txnum key).length < 2 ^ 31) (checks : Nat) :
    loadCheckTxHash2TxNumMgr checks
      (if ix.txNums = [] then none else some ((ix.txNums.length : Int) - 1)) ix = .ok ix := by
  unfold loadCheckTxHash2TxNumMgr
  rw [checkTxHash2TxNum_ok hidx hnodup hlt hrow]

end TxIds

/-! ## The unspent outputs -/

section Utxos

variable {st : List (CBlock × UndoInfo)} {ix : ChainIndex}

/-- The height of an unspent output is that of its block. -/
theorem Chain.confirmedHeight (h : Chain H opts st ix) {txo : TXO} {info : TXOInfo}
    (hget : ix.utxos.utxoset[txo]? = some info) :
    ∃ height, info.confirmedHeight = some height ∧ height < st.length ∧
      heightForTxNum { index := ix } info.txNum = some height ∧
      ∃ e ∈ chainTxs (st.map Prod.fst), ∃ out ∈ e.2.vout, out.nValue = info.amount := by
  obtain ⟨hnum, -, hex⟩ := h.utxosExact
  obtain ⟨⟨txNum, height, tx, out, hx, htx, -, hout, -, rfl⟩, -⟩ := (hex.utxo txo info).mp hget
  have hlt := chainTxs_height_lt (List.mem_of_getElem? htx)
  rw [List.length_map] at hlt
  have hanswers : Answers (st.map Prod.fst) { index := ix } := ⟨hnum, h.historyExact.2⟩
  exact ⟨height, rfl, hlt, hanswers.height htx, _, List.mem_of_getElem? htx, out,
    List.mem_of_getElem? hout, rfl⟩

/-- Every row of `utxoset` passes. -/
theorem checkUtxo_ok (h : Chain H opts st ix)
    (htip : ix.tipHeight = (ix.headers.length : Int) - 1) {txo : TXO} {info : TXOInfo}
    (hget : ix.utxos.utxoset[txo]? = some info) : checkUtxo ix txo info = .ok () := by
  obtain ⟨height, hheight, hlt, -⟩ := h.confirmedHeight hget
  have hnum := h.numbered
  obtain ⟨-, -, hshunspent⟩ := hnum.wellFormed.utxo txo info hget
  have htxNum := hnum.wellFormed.utxo_txNum_lt hget
  have hlen := hnum.length
  rw [List.length_map] at hlen
  unfold checkUtxo
  rw [if_neg (by rw [hheight, Option.all_some, decide_eq_true_iff]; omega), if_neg (by omega)]
  have hrow : ix.utxos.shunspent[(⟨info.hashX, CompactTXO.make info.txNum txo.outN⟩ :
      ShunspentKey)]? = some ⟨info.amount, info.tokenDataPtr⟩ := hshunspent
  simp only [hrow]
  rw [if_neg (not_not.mpr rfl), if_neg (not_not.mpr rfl)]

/-- The loop over `utxoset` counts as many outputs as `addBlock` did. -/
theorem loadCheckUTXOsInDB_ok (h : Chain H opts st ix)
    (htip : ix.tipHeight = (ix.headers.length : Int) - 1) (checks : Nat) :
    loadCheckUTXOsInDB checks ix.utxos.utxoCt (withUtxoCt ix 0) = .ok ix := by
  have hcount := h.utxosExact.2.2.count
  unfold loadCheckUTXOsInDB
  by_cases hone : checks ≥ 1
  · have hrows : ((withUtxoCt ix 0).utxos.utxoset.toList.forM fun e =>
        checkUtxo (withUtxoCt ix 0) e.1 e.2) = .ok () := by
      rw [forM_eq_ok]
      intro e he
      exact checkUtxo_ok h htip (Std.ExtTreeMap.mem_toList_iff_getElem?_eq_some.mp he)
    have hsize : ((withUtxoCt ix 0).utxos.utxoset.size : Int) = ix.utxos.utxoCt := hcount.symm
    rw [if_pos hone, hrows]
    simp only [hsize, Int.sub_self, Int.natAbs_zero]
    rw [if_neg (Nat.not_lt_zero _)]
    rfl
  · rw [if_neg hone]
    rfl

/-- The rows of the two tables correspond to each other. -/
theorem Chain.size_shunspent (h : Chain H opts st ix) :
    ix.utxos.shunspent.size = ix.utxos.utxoset.size := by
  obtain ⟨hnum, -, hex⟩ := h.utxosExact
  have hkeys : (ix.utxos.utxoset.toList.map fun e => shunspentKey e.1 e.2).Perm
      ix.utxos.shunspent.keys := by
    refine (List.perm_ext_iff_of_nodup ?_ Std.ExtTreeMap.nodup_keys).mpr fun key => ?_
    · refine List.Nodup.map_on ?_ ?_
      · rintro ⟨txo, info⟩ he ⟨txo', info'⟩ he' hkey
        rw [Std.ExtTreeMap.mem_toList_iff_getElem?_eq_some] at he he'
        obtain ⟨hhash, hN, -⟩ := hnum.wellFormed.utxo txo info he
        obtain ⟨hhash', hN', -⟩ := hnum.wellFormed.utxo txo' info' he'
        have hle := hnum.wellFormed.txNum_le
        rw [← hnum.wellFormed.txNums_length] at hle
        obtain rfl := txo_eq_of_key hhash hhash' hle hN hN' hkey
        rw [he] at he'
        rw [Option.some.inj he']
      · exact (distinct_toList _).imp fun hne heq => hne (by rw [heq])
    · rw [List.mem_map, Std.ExtTreeMap.mem_keys, mem_iff_getElem?]
      constructor
      · rintro ⟨e, he, rfl⟩
        rw [Std.ExtTreeMap.mem_toList_iff_getElem?_eq_some] at he
        exact ⟨_, (hnum.wellFormed.utxo e.1 e.2 he).2.2⟩
      · rintro ⟨v, hv⟩
        obtain ⟨txo, info, hget, rfl, -⟩ := (hex.unspent key v).mp hv
        exact ⟨(txo, info), Std.ExtTreeMap.mem_toList_iff_getElem?_eq_some.mpr hget,
          shunspentKey_eq hnum.wellFormed hget⟩
  have hlen := hkeys.length_eq
  rwa [List.length_map, Std.ExtTreeMap.length_toList, Std.ExtTreeMap.length_keys, eq_comm] at hlen

/-- Every row of `scripthash_unspent` passes. -/
theorem checkShunspent_ok (h : Chain H opts st ix) (hfits : ix.txNumNext ≤ txNumMax)
    (hmoney : InMoneyRange (st.map Prod.fst)) {key : ShunspentKey} {v : SHUnspentValue}
    (hget : ix.utxos.shunspent[key]? = some v) : checkShunspent ix key v = .ok none := by
  obtain ⟨hnum, -, hex⟩ := h.utxosExact
  obtain ⟨txo, info, hutxo, rfl, rfl⟩ := (hex.unspent key v).mp hget
  obtain ⟨height, hheight, -, hnumHeight, e, he, out, hout, hamount⟩ := h.confirmedHeight hutxo
  have hlt := hnum.wellFormed.utxo_txNum_lt hutxo
  have hhash : hashForTxNum { index := ix } info.txNum = some txo.txHash :=
    hex.txHash txo info hutxo
  have hvalid : (⟨info.txNum, txo.outN⟩ : CompactTXO).isValid = true := by
    rw [CompactTXO.isValid, bne_iff_ne, ne_eq, CompactTXO.mk.injEq, not_and_or]
    left
    simp only [txNumMax] at hfits
    omega
  have hle : ¬ info.amount > maxMoney := by
    rw [← hamount]
    exact not_lt.mpr (hmoney e he out hout)
  have hsame : (⟨info.amount, info.hashX, some height, info.txNum, info.tokenDataPtr⟩ : TXOInfo) =
      info := by
    rw [← hheight]
  unfold checkShunspent
  rw [if_neg (not_not.mpr hvalid), if_neg hle]
  simp only [hhash, hnumHeight, hsame]
  rw [if_pos hutxo]

theorem loadCheckShunspentInDB_ok (h : Chain H opts st ix) (hfits : ix.txNumNext ≤ txNumMax)
    (hmoney : InMoneyRange (st.map Prod.fst)) (checks : Nat) :
    loadCheckShunspentInDB checks ix.utxos.utxoCt ix = .ok () := by
  unfold loadCheckShunspentInDB
  by_cases htwo : checks ≥ 2
  · have hrows : (ix.utxos.shunspent.toList.mapM fun e => checkShunspent ix e.1 e.2) =
        .ok (ix.utxos.shunspent.toList.map fun _ => none) := by
      refine mapM_ok fun e he => ?_
      exact checkShunspent_ok h hfits hmoney
        (Std.ExtTreeMap.mem_toList_iff_getElem?_eq_some.mp he)
    have hsize : (ix.utxos.shunspent.size : Int) = ix.utxos.utxoCt := by
      rw [h.size_shunspent, h.utxosExact.2.2.count]
    rw [if_pos htwo, hrows]
    simp only [hsize, Int.sub_self, Int.natAbs_zero]
    rfl
  · rw [if_neg htwo]
    rfl

end Utxos

/-! ## The undo records -/

section Undo

variable {undo : Std.ExtTreeMap Nat UndoInfo compare} {cf : UndoTable}

/-- The rows of the table are the records. -/
theorem get_undoTable (hfit : ∀ k ∈ undo, k < 2 ^ 32)
    (hread : ∀ (k : Nat) u, undo[k]? = some u → (UndoCodec.serialize u).length < 2 ^ 31)
    {key : List UInt8} {v : Option UndoInfo} :
    (undoTable undo)[key]? = some v ↔
      ∃ k u, undo[k]? = some u ∧ heightKey k = key ∧ v = some u := by
  have hbound : ∀ {k : Nat} {u : UndoInfo}, undo[k]? = some u → k < 2 ^ 32 :=
    fun hget => hfit _ (mem_iff_getElem?.mpr ⟨_, hget⟩)
  have hvalue : ∀ {k : Nat} {u : UndoInfo}, undo[k]? = some u →
      (readUndo k u).toOption = some u := by
    intro k u hget
    rw [readUndo_eq_ok.mpr ⟨hread k u hget, rfl⟩]
    rfl
  rcases get_foldl_insert (l := undo.toList) (fun e => heightKey e.1)
    (fun e => (readUndo e.1 e.2).toOption) (∅ : UndoTable) key with
      ⟨⟨k, u⟩, he, hkey, hget⟩ | ⟨hnone, hget⟩
  · have hu := Std.ExtTreeMap.mem_toList_iff_getElem?_eq_some.mp he
    rw [undoTable, hget, hvalue hu, Option.some.injEq, eq_comm]
    constructor
    · rintro rfl
      exact ⟨k, u, hu, hkey, rfl⟩
    · rintro ⟨k', u', hu', hkey', rfl⟩
      obtain rfl := heightKey_injective (hbound hu) (hbound hu') (hkey.trans hkey'.symm)
      rw [hu] at hu'
      rw [Option.some.inj hu']
  · rw [undoTable, hget]
    constructor
    · intro hnil
      simp at hnil
    · rintro ⟨k, u, hu, hkey, rfl⟩
      exact absurd hkey
        (hnone (k, u) (Std.ExtTreeMap.mem_toList_iff_getElem?_eq_some.mpr hu))

theorem heights_undoTable (hfit : ∀ k ∈ undo, k < 2 ^ 32)
    (hread : ∀ (k : Nat) u, undo[k]? = some u → (UndoCodec.serialize u).length < 2 ^ 31) :
    (undoTable undo).heights = {k | k ∈ undo} := by
  ext k
  constructor
  · rintro ⟨hlt, hmem⟩
    obtain ⟨v, hv⟩ := mem_iff_getElem?.mp hmem
    obtain ⟨k', u, hu, hkey, -⟩ := (get_undoTable hfit hread).mp hv
    have hk' := mem_iff_getElem?.mpr ⟨u, hu⟩
    obtain rfl := heightKey_injective (hfit k' hk') hlt hkey
    exact hk'
  · intro hk
    obtain ⟨u, hu⟩ := mem_iff_getElem?.mp (show k ∈ undo from hk)
    exact ⟨hfit k hk, mem_iff_getElem?.mpr
      ⟨some u, (get_undoTable hfit hread).mpr ⟨k, u, hu, rfl, rfl⟩⟩⟩

theorem size_undoTable (hfit : ∀ k ∈ undo, k < 2 ^ 32) : (undoTable undo).size = undo.size := by
  have hnodup : (undo.toList.map fun e => heightKey e.1).Nodup := by
    refine List.Nodup.map_on ?_ ((distinct_toList undo).imp fun hne heq => hne (by rw [heq]))
    rintro ⟨k, u⟩ he ⟨k', u'⟩ he' hkey
    rw [Std.ExtTreeMap.mem_toList_iff_getElem?_eq_some] at he he'
    obtain rfl := heightKey_injective (hfit k (mem_iff_getElem?.mpr ⟨u, he⟩))
      (hfit k' (mem_iff_getElem?.mpr ⟨u', he'⟩)) hkey
    rw [he] at he'
    rw [Option.some.inj he']
  rw [undoTable, size_foldl_insert hnodup (by simp)]
  simp [Std.ExtTreeMap.length_toList]

/-- The rows of a table with keys of four bytes, by height. -/
theorem get_records (hkeys : ∀ key ∈ cf, key.length = 4) {k : Nat} {u : UndoInfo} :
    cf.records[k]? = some u ↔ k < 2 ^ 32 ∧ cf[heightKey k]? = some (some u) := by
  have hmem : ∀ e : Nat × UndoInfo, e ∈ (cf.toList.filterMap fun e =>
      e.2.map fun undo => (BTC.ofBE e.1, undo)) ↔
        e.1 < 2 ^ 32 ∧ cf[heightKey e.1]? = some (some e.2) := by
    rintro ⟨k, u⟩
    rw [List.mem_filterMap]
    constructor
    · rintro ⟨⟨key, v⟩, he, hv⟩
      rw [Std.ExtTreeMap.mem_toList_iff_getElem?_eq_some] at he
      obtain ⟨u', rfl, heq⟩ := Option.map_eq_some_iff.mp hv
      obtain ⟨rfl, rfl⟩ := Prod.mk.inj heq
      have hlen := hkeys key (mem_iff_getElem?.mpr ⟨_, he⟩)
      refine ⟨ofBE_lt hlen, ?_⟩
      rw [heightKey_ofBE hlen]
      exact he
    · rintro ⟨hlt, hget⟩
      refine ⟨(heightKey k, some u), Std.ExtTreeMap.mem_toList_iff_getElem?_eq_some.mpr hget, ?_⟩
      rw [Option.map_some, ofBE_heightKey hlt]
  rw [UndoTable.records]
  rcases get_foldl_insert (l := cf.toList.filterMap fun e =>
      e.2.map fun undo => (BTC.ofBE e.1, undo)) Prod.fst Prod.snd
    (∅ : Std.ExtTreeMap Nat UndoInfo compare) k with ⟨e, he, rfl, hget⟩ | ⟨hnone, hget⟩
  · obtain ⟨hlt, hrow⟩ := (hmem e).mp he
    rw [hget, hrow, Option.some.injEq, Option.some.injEq, Option.some.injEq]
    exact ⟨fun h => ⟨hlt, h⟩, fun h => h.2⟩
  · rw [hget]
    constructor
    · intro hnil
      simp at hnil
    · rintro ⟨hlt, hrow⟩
      exact absurd rfl (hnone (k, u) ((hmem (k, u)).mpr ⟨hlt, hrow⟩))

/-- The check keeps the newest records without a hole. -/
theorem loadCheckEarliestUndo_undoTable (opts : Options) (hfit : ∀ k ∈ undo, k < 2 ^ 32)
    (hread : ∀ (k : Nat) u, undo[k]? = some u → (UndoCodec.serialize u).length < 2 ^ 31)
    (hsize : undo.size < 2 ^ 32) :
    ∃ cf earliest, loadCheckEarliestUndo opts (undoTable undo) = .ok (cf, earliest) ∧
      ∀ k u, cf.records[k]? = some u ↔
        k ∈ newest opts.maxReorg (topRun {k | k ∈ undo}) ∧ undo[k]? = some u := by
  have hsize' : (undoTable undo).size < 2 ^ 32 := by rwa [size_undoTable hfit]
  have hkeys : ∀ key ∈ undoTable undo, key.length = 4 := by
    intro key hkey
    obtain ⟨v, hv⟩ := mem_iff_getElem?.mp hkey
    obtain ⟨k, u, -, rfl, -⟩ := (get_undoTable hfit hread).mp hv
    simp [heightKey]
  have hreadable : (undoTable undo).Readable := by
    refine ⟨hkeys, fun m hm => ?_⟩
    have hmem := hm.1
    rw [heights_undoTable hfit hread] at hmem
    obtain ⟨u, hu⟩ := mem_iff_getElem?.mp (show m ∈ undo from hmem)
    exact ⟨u, (get_undoTable hfit hread).mpr ⟨m, u, hu, rfl, rfl⟩⟩
  obtain ⟨hok, hchecked⟩ := loadCheckEarliestUndo_ok opts hsize'
  obtain ⟨⟨cf, earliest⟩, hload⟩ := hok.mp hreadable
  have hleft := hchecked cf earliest hload
  have hheights := hleft.heights
  rw [heights_undoTable hfit hread] at hheights
  have hkeys' : ∀ key ∈ cf, key.length = 4 := by
    intro key hkey
    obtain ⟨v, hv⟩ := mem_iff_getElem?.mp hkey
    exact hkeys key (mem_iff_getElem?.mpr ⟨v, hleft.values key v hv⟩)
  have hrow : ∀ k < 2 ^ 32, ∀ v, cf[heightKey k]? = some v →
      ∃ u, v = some u ∧ undo[k]? = some u := by
    intro k hk v hv
    obtain ⟨k', u, hu, hkey, rfl⟩ := (get_undoTable hfit hread).mp (hleft.values _ v hv)
    obtain rfl := heightKey_injective (hfit k' (mem_iff_getElem?.mpr ⟨u, hu⟩)) hk hkey
    exact ⟨u, rfl, hu⟩
  refine ⟨cf, earliest, hload, fun k u => ?_⟩
  rw [get_records hkeys', ← hheights]
  constructor
  · rintro ⟨hk, hget⟩
    obtain ⟨u', hu', hundo⟩ := hrow k hk _ hget
    rw [Option.some.inj hu']
    exact ⟨⟨hk, mem_iff_getElem?.mpr ⟨_, hget⟩⟩, hundo⟩
  · rintro ⟨⟨hk, hmem⟩, hundo⟩
    obtain ⟨v, hv⟩ := mem_iff_getElem?.mp hmem
    obtain ⟨u', rfl, hundo'⟩ := hrow k hk v hv
    rw [hundo] at hundo'
    rw [Option.some.inj hundo']
    exact ⟨hk, hv⟩

end Undo

/-! ## The startup -/

section Startup

variable {r : ChainRun}

/-- What the startup asks of the size of the chain and of its values. -/
structure WithinLimits (r : ChainRun) : Prop where
  headers : r.blocks.length ≤ maxHeaders
  txNums : r.state.index.txNumNext ≤ txNumMax
  /-- The sizes of the rows of `txhash2txnum` and of the undo records fit into an `int`. -/
  rows : ∀ key, (rowBytes r.state.index.txhash2txnum key).length < 2 ^ 31
  undo : ∀ (k : Nat) u, r.state.undo[k]? = some u → (UndoCodec.serialize u).length < 2 ^ 31
  money : InMoneyRange r.blocks

theorem Verified.undo_lt (h : Verified H opts r) {k : Nat} (hk : k ∈ r.state.undo) :
    k < r.blocks.length := by
  obtain ⟨st, -, hblocks, hrecords⟩ := h.chain
  obtain ⟨u, hu⟩ := mem_iff_getElem?.mp hk
  obtain ⟨e, he, -⟩ := Option.map_eq_some_iff.mp (hrecords k u hu)
  rw [← hblocks, List.length_map]
  exact (List.getElem?_eq_some_iff.mp he).1

theorem Verified.size_undo_le (h : Verified H opts r) :
    r.state.undo.size ≤ r.blocks.length := by
  have hsub : r.state.undo.keys.toFinset ⊆ Finset.range r.blocks.length := by
    intro k hk
    rw [List.mem_toFinset, Std.ExtTreeMap.mem_keys] at hk
    exact Finset.mem_range.mpr (h.undo_lt hk)
  have hcard := Finset.card_le_card hsub
  rwa [List.toFinset_card_of_nodup Std.ExtTreeMap.nodup_keys, Std.ExtTreeMap.length_keys,
    Finset.card_range] at hcard

/-- What the startup makes of the tables of a run. -/
structure Restored (opts : Options) (r : ChainRun) (s : State) : Prop where
  index : s.index = r.state.index
  undo : ∀ k u, s.undo[k]? = some u ↔
    k ∈ newest opts.maxReorg (topRun {k | k ∈ r.state.undo}) ∧ r.state.undo[k]? = some u
  mempool : s.mempool = {}

theorem Verified.startup_ok (h : Verified H opts r) (hlimits : WithinLimits r) (opts' : Options)
    (checks : Nat) :
    ∃ s, startup H opts' checks r.state.database = .ok s ∧ Restored opts' r s := by
  obtain ⟨st, hchain, hblocks, -⟩ := id h.chain
  have hw := hchain.numbered.wellFormed
  have htip : r.state.index.tipHeight = (r.state.index.headers.length : Int) - 1 := by
    refine tipHeight_eq hw fun hne => ?_
    have hpos := List.length_pos_of_ne_nil hne
    rw [h.length_eq] at hpos
    rw [h.chain.verifier]
    obtain ⟨init, tip, heq⟩ := (List.eq_nil_or_concat r.blocks).resolve_left
      (List.ne_nil_of_length_pos hpos)
    simp only [heq, List.concat_eq_append, List.getLast?_concat, Option.map_some,
      Option.getD_some]
    exact BTC.serialize_ne_nil _
  have hmax : maxHeaders < 2 ^ 32 := by decide
  have hbound := hlimits.headers
  have hfit : ∀ k ∈ r.state.undo, k < 2 ^ 32 := by
    intro k hk
    have hlt := h.undo_lt hk
    omega
  have hsize := h.size_undo_le
  obtain ⟨cf, earliest, hload, hrecords⟩ := loadCheckEarliestUndo_undoTable opts' hfit
    hlimits.undo (by omega)
  have hheaders := loadCheckHeadersInDB_ok h hlimits.headers
  have hnums : loadCheckTxNumsDRAAndBlkInfo checks r.state.database.txNumRows
      { r.state.database.index with headerVerifier := r.state.index.headerVerifier } =
        .ok (withUtxoCt r.state.index 0) := loadCheckTxNums_ok hw htip checks
  have hidx : TxIndexed (withUtxoCt r.state.index 0) := hchain.txIndexed
  have hlen : r.state.index.txNums.length < 2 ^ 64 := by
    have hnext := hlimits.txNums
    rw [hw.txNums_length]
    simp only [txNumMax] at hnext
    omega
  have hids : loadCheckTxHash2TxNumMgr checks r.state.database.largestTxNumSeen
      (withUtxoCt r.state.index 0) = .ok (withUtxoCt r.state.index 0) :=
    loadCheckTxHash2TxNumMgr_ok hidx hchain.nodup_txNums hlen hlimits.rows checks
  have hutxos : loadCheckUTXOsInDB checks r.state.database.utxoCt
      (withUtxoCt r.state.index 0) = .ok r.state.index :=
    loadCheckUTXOsInDB_ok hchain htip checks
  have hmoney := hlimits.money
  rw [← hblocks] at hmoney
  have hunspent : loadCheckShunspentInDB checks r.state.database.utxoCt r.state.index = .ok () :=
    loadCheckShunspentInDB_ok hchain hlimits.txNums hmoney checks
  have hundo : loadCheckEarliestUndo opts' r.state.database.undo = .ok (cf, earliest) := hload
  exact ⟨_, bind_eq_ok.mpr ⟨(), rfl, bind_eq_ok.mpr ⟨_, hheaders, bind_eq_ok.mpr ⟨_, hnums,
    bind_eq_ok.mpr ⟨_, hids, bind_eq_ok.mpr ⟨_, hutxos, bind_eq_ok.mpr ⟨_, hunspent,
      bind_eq_ok.mpr ⟨_, hundo, rfl⟩⟩⟩⟩⟩⟩⟩, rfl, hrecords, rfl⟩

/--
After any run of valid blocks the startup passes, whatever is checked, and the
index is the one of the run.  Of the undo records it keeps those without a hole
below the tip that are within the configured depth.
-/
theorem startup_database (h : Reachable ChainRun.Start (ChainStep H opts ValidBlock) r)
    (hlimits : WithinLimits r) (opts' : Options) (checks : Nat) :
    ∃ s, startup H opts' checks r.state.database = .ok s ∧ s.index = r.state.index ∧
      (∀ k u, s.undo[k]? = some u ↔
        k ∈ newest opts'.maxReorg (topRun {k | k ∈ r.state.undo}) ∧
          r.state.undo[k]? = some u) ∧ s.mempool = {} := by
  obtain ⟨s, hs, hrestored⟩ := (verified_of_reachable h).startup_ok hlimits opts' checks
  exact ⟨s, hs, hrestored.index, hrestored.undo, hrestored.mempool⟩

end Startup

section SmallChain

open Mempool

/-- A chain with few ids has short rows. -/
theorem Verified.rows_lt {r : ChainRun} (h : Verified H opts r)
    (hfew : 9 * r.state.index.txNums.length < 2 ^ 31) (key : BitVec 48) :
    (rowBytes r.state.index.txhash2txnum key).length < 2 ^ 31 := by
  obtain ⟨st, hchain, -, -⟩ := h.chain
  have hrow : r.state.index.txhash2txnum[key]?.getD [] =
      positions makeKeyFromHash key r.state.index.txNums := by
    rw [hchain.txIndexed key, rowOf]
    split_ifs with hempty
    · exact (List.isEmpty_iff.mp hempty).symm
    · rfl
  have hlen : (rowBytes r.state.index.txhash2txnum key).length ≤
      9 * (r.state.index.txhash2txnum[key]?.getD []).length :=
    VarInt.length_flatMap_encode_le (hchain.numbered.wellFormed.row_lt key)
  have hle := length_positions_le makeKeyFromHash key r.state.index.txNums
  rw [hrow] at hlen
  omega

/-- Two blocks, each with an undo record. -/
theorem withinLimits_second : ∃ s : State,
    Reachable ChainRun.Start (ChainStep opTrueHashers {} ValidBlock)
        { state := s, blocks := [firstBlock, secondBlock 0] } ∧
      WithinLimits { state := s, blocks := [firstBlock, secondBlock 0] } := by
  have hfill : fill opTrueHashers 1 none 0 100 (secondBlock 0) =
      .ok (prepared 1 (secondBlock 0)) := rfl
  obtain ⟨s, notify, hadd, hundo⟩ : ∃ s notify,
      addBlock opTrueHashers {} firstState (prepared 1 (secondBlock 0)) true false false =
          .ok s notify ∧
        ∀ e ∈ s.undo.toList, (UndoCodec.serialize e.2).length < 2 ^ 31 :=
    ⟨_, _, rfl, by decide +kernel⟩
  have hr := (reachable_firstState ValidBlock validBlock_first).next
    (.add hfill validBlock_second (by decide) hadd)
  have hverified := verified_of_reachable hr
  obtain ⟨st, hchain, hblocks, -⟩ := id hverified.chain
  have hnext : s.index.txNumNext = 4 := by
    rw [hchain.numbered.txNumNext, hblocks]
    rfl
  have hlen := hchain.numbered.wellFormed.txNums_length
  refine ⟨s, hr, (by decide : 2 ≤ maxHeaders), ?_, hverified.rows_lt ?_, fun k u hu => ?_, ?_⟩
  · rw [hnext]
    decide
  · rw [hlen, hnext]
    decide
  · exact hundo (k, u) (Std.ExtTreeMap.mem_toList_iff_getElem?_eq_some.mpr hu)
  · have hmoney : InMoneyRange [firstBlock, secondBlock 0] := by
      unfold InMoneyRange
      decide
    exact hmoney

/-- The startup after two blocks, with all checks. -/
theorem startup_secondState : ∃ r : ChainRun, r.blocks = [firstBlock, secondBlock 0] ∧
    ∃ s, startup opTrueHashers {} 3 r.state.database = .ok s ∧ s.index = r.state.index ∧
      (∀ k u, s.undo[k]? = some u ↔
        k ∈ newest ({} : Options).maxReorg (topRun {k | k ∈ r.state.undo}) ∧
          r.state.undo[k]? = some u) ∧ s.mempool = {} := by
  obtain ⟨s, hr, hlimits⟩ := withinLimits_second
  exact ⟨_, rfl, startup_database hr hlimits {} 3⟩

end SmallChain

end Storage
end Shulcrum
