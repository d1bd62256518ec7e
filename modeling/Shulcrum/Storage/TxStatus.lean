import Shulcrum.Lib.Positions
import Shulcrum.Storage.History

/-!
# The status of a transaction

`getTxHeight` looks a transaction up in the index of the chain and then in the
mempool.  Its answer is what the subscribers of the transaction are told.  An
operation that changes it has to report the transaction.

`addBlock` reports the transactions of the block without the coinbase, and
nothing at all if the header is rejected.  `undoLatestBlock` reports the whole
mempool and the whole block.

**Results.**
* `TxIndexed`: the numbers of a key, in every run.
* `getTxHeight_eq`: the answer in terms of the chain and the mempool.
* `txids_notified_iff`: when every transaction with another status is reported.
-/

namespace Shulcrum
namespace Storage

open Invariant TreeMap Flatten Positions ChainIndex PreProcessedBlock

/-! ## The lookup -/

/-- `TxHash2TxNumMgr::find`: the first number of the key at which the array has the hash. -/
def ChainIndex.find (ix : ChainIndex) (txHash : TxHash) : Except Exception (Option Nat) :=
  match ix.txhash2txnum[makeKeyFromHash txHash]? with
  | none => .ok none
  | some txNums =>
      if txNums.isEmpty then
        .error (.databaseError ("txhash2txnum: failed lookup for txHash " ++ txHash.toHex ++
          ": Missing data for txHash: " ++ txHash.toHex))
      else .ok (txNums.find? fun n => decide (ix.txNums[n]? = some txHash))

/-- `Storage::getTxHeight`: the height of the block, or 0 for a mempool transaction. -/
def getTxHeight (s : State) (h : TxHash) : Except Exception (Option Nat) :=
  match s.index.find h with
  | .error e => .error e
  | .ok (some txNum) => .ok (heightForTxNum s txNum)
  | .ok none => .ok (if h ∈ s.mempool.txs then some 0 else none)

/-- The row of a key: there is none without numbers. -/
def rowOf (txNums : List Nat) : Option (List Nat) := if txNums.isEmpty then none else some txNums

/-- The table of ids has the numbers of every key. -/
def TxIndexed (ix : ChainIndex) : Prop :=
  ∀ key : BitVec 48, ix.txhash2txnum[key]? = rowOf (positions makeKeyFromHash key ix.txNums)

section Index

variable {H : Hashers} {opts : Options} {ix ix' : ChainIndex} {ppb : PreProcessedBlock}
  {ch : BlockChanges}

theorem txIndexed_empty : TxIndexed {} := by
  intro key
  simp [rowOf]

@[simp] theorem rowOf_getD (txNums : List Nat) : (rowOf txNums).getD [] = txNums := by
  cases txNums <;> rfl

theorem rowOf_append_of_ne_nil (txNums : List Nat) {new : List Nat} (h : new ≠ []) :
    rowOf (txNums ++ new) = some (txNums ++ new) := by
  rw [rowOf, if_neg]
  simp [h]

/-- What an undo leaves of a row. -/
theorem rowOf_bind_cutList (txNum0 : Nat) (txNums : List Nat) :
    (rowOf txNums).bind (cutList txNum0) = rowOf (txNums.filter fun n => decide (n < txNum0)) := by
  cases txNums with
  | nil => rfl
  | cons n txNums => rfl

theorem bucketOf_eq (txInfos : List TxInfo) (txNum0 : Nat) (key : BitVec 48) :
    bucketOf txInfos txNum0 key = (((txInfos.map TxInfo.hash).zipIdx txNum0).filter
      fun e => decide (makeKeyFromHash e.1 = key)).map Prod.snd := by
  simp [bucketOf, List.zipIdx_map, List.filter_map, Function.comp_def]

theorem TxIndexed.connect (h : TxIndexed ix) (hw : WellFormed ix) :
    TxIndexed (nextIndex opts ix ppb ch) := by
  intro key
  have hnums : (nextIndex opts ix ppb ch).txNums = ix.txNums ++ ppb.txInfos.map TxInfo.hash := rfl
  have htable : (nextIndex opts ix ppb ch).txhash2txnum =
      insertForBlock ix.txhash2txnum ix.txNumNext ppb.txInfos := rfl
  rw [hnums, htable, get_insertForBlock, positions_append, hw.txNums_length, ← bucketOf_eq,
    h key, rowOf_getD]
  cases hnew : bucketOf ppb.txInfos ix.txNumNext key with
  | nil => rw [List.append_nil, List.isEmpty_nil, if_pos rfl]
  | cons n new =>
      rw [rowOf_append_of_ne_nil _ (List.cons_ne_nil n new)]
      rfl

theorem TxIndexed.truncate (h : TxIndexed ix) {txNum0 : Nat}
    {m : Std.ExtTreeMap (BitVec 48) (List Nat) compare}
    (hm : truncateForUndo ix txNum0 = .ok m) (key : BitVec 48) :
    m[key]? = rowOf (positions makeKeyFromHash key (ix.txNums.take txNum0)) := by
  rw [get_truncateForUndo hm, h key, positions_take]
  split_ifs with hrec
  · exact rowOf_bind_cutList txNum0 _
  · have hall : ∀ n ∈ positions makeKeyFromHash key ix.txNums, n < txNum0 := by
      intro n hn
      by_contra hge
      obtain ⟨hash, hget, hkey⟩ := mem_positions.mp hn
      have hdrop : (ix.txNums.drop txNum0)[n - txNum0]? = some hash := by
        rw [List.getElem?_drop, Nat.add_sub_cancel' (not_lt.mp hge)]
        exact hget
      exact hrec ⟨hash, List.mem_of_getElem? hdrop, hkey⟩
    rw [List.filter_eq_self.mpr fun n hn => decide_eq_true (hall n hn)]

theorem TxIndexed.disconnect (h : TxIndexed ix) {prevHeight : Nat} {prevHeader : Header}
    {u : UndoInfo} (hd : disconnectBlock ix prevHeight prevHeader u = .ok ix') :
    TxIndexed ix' := by
  obtain ⟨shist, table, -, htable, rfl⟩ := disconnectBlock_eq_ok hd
  exact h.truncate htable

/-- A lookup finds the first number of the hash. -/
theorem TxIndexed.find_eq (h : TxIndexed ix) (txHash : TxHash) :
    ix.find txHash = .ok (ix.txNums.findIdx? fun hash => decide (hash = txHash)) := by
  rw [← find?_positions makeKeyFromHash, ChainIndex.find, h]
  cases positions makeKeyFromHash (makeKeyFromHash txHash) ix.txNums with
  | nil => rfl
  | cons n txNums => rfl

end Index

/-! ## Heights -/

section Heights

variable {H : Hashers} {opts : Options} {s s' : State} {b : CBlock} {ppb : PreProcessedBlock}
  {ch : BlockChanges}

theorem exists_sum_take_le {l : List BlkInfo} {n m : Nat}
    (hn : n < ((l.take m).map BlkInfo.nTx).sum) : ∃ (k : Nat) (bi : BlkInfo), l[k]? = some bi ∧
      ((l.take k).map BlkInfo.nTx).sum ≤ n ∧
      n < ((l.take k).map BlkInfo.nTx).sum + bi.nTx := by
  induction m with
  | zero => simp at hn
  | succ m ih =>
      by_cases hlow : n < ((l.take m).map BlkInfo.nTx).sum
      · exact ih hlow
      · cases hget : l[m]? with
        | none =>
            have hlen : l.length ≤ m := List.getElem?_eq_none_iff.mp hget
            rw [List.take_of_length_le (by omega)] at hn
            rw [List.take_of_length_le hlen] at hlow
            exact absurd hn hlow
        | some bi =>
            refine ⟨m, bi, hget, not_lt.mp hlow, ?_⟩
            rw [List.take_add_one, hget, List.map_append, List.sum_append] at hn
            simpa using hn

/-- Every number belongs to a block. -/
theorem ChainIndex.WellFormed.exists_blkInfo {ix : ChainIndex} (hw : WellFormed ix) {n : Nat}
    (hn : n < ix.txNumNext) : ∃ (k : Nat) (bi : BlkInfo), ix.blkInfos[k]? = some bi ∧
      bi.txNum0 ≤ n ∧ n < bi.txNum0 + bi.nTx := by
  rw [hw.txNumNext, ← List.take_length (l := ix.blkInfos)] at hn
  obtain ⟨k, bi, hget, hlo, hhi⟩ := exists_sum_take_le hn
  rw [← (hw.blkInfos k bi hget).2] at hlo hhi
  exact ⟨k, bi, hget, hlo, hhi⟩

/-- A block does not change the heights of earlier transactions. -/
theorem heightForTxNum_connect (hw : WellFormed s.index) (hc : Connected H opts s.index b ppb ch)
    (hindex : s'.index = nextIndex opts s.index ppb ch) {n : Nat} (hn : n < s.index.txNumNext) :
    heightForTxNum s' n = heightForTxNum s n := by
  obtain ⟨k, bi, hget, hlo, hhi⟩ := hw.exists_blkInfo hn
  have hw' : WellFormed s'.index := hindex ▸ hc.wellFormed hw
  have hget' : s'.index.blkInfos[k]? = some bi := by
    have hinfos : s'.index.blkInfos =
        s.index.blkInfos ++ [⟨s.index.txNumNext, ppb.txInfos.length⟩] := by
      rw [hindex]
      rfl
    rw [hinfos, List.getElem?_append_left (List.getElem?_eq_some_iff.mp hget).1]
    exact hget
  rw [heightForTxNum_eq hw hget hlo hhi, heightForTxNum_eq hw' hget' hlo hhi]

/-- The transactions of a block have its height. -/
theorem heightForTxNum_new (hw : WellFormed s.index) (hc : Connected H opts s.index b ppb ch)
    (hindex : s'.index = nextIndex opts s.index ppb ch) {i : Nat} (hi : i < ppb.txInfos.length) :
    heightForTxNum s' (s.index.txNumNext + i) = some ppb.height := by
  have hw' : WellFormed s'.index := hindex ▸ hc.wellFormed hw
  have hget : s'.index.blkInfos[ppb.height]? =
      some ⟨s.index.txNumNext, ppb.txInfos.length⟩ := by
    have hinfos : s'.index.blkInfos =
        s.index.blkInfos ++ [⟨s.index.txNumNext, ppb.txInfos.length⟩] := by
      rw [hindex]
      rfl
    rw [hinfos, get_concat, hc.height, hw.headers_length, if_pos rfl]
  exact heightForTxNum_eq hw' hget (Nat.le_add_right _ _) (Nat.add_lt_add_left hi _)

/-- An undo does not change the heights of earlier transactions. -/
theorem heightForTxNum_disconnect {tip : Nat} {u : UndoInfo} (hw : WellFormed s.index)
    (hw' : WellFormed s'.index) (hu : RecordOk s.index tip u)
    (hinfos : s'.index.blkInfos = s.index.blkInfos.dropLast)
    (htip : s.index.blkInfos.length = tip + 1) {n : Nat} (hn : n < u.blkInfo.txNum0) :
    heightForTxNum s' n = heightForTxNum s n := by
  have hnext := hu.next_eq hw htip
  obtain ⟨k, bi, hget, hlo, hhi⟩ := hw.exists_blkInfo (n := n) (by omega)
  have hk := (List.getElem?_eq_some_iff.mp hget).1
  have hlt : k < tip := by
    rcases Nat.lt_or_ge k tip with hlt | hge
    · exact hlt
    · obtain rfl : k = tip := by omega
      rw [hu.blkInfo] at hget
      cases hget
      omega
  have hget' : s'.index.blkInfos[k]? = some bi := by
    rw [hinfos, List.dropLast_eq_take, List.getElem?_take_of_lt (by omega)]
    exact hget
  rw [heightForTxNum_eq hw hget hlo hhi, heightForTxNum_eq hw' hget' hlo hhi]

end Heights

/-! ## The status before and after -/

/-- The number of a transaction of the chain. -/
def ChainIndex.numberOf (ix : ChainIndex) (h : TxHash) : Option Nat :=
  ix.txNums.findIdx? fun hash => decide (hash = h)

section Status

variable {H : Hashers} {opts : Options} {s s' : State} {b : CBlock} {ppb : PreProcessedBlock}
  {ch : BlockChanges} {h : TxHash}

theorem getTxHeight_eq (hidx : TxIndexed s.index) (h : TxHash) :
    getTxHeight s h = .ok (match s.index.numberOf h with
      | some txNum => heightForTxNum s txNum
      | none => if h ∈ s.mempool.txs then some 0 else none) := by
  rw [getTxHeight, hidx.find_eq, ChainIndex.numberOf]
  cases s.index.txNums.findIdx? fun hash => decide (hash = h) with
  | none => rfl
  | some n => rfl

theorem numberOf_eq_none {ix : ChainIndex} : ix.numberOf h = none ↔ h ∉ ix.txNums := by
  rw [ChainIndex.numberOf, List.findIdx?_eq_none_iff]
  constructor
  · intro hall hmem
    exact absurd rfl (of_decide_eq_false (hall h hmem))
  · intro hnot hash hmem
    exact decide_eq_false fun heq => hnot (heq ▸ hmem)

theorem numberOf_lt {ix : ChainIndex} (hw : WellFormed ix) {n : Nat}
    (hn : ix.numberOf h = some n) : n < ix.txNumNext := by
  rw [← hw.txNums_length]
  exact (List.findIdx?_eq_some_iff_getElem.mp hn).1

/-- A transaction that is not in the chain. -/
theorem getTxHeight_unconfirmed (hidx : TxIndexed s.index) (hnot : h ∉ s.index.txNums) :
    getTxHeight s h = .ok (if h ∈ s.mempool.txs then some 0 else none) := by
  rw [getTxHeight_eq hidx, numberOf_eq_none.mpr hnot]

/-- The status of a transaction of the chain depends on the index only. -/
theorem getTxHeight_congr (hidx : TxIndexed s.index) (hindex : s'.index = s.index)
    (hmem : h ∈ s.index.txNums) : getTxHeight s' h = getTxHeight s h := by
  have hidx' : TxIndexed s'.index := hindex ▸ hidx
  rw [getTxHeight_eq hidx, getTxHeight_eq hidx', hindex]
  cases hnum : s.index.numberOf h with
  | none => exact absurd hmem (numberOf_eq_none.mp hnum)
  | some n =>
      simp only [heightForTxNum, hindex]

theorem numberOf_connect {ix : ChainIndex} (hw : WellFormed ix) :
    (nextIndex opts ix ppb ch).numberOf h = (ix.numberOf h).or
      (((ppb.txInfos.map TxInfo.hash).findIdx? fun hash => decide (hash = h)).map
        fun i => i + ix.txNumNext) := by
  have hnums : (nextIndex opts ix ppb ch).txNums = ix.txNums ++ ppb.txInfos.map TxInfo.hash := rfl
  rw [ChainIndex.numberOf, hnums, List.findIdx?_append, hw.txNums_length]
  rfl

/-- A transaction of an earlier block keeps its status. -/
theorem getTxHeight_connect_old (hidx : TxIndexed s.index) (hw : WellFormed s.index)
    (hc : Connected H opts s.index b ppb ch)
    (hindex : s'.index = nextIndex opts s.index ppb ch) (hmem : h ∈ s.index.txNums) :
    getTxHeight s' h = getTxHeight s h := by
  have hidx' : TxIndexed s'.index := hindex ▸ hidx.connect hw
  cases hnum : s.index.numberOf h with
  | none => exact absurd hmem (numberOf_eq_none.mp hnum)
  | some n =>
      have hnum' : s'.index.numberOf h = some n := by
        rw [hindex, numberOf_connect hw, hnum]
        rfl
      rw [getTxHeight_eq hidx, getTxHeight_eq hidx', hnum, hnum']
      exact congrArg Except.ok (heightForTxNum_connect hw hc hindex (numberOf_lt hw hnum))

/-- A transaction of the block gets its height. -/
theorem getTxHeight_connect_new (hidx : TxIndexed s.index) (hw : WellFormed s.index)
    (hc : Connected H opts s.index b ppb ch)
    (hindex : s'.index = nextIndex opts s.index ppb ch) (hnot : h ∉ s.index.txNums)
    (hmem : h ∈ ppb.txInfos.map TxInfo.hash) : getTxHeight s' h = .ok (some ppb.height) := by
  have hidx' : TxIndexed s'.index := hindex ▸ hidx.connect hw
  cases hfind : (ppb.txInfos.map TxInfo.hash).findIdx? fun hash => decide (hash = h) with
  | none =>
      have hall := List.findIdx?_eq_none_iff.mp hfind h hmem
      exact absurd rfl (of_decide_eq_false hall)
  | some i =>
      have hi : i < ppb.txInfos.length := by
        rw [← List.length_map TxInfo.hash]
        exact (List.findIdx?_eq_some_iff_getElem.mp hfind).1
      have hnum' : s'.index.numberOf h = some (s.index.txNumNext + i) := by
        rw [hindex, numberOf_connect hw, numberOf_eq_none.mpr hnot, hfind, Nat.add_comm]
        rfl
      rw [getTxHeight_eq hidx', hnum']
      exact congrArg Except.ok (heightForTxNum_new hw hc hindex hi)

/-- Another transaction keeps its status if the mempool keeps it. -/
theorem getTxHeight_connect_other (hidx : TxIndexed s.index) (hw : WellFormed s.index)
    (hindex : s'.index = nextIndex opts s.index ppb ch) (hnot : h ∉ s.index.txNums)
    (hnew : h ∉ ppb.txInfos.map TxInfo.hash)
    (hmempool : h ∈ s'.mempool.txs ↔ h ∈ s.mempool.txs) : getTxHeight s' h = getTxHeight s h := by
  have hidx' : TxIndexed s'.index := hindex ▸ hidx.connect hw
  have hnot' : h ∉ s'.index.txNums := by
    have hnums : s'.index.txNums = s.index.txNums ++ ppb.txInfos.map TxInfo.hash := by
      rw [hindex]
      rfl
    rw [hnums, List.mem_append]
    exact fun hor => hor.elim hnot hnew
  rw [getTxHeight_unconfirmed hidx hnot, getTxHeight_unconfirmed hidx' hnot']
  simp only [hmempool]

/-- A transaction of an earlier block keeps its status when the latest block is undone. -/
theorem getTxHeight_disconnect_old {tip : Nat} {u : UndoInfo} (hidx : TxIndexed s.index)
    (hidx' : TxIndexed s'.index) (hw : WellFormed s.index) (hw' : WellFormed s'.index)
    (hu : RecordOk s.index tip u) (hinfos : s'.index.blkInfos = s.index.blkInfos.dropLast)
    (hnums : s'.index.txNums = s.index.txNums.take u.blkInfo.txNum0)
    (htip : s.index.blkInfos.length = tip + 1)
    (hmem : h ∈ s.index.txNums.take u.blkInfo.txNum0) : getTxHeight s' h = getTxHeight s h := by
  cases hnum' : s'.index.numberOf h with
  | none => exact absurd (hnums ▸ hmem) (numberOf_eq_none.mp hnum')
  | some n =>
      have hlt : n < u.blkInfo.txNum0 := by
        have hn := (List.findIdx?_eq_some_iff_getElem.mp hnum').1
        rw [hnums, List.length_take] at hn
        omega
      have hnum : s.index.numberOf h = some n := by
        rw [ChainIndex.numberOf, ← List.take_append_drop u.blkInfo.txNum0 s.index.txNums,
          List.findIdx?_append, ← hnums]
        rw [ChainIndex.numberOf] at hnum'
        rw [hnum']
        rfl
      rw [getTxHeight_eq hidx, getTxHeight_eq hidx', hnum, hnum']
      exact congrArg Except.ok (heightForTxNum_disconnect hw hw' hu hinfos htip hlt)

end Status

/-! ## Notifications -/

/-- The set has every transaction whose status is another one in the second state. -/
def TxidsNotified (s s' : State) (txids : HashSet) : Prop :=
  ∀ h, getTxHeight s' h ≠ getTxHeight s h → h ∈ txids

/-- `txidsAffected`, as it is enqueued. -/
def txidsEnqueued (notify : Option NotifyData) : HashSet :=
  notify.elim ∅ NotifyData.txidsAffected

/-- The coinbase of the block is known already: it is in the chain, or another transaction of the
block has its id, or it is a mempool transaction that goes to block 0. -/
def CoinbaseKnown (s : State) (ppb : PreProcessedBlock) : Prop :=
  ∀ coinbase, ppb.txInfos.head? = some coinbase →
    coinbase.hash ∈ s.index.txNums ∨ (∃ info ∈ ppb.txInfos.drop 1, info.hash = coinbase.hash) ∨
      ppb.height = 0 ∧ coinbase.hash ∈ s.mempool.txs

section Notified

variable {H : Hashers} {opts : Options} {s s' : State} {b : CBlock} {ppb : PreProcessedBlock}
  {saveUndo trackRecent : Bool} {notify : Option NotifyData}

theorem mem_foldl_insert_hash {infos : List TxInfo} {h : TxHash} :
    h ∈ infos.foldl (fun set info => set.insert info.hash) (∅ : HashSet) ↔
      ∃ info ∈ infos, info.hash = h := by
  have hmap : infos.foldl (fun set info => set.insert info.hash) (∅ : HashSet) =
      (infos.map TxInfo.hash).foldl (·.insert ·) ∅ := by
    rw [List.foldl_map]
  rw [hmap, mem_foldl_insert]
  simp

/-- The coinbase is the only transaction of the block that is not reported. -/
theorem mem_hashes_iff {h : TxHash} :
    h ∈ ppb.txInfos.map TxInfo.hash ↔
      (∃ coinbase, ppb.txInfos.head? = some coinbase ∧ coinbase.hash = h) ∨
        ∃ info ∈ ppb.txInfos.drop 1, info.hash = h := by
  cases ppb.txInfos with
  | nil => simp
  | cons coinbase infos => simp [eq_comm]

/-- What an accepted block reports and does to the mempool. -/
theorem txidsEnqueued_addBlock
    (hadd : addBlock H opts s ppb saveUndo true trackRecent = .ok s' notify) (h : TxHash) :
    (h ∈ txidsEnqueued notify ↔ ∃ info ∈ ppb.txInfos.drop 1, info.hash = h) ∧
      (h ∈ s'.mempool.txs ↔ h ∈ s.mempool.txs ∧
        ¬ ∃ info ∈ ppb.txInfos.drop 1, info.hash = h) := by
  obtain ⟨ch, nd, -, rfl, hmempool, -, htxids⟩ := addBlock_notify hadd
  rw [hmempool, Mempool.mem_confirmedInBlock, mem_blockTxidMap, txidsEnqueued, Option.elim_some,
    htxids, mem_foldl_insert_hash]
  exact ⟨Iff.rfl, Iff.rfl⟩

/-- A block that is accepted reports everything if and only if its coinbase is known already. -/
theorem addBlock_txidsNotified_iff (hs : Sound s) (hidx : TxIndexed s.index)
    {height blockSize : Nat} {blockHash : Hash}
    {rpaTask : Option (List CTransaction → Except Exception (List UInt8))}
    (hfill : fill H height rpaTask blockHash blockSize b = .ok ppb)
    (hfits : s.index.txNumNext + b.vtx.length ≤ txNumMax + 1)
    (hadd : addBlock H opts s ppb saveUndo true trackRecent = .ok s' notify) :
    TxidsNotified s s' (txidsEnqueued notify) ↔ CoinbaseKnown s ppb := by
  obtain ⟨ch, hc, hindex, -⟩ := connected_of_addBlock hfill hfits hadd
  have hw := hs.wellFormed
  constructor
  · intro hall coinbase hhead
    by_contra hnew
    rw [not_or, not_or] at hnew
    obtain ⟨hchain, hrest, hpool⟩ := hnew
    refine hrest ((txidsEnqueued_addBlock hadd _).1.mp (hall coinbase.hash ?_))
    have hmem := mem_hashes_iff.mpr (.inl ⟨_, hhead, rfl⟩)
    rw [getTxHeight_connect_new hidx hw hc hindex hchain hmem,
      getTxHeight_unconfirmed hidx hchain]
    intro heq
    have hopt := Except.ok.inj heq
    split_ifs at hopt with hmem
    exact hpool ⟨Option.some.inj hopt, hmem⟩
  · intro hknown h hchanged
    rw [(txidsEnqueued_addBlock hadd h).1]
    by_contra hrest
    refine hchanged ?_
    by_cases hchain : h ∈ s.index.txNums
    · exact getTxHeight_connect_old hidx hw hc hindex hchain
    · have hmempool : h ∈ s'.mempool.txs ↔ h ∈ s.mempool.txs := by
        rw [(txidsEnqueued_addBlock hadd h).2]
        exact and_iff_left hrest
      by_cases hblock : h ∈ ppb.txInfos.map TxInfo.hash
      · obtain ⟨coinbase, hhead, rfl⟩ := (mem_hashes_iff.mp hblock).resolve_right hrest
        rcases hknown coinbase hhead with hold | hother | ⟨hzero, hpool⟩
        · exact absurd hold hchain
        · exact absurd hother hrest
        · rw [getTxHeight_connect_new hidx hw hc hindex hchain hblock,
            getTxHeight_unconfirmed hidx hchain, if_pos hpool, hzero]
      · exact getTxHeight_connect_other hidx hw hindex hchain hblock hmempool

/-- A block that is rejected reports nothing, and then nothing may have changed. -/
theorem rejected_txidsNotified_iff (hidx : TxIndexed s.index) {errMsg : String}
    (hadd : addBlock H opts s ppb saveUndo true trackRecent =
      .headerVerificationFailure errMsg s') :
    TxidsNotified s s' ∅ ↔ ∀ info ∈ ppb.txInfos.drop 1, info.hash ∈ s.mempool.txs →
      info.hash ∈ s.index.txNums := by
  obtain ⟨recent, hconf⟩ := confirmInMempool_eq s ppb true trackRecent
  have hstate := (state_of_rejected hadd).trans hconf
  have hindex : s'.index = s.index := by rw [hstate]
  have hmempool : ∀ h, h ∈ s'.mempool.txs ↔ h ∈ s.mempool.txs ∧
      ¬ ∃ info ∈ ppb.txInfos.drop 1, info.hash = h := by
    intro h
    have hmp : s'.mempool =
        (s.mempool.confirmedInBlock (blockTxidMap s.index.txNumNext ppb) ppb.height ∅).1 := by
      rw [hstate]
      rfl
    rw [hmp, Mempool.mem_confirmedInBlock, mem_blockTxidMap]
  have hidx' : TxIndexed s'.index := hindex ▸ hidx
  constructor
  · intro hall info hinfo hpool
    by_contra hchain
    have hnone : getTxHeight s' info.hash ≠ getTxHeight s info.hash := by
      rw [getTxHeight_unconfirmed hidx hchain, if_pos hpool,
        getTxHeight_unconfirmed hidx' (hindex.symm ▸ hchain),
        if_neg fun hin => ((hmempool _).mp hin).2 ⟨info, hinfo, rfl⟩]
      simp
    exact absurd (hall _ hnone) (by simp)
  · intro hknown h hchanged
    refine absurd ?_ hchanged
    by_cases hchain : h ∈ s.index.txNums
    · exact getTxHeight_congr hidx hindex hchain
    · rw [getTxHeight_unconfirmed hidx hchain,
        getTxHeight_unconfirmed hidx' (hindex.symm ▸ hchain)]
      have hsame : h ∈ s'.mempool.txs ↔ h ∈ s.mempool.txs := by
        rw [hmempool]
        refine and_iff_left_of_imp ?_
        rintro hpool ⟨info, hinfo, rfl⟩
        exact hchain (hknown info hinfo hpool)
      simp only [hsame]

/-- An undo reports the mempool and the block. -/
theorem undoLatestBlock_txidsNotified (hs : Sound s) (hidx : TxIndexed s.index) {u : Undone}
    (hundo : undoLatestBlock H s true = .ok u) :
    TxidsNotified s u.state (txidsEnqueued u.notify) := by
  obtain ⟨prevHeader, info, nd, hrec, htip, hd, hnotify, hmempool, -, htxids⟩ := hs.undone hundo
  have hw := hs.wellFormed
  have hw' := (hs.undo hundo).wellFormed
  have hnext := hrec.next_eq hw htip
  have hidx' : TxIndexed u.state.index := hidx.disconnect hd
  obtain ⟨shist, table, -, -, hindex⟩ := disconnectBlock_eq_ok hd
  have hnums : u.state.index.txNums = s.index.txNums.take info.blkInfo.txNum0 := by rw [hindex]
  have hinfos : u.state.index.blkInfos = s.index.blkInfos.dropLast := by rw [hindex]
  have hempty : ∀ h, h ∉ u.state.mempool.txs := by
    intro h
    rw [hmempool]
    simp [Mempool.clear]
  intro h hchanged
  rw [hnotify, txidsEnqueued, Option.elim_some, htxids, mem_foldl_insert, mem_foldl_insert,
    Std.ExtTreeMap.mem_keys]
  have hsplit := List.take_append_drop info.blkInfo.txNum0 s.index.txNums
  by_cases hold : h ∈ s.index.txNums.take info.blkInfo.txNum0
  · refine absurd ?_ hchanged
    exact getTxHeight_disconnect_old hidx hidx' hw hw' hrec hinfos hnums htip hold
  by_cases hblock : h ∈ s.index.txNums.drop info.blkInfo.txNum0
  · right
    rw [List.take_of_length_le]
    · exact hblock
    · rw [List.length_drop, hw.txNums_length]
      omega
  · have hnot : h ∉ s.index.txNums := by
      rw [← hsplit, List.mem_append]
      exact fun hor => hor.elim hold hblock
    by_contra hnone
    rw [not_or, not_or] at hnone
    refine hchanged ?_
    rw [getTxHeight_unconfirmed hidx hnot, getTxHeight_unconfirmed hidx' (hnums.symm ▸ hold),
      if_neg (hempty h), if_neg hnone.1.2]

/-- The table of ids has the numbers of every key in every run. -/
theorem txIndexed_of_reachable {valid : List CBlock → CBlock → Prop} {r : ChainRun}
    (h : Reachable ChainRun.Start (ChainStep H opts valid) r) :
    Sound r.state ∧ TxIndexed r.state.index := by
  refine Reachable.invariant (I := fun r => Sound r.state ∧ TxIndexed r.state.index) ?_ ?_ h
  · rintro _ rfl
    exact ⟨⟨wellFormed_empty, recorded_empty⟩, txIndexed_empty⟩
  · rintro r r' ⟨hs, hidx⟩ hstep
    refine ⟨hs.step hstep, ?_⟩
    cases hstep with
    | add hfill _ hfits hadd =>
        obtain ⟨ch, hc, hindex, -⟩ := connected_of_addBlock hfill hfits hadd
        exact hindex ▸ hidx.connect hs.wellFormed
    | reject hadd =>
        obtain ⟨recent, hconf⟩ := confirmInMempool_eq r.state _ _ _
        rw [state_of_rejected hadd, hconf]
        exact hidx
    | undo hundo =>
        obtain ⟨prevHeader, info, -, -, -, hd, -, -⟩ := undoLatestBlock_eq_ok hundo
        exact hidx.disconnect hd
    | mempool mp => exact hidx

/--
In every state of every run, with any mempool: a block that is accepted reports
all transactions with another status if and only if its coinbase is known
already; a block that is rejected changes no status if and only if the mempool
has none of its other transactions that is not in the chain; an undo always
reports all of them.
-/
theorem txids_notified_iff {valid : List CBlock → CBlock → Prop} {r : ChainRun}
    (hr : Reachable ChainRun.Start (ChainStep H opts valid) r) :
    (∀ (b : CBlock) (height blockSize : Nat) (blockHash : Hash)
        (rpaTask : Option (List CTransaction → Except Exception (List UInt8)))
        (ppb : PreProcessedBlock) (saveUndo trackRecent : Bool) (s' : State)
        (notify : Option NotifyData),
      fill H height rpaTask blockHash blockSize b = .ok ppb →
      r.state.index.txNumNext + b.vtx.length ≤ txNumMax + 1 →
      addBlock H opts r.state ppb saveUndo true trackRecent = .ok s' notify →
      (TxidsNotified r.state s' (txidsEnqueued notify) ↔ CoinbaseKnown r.state ppb)) ∧
    (∀ (ppb : PreProcessedBlock) (saveUndo trackRecent : Bool) (errMsg : String) (s' : State),
      addBlock H opts r.state ppb saveUndo true trackRecent =
        .headerVerificationFailure errMsg s' →
      (TxidsNotified r.state s' ∅ ↔ ∀ info ∈ ppb.txInfos.drop 1,
        info.hash ∈ r.state.mempool.txs → info.hash ∈ r.state.index.txNums)) ∧
    ∀ u, undoLatestBlock H r.state true = .ok u →
      TxidsNotified r.state u.state (txidsEnqueued u.notify) := by
  obtain ⟨hs, hidx⟩ := txIndexed_of_reachable hr
  refine ⟨?_, ?_, ?_⟩
  · intro b height blockSize blockHash rpaTask ppb saveUndo trackRecent s' notify hfill hfits hadd
    exact addBlock_txidsNotified_iff hs hidx hfill hfits hadd
  · intro ppb saveUndo trackRecent errMsg s' hadd
    exact rejected_txidsNotified_iff hidx hadd
  · intro u hundo
    exact undoLatestBlock_txidsNotified hs hidx hundo

end Notified

section SmallChain

open Mempool

/-- A run with one block whose coinbase has id 1, and a second block whose coinbase has id 2. -/
theorem exists_second_coinbase : ∃ (r : ChainRun) (ppb : PreProcessedBlock) (s' : State)
    (notify : Option NotifyData),
    Reachable ChainRun.Start (ChainStep opTrueHashers {} ValidBlock) r ∧
      r.state.mempool = {} ∧ r.state.index.txNums = [1] ∧
      ppb.txInfos.map TxInfo.hash = [2] ∧ ppb.height = 1 ∧
      fill opTrueHashers 1 none 0 100 (coinbaseBlock 2 (by decide)) = .ok ppb ∧
      addBlock opTrueHashers {} r.state ppb true true false = .ok s' notify := by
  have hone : (1 : TxHash) ≠ 0 := by decide
  have htwo : (2 : TxHash) ≠ 0 := by decide
  have hvalid : ValidBlock [] (coinbaseBlock 1 hone) := by
    refine ⟨by simp [coinbaseBlock], ?_, by simp [coinbaseBlock, coinbaseTx]⟩
    intro tx htx e he
    cases he
  have hfits : ({} : ChainIndex).txNumNext + 1 ≤ txNumMax + 1 := by decide
  obtain ⟨s, hstep⟩ : ∃ s, ChainStep opTrueHashers {} ValidBlock { state := {}, blocks := [] }
      { state := s, blocks := [] ++ [coinbaseBlock 1 hone] } :=
    step_coinbaseBlock blockHeaderSize_default wellFormed_empty hfits hone hvalid
  -- the mempool is empty after a step that replaces it
  have hr : Reachable ChainRun.Start (ChainStep opTrueHashers {} ValidBlock)
      { state := { s with mempool := {} }, blocks := [] ++ [coinbaseBlock 1 hone] } :=
    .next (.next (.start rfl) hstep) (.mempool {})
  have hnum := (histories_of_reachable hr).1.numbered
  obtain ⟨ppb, s', notify, hfill, hadd⟩ : ∃ ppb s' notify,
      fill opTrueHashers s.index.headers.length none 0 100 (coinbaseBlock 2 htwo) = .ok ppb ∧
        addBlock opTrueHashers {} { s with mempool := {} } ppb true true false =
          .ok s' notify :=
    addBlock_coinbaseBlock blockHeaderSize_default hnum.wellFormed htwo true true false
  have hheight : s.index.headers.length = 1 := hnum.length
  obtain ⟨hp, hppb⟩ := prepared_of_fill hfill
  rw [hheight] at hfill hppb
  exact ⟨_, ppb, s', notify, hr, rfl, hnum.txNums, hp.hashes, hppb, hfill, hadd⟩

/-- The second block reports nothing, and its coinbase was not known. -/
theorem txids_notified_iff_second : ∃ (r : ChainRun) (ppb : PreProcessedBlock) (s' : State)
    (notify : Option NotifyData),
    fill opTrueHashers 1 none 0 100 (coinbaseBlock 2 (by decide)) = .ok ppb ∧
      addBlock opTrueHashers {} r.state ppb true true false = .ok s' notify ∧
      (TxidsNotified r.state s' (txidsEnqueued notify) ↔ CoinbaseKnown r.state ppb) := by
  obtain ⟨r, ppb, s', notify, hr, -, hnums, -, -, hfill, hadd⟩ := exists_second_coinbase
  have hfits : r.state.index.txNumNext + 1 ≤ txNumMax + 1 := by
    rw [← (sound_of_reachable hr).wellFormed.txNums_length, hnums]
    decide
  exact ⟨r, ppb, s', notify, hfill, hadd,
    (txids_notified_iff hr).1 _ _ _ _ _ _ _ _ _ _ hfill hfits hadd⟩

/-- The coinbase of the second block gets the height 1 and is not reported. -/
theorem coinbase_not_notified : ∃ (r : ChainRun) (ppb : PreProcessedBlock) (s' : State)
    (notify : Option NotifyData),
    Reachable ChainRun.Start (ChainStep opTrueHashers {} ValidBlock) r ∧
      addBlock opTrueHashers {} r.state ppb true true false = .ok s' notify ∧
      getTxHeight r.state 2 = .ok none ∧ getTxHeight s' 2 = .ok (some 1) ∧
      2 ∉ txidsEnqueued notify := by
  obtain ⟨r, ppb, s', notify, hr, hmempool, hnums, hhashes, hheight, hfill, hadd⟩ :=
    exists_second_coinbase
  obtain ⟨hs, hidx⟩ := txIndexed_of_reachable hr
  have hfits : r.state.index.txNumNext + 1 ≤ txNumMax + 1 := by
    rw [← hs.wellFormed.txNums_length, hnums]
    decide
  obtain ⟨ch, hc, hindex, -⟩ := connected_of_addBlock hfill hfits hadd
  have hnot : (2 : TxHash) ∉ r.state.index.txNums := by
    rw [hnums]
    decide
  refine ⟨r, ppb, s', notify, hr, hadd, ?_, ?_, ?_⟩
  · rw [getTxHeight_unconfirmed hidx hnot, hmempool, if_neg (by simp)]
  · rw [getTxHeight_connect_new hidx hs.wellFormed hc hindex hnot (by rw [hhashes]; decide),
      hheight]
  · rw [(txidsEnqueued_addBlock hadd 2).1]
    rintro ⟨info, hinfo, -⟩
    have hlen : ppb.txInfos.length = 1 := by
      rw [← List.length_map TxInfo.hash, hhashes]
      rfl
    rw [List.drop_of_length_le hlen.le] at hinfo
    cases hinfo

end SmallChain

end Storage
end Shulcrum
