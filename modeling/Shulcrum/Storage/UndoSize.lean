import Shulcrum.Storage.Reorg
import Shulcrum.Storage.UndoRoundtrip

/-!
# Undoing a block that was just added

The undo reads the record of the block and the rows of its ids in `txhash2txnum`,
and both are read only if an `int` holds their size.  The size of the record
follows from the block and the UTXO set before it: an entry for every output that
is created, every output of an earlier block that is spent, and every script hash.

**Results.**
* `readUndo_iff_deserialize`: the test of the model is that of the byte format.
* `Connected.recordSize_eq`: the size of the record of a block.
* `undoLatestBlock_addBlock`: undoing a block that was just added restores the
  index exactly if the record and the rows are smaller than two gibibytes.
-/

namespace Shulcrum
namespace Storage

open Invariant TreeMap Flatten ChainIndex PreProcessedBlock UndoCodec

variable {H : Hashers} {opts : Options}

/-- A record that the format can hold is read as its bytes are. -/
theorem readUndo_iff_deserialize {deserToken : List UInt8 → Option TokenData}
    {canReserve : Nat → Bool} (hmem : ∀ n ≤ maxElements, canReserve n = true) {u : UndoInfo}
    (hu : Valid deserToken u) (tip : Nat) :
    readUndo tip u = .ok u ↔ deserialize deserToken canReserve (serialize u) = .ok (3, u) := by
  rw [deserialize_serialize_iff hmem hu, readUndo_eq_ok]
  exact and_iff_left rfl

section Size

variable {ix : ChainIndex} {b : CBlock} {ppb : PreProcessedBlock} {ch : BlockChanges}

instance (vtx : List CTransaction) (i n : Nat) : Decidable (SpentInBlock vtx i n) :=
  inferInstanceAs (Decidable (∃ tx ∈ vtx, ∃ input ∈ tx.vin,
    (lastIdx vtx)[input.prevout.txHash]? = some i ∧ input.prevout.outN = n))

/-- The outputs of a block that can be spent, with their indices. -/
def spendableOuts (b : CBlock) : List (Nat × Nat × CTxOut) :=
  (flatOuts b.vtx).filter fun e => !BTC.isOpReturn e.2.2.scriptPubKey

/-- The outputs that a block adds to the UTXO set: it does not spend them itself. -/
def createdOuts (b : CBlock) : List (Nat × Nat × CTxOut) :=
  (spendableOuts b).filter fun e => !decide (SpentInBlock b.vtx e.1 e.2.1)

/-- The outputs of earlier blocks that a block spends, in the order of its inputs. -/
def spentInfos (ix : ChainIndex) (b : CBlock) : List TXOInfo :=
  (flatIns b.vtx).filterMap fun d =>
    if d.1 = 0 ∨ d.2.2.prevout.txHash ∈ lastIdx b.vtx then none
    else ix.utxos.utxoset[d.2.2.prevout]?

/-- The script hashes that a block funds or spends from, with repetitions. -/
def touchedHashes (H : Hashers) (ix : ChainIndex) (b : CBlock) : List HashX :=
  ((spendableOuts b).map fun e => H.hashXFromCScript e.2.2.scriptPubKey) ++
    ((spentInfos ix b).filter fun info =>
      info.confirmedHeight.any (· != ix.headers.length)).map TXOInfo.hashX

/-- The number of bytes of the undo record of a block. -/
def undoSize (H : Hashers) (ix : ChainIndex) (b : CBlock) : Nat :=
  72 + 32 * (touchedHashes H ix b).dedup.length + 76 * (createdOuts b).length +
    ((spentInfos ix b).map delUndoSize).sum

/-- The numbers of the transactions of a block whose ids have the given key. -/
def blockRow (ix : ChainIndex) (b : CBlock) (key : BitVec 48) : List Nat :=
  ((b.vtx.zipIdx ix.txNumNext).filter fun e =>
    decide (makeKeyFromHash e.1.hash = key)).map Prod.snd

/-- The number of bytes of a row of `txhash2txnum` after a block. -/
def rowSize (ix : ChainIndex) (b : CBlock) (key : BitVec 48) : Nat :=
  ((ix.txhash2txnum[key]?.getD [] ++ blockRow ix b key).flatMap (VarInt.encode false)).length

theorem mem_spendableOuts {e : Nat × Nat × CTxOut} :
    e ∈ spendableOuts b ↔ (∃ tx, b.vtx[e.1]? = some tx ∧ tx.vout[e.2.1]? = some e.2.2) ∧
      BTC.isOpReturn e.2.2.scriptPubKey = false := by
  obtain ⟨i, n, out⟩ := e
  rw [spendableOuts, List.mem_filter, flatOuts, mem_flat, Bool.not_eq_true']

/-- The entry of the UTXO set for an output of a block. -/
def entryOf (H : Hashers) (ix : ChainIndex) (b : CBlock) (e : Nat × Nat × CTxOut) :
    TXO × TXOInfo :=
  (⟨(b.vtx[e.1]?.map CTransaction.hash).getD 0, e.2.1⟩,
    outInfo ix.headers.length ix.txNumNext e.1 (H.hashXFromCScript e.2.2.scriptPubKey) e.2.2)

/-- Different outputs give different entries. -/
theorem nodup_entries (H : Hashers) (ix : ChainIndex) (b : CBlock) :
    ((createdOuts b).map (entryOf H ix b)).Nodup := by
  have hnodup : (createdOuts b).Nodup := ((nodup_flat _ _).filter _).filter _
  refine List.Nodup.map_on ?_ hnodup
  rintro ⟨i, n, out⟩ he ⟨i', n', out'⟩ he' heq
  obtain ⟨⟨tx, htx, hn⟩, -⟩ := mem_spendableOuts.mp (List.mem_filter.mp he).1
  obtain ⟨⟨tx', htx', hn'⟩, -⟩ := mem_spendableOuts.mp (List.mem_filter.mp he').1
  have hout : n = n' := congrArg (fun e => e.1.outN) heq
  have hnum : ix.txNumNext + i = ix.txNumNext + i' := congrArg (fun e => e.2.txNum) heq
  obtain rfl : i = i' := by omega
  subst hout
  rw [htx] at htx'
  cases htx'
  rw [hn] at hn'
  cases hn'
  rfl

namespace ChainIndex.Connected

/-- No entry is added twice. -/
theorem nodup_adds (h : Connected H opts ix b ppb ch) : ch.adds.Nodup := by
  have hp := h.prepared
  rw [h.changes.adds, newUtxos, List.nodup_flatMap]
  refine ⟨?_, ?_⟩
  · rintro ⟨hx, ag⟩ hag
    rw [Std.ExtTreeMap.mem_toList_iff_getElem?_eq_some] at hag
    have houts := hp.agg.nodup hx
    rw [HashXAggregated.agg_of_get hag] at houts
    refine houts.filterMap ?_
    intro p q e hpe hqe
    obtain ⟨i, n, out, tx, hget, -, -, rfl⟩ := (newUtxo_eq_some hp).mp hpe
    obtain ⟨i', n', out', tx', hget', -, -, heq⟩ := (newUtxo_eq_some hp).mp hqe
    have hn : n = n' := congrArg (fun e => e.1.outN) heq
    have hi : ix.txNumNext + i = ix.txNumNext + i' := congrArg (fun e => e.2.txNum) heq
    obtain rfl : i = i' := by omega
    have hpos := (get_flat_iff.mp hget).1
    have hpos' := (get_flat_iff.mp hget').1
    omega
  · -- entries of different script hashes are different
    refine (distinct_toList _).imp ?_
    rintro ⟨hx, ag⟩ ⟨hx', ag'⟩ hne e he he'
    obtain ⟨p, -, hpe⟩ := List.mem_filterMap.mp he
    obtain ⟨q, -, hqe⟩ := List.mem_filterMap.mp he'
    obtain ⟨i, n, out, tx, -, -, -, rfl⟩ := (newUtxo_eq_some hp).mp hpe
    obtain ⟨i', n', out', tx', -, -, -, heq⟩ := (newUtxo_eq_some hp).mp hqe
    exact hne (congrArg (fun e => e.2.hashX) heq)

/-- The entries of the UTXO set that a block adds are those of its outputs. -/
theorem adds_perm (h : Connected H opts ix b ppb ch) :
    ch.adds.Perm ((createdOuts b).map (entryOf H ix b)) := by
  refine (List.perm_ext_iff_of_nodup h.nodup_adds (nodup_entries H ix b)).mpr fun e => ?_
  rw [h.changes.mem_adds, List.mem_map, h.height]
  constructor
  · rintro ⟨i, n, out, tx, hx, htx, hn, ⟨hop, rfl⟩, hns, rfl⟩
    refine ⟨(i, n, out), List.mem_filter.mpr ⟨mem_spendableOuts.mpr ⟨⟨tx, htx, hn⟩, hop⟩, ?_⟩, ?_⟩
    · simpa using hns
    · simp only [entryOf, htx, Option.map_some, Option.getD_some]
  · rintro ⟨⟨i, n, out⟩, he, rfl⟩
    obtain ⟨hmem, hns⟩ := List.mem_filter.mp he
    obtain ⟨⟨tx, htx, hn⟩, hop⟩ := mem_spendableOuts.mp hmem
    refine ⟨i, n, out, tx, _, htx, hn, ⟨hop, rfl⟩, by simpa using hns, ?_⟩
    simp only [entryOf, htx, Option.map_some, Option.getD_some]

/-- The outputs that a block spends, read off its inputs. -/
theorem spends_eq (h : Connected H opts ix b ppb ch) :
    ch.spends.map Spend.info = spentInfos ix b := by
  have hentry : ∀ e ∈ (flatIns b.vtx).zipIdx,
      (spendOf ix.utxos.utxoset
        ({ inputPt e.1 with parentTxOutIdx := parentIdx b.vtx e.1.2.2 }, e.2)).map Spend.info =
      if e.1.1 = 0 ∨ e.1.2.2.prevout.txHash ∈ lastIdx b.vtx then none
      else ix.utxos.utxoset[e.1.2.2.prevout]? := by
    rintro ⟨⟨i, n, input⟩, j⟩ he
    have hzero := flatIns_zero_iff (List.mem_zipIdx_iff_getElem?.mp he)
    have hcond : (j = 0 ∨ (parentIdx b.vtx input).isSome = true) ↔
        i = 0 ∨ input.prevout.txHash ∈ lastIdx b.vtx := by
      rw [hzero, parentIdx_isSome]
    simp only [spendOf, hcond]
    split_ifs
    · rfl
    · rw [Option.map_map]
      exact Option.map_id'
  have hinputs : ppb.inputs.zipIdx = (flatIns b.vtx).zipIdx.map fun e =>
      ({ inputPt e.1 with parentTxOutIdx := parentIdx b.vtx e.1.2.2 }, e.2) := by
    rw [h.prepared.inputs, List.zipIdx_map]
    rfl
  rw [h.changes.spends, hinputs, List.filterMap_map, List.map_filterMap, spentInfos]
  conv_rhs => rw [← List.zipIdx_map_fst 0 (flatIns b.vtx), List.filterMap_map]
  exact List.filterMap_congr hentry

/-- The script hashes of the record are those that the block touches. -/
theorem mem_hashX_iff (h : Connected H opts ix b ppb ch) {hx : HashX} :
    hx ∈ ch.hashXAggregated ↔ hx ∈ touchedHashes H ix b := by
  have hspent : (∃ sp ∈ ch.spends, sp.fromEarlierBlock ppb.height = true ∧ sp.info.hashX = hx) ↔
      hx ∈ ((spentInfos ix b).filter fun info =>
        info.confirmedHeight.any (· != ix.headers.length)).map TXOInfo.hashX := by
    rw [← h.spends_eq, List.filter_map, List.map_map, List.mem_map]
    simp only [List.mem_filter, Function.comp_apply, Spend.fromEarlierBlock, h.height, and_assoc]
  have hfunded : (∃ i, Touches H b.vtx hx i) ↔
      hx ∈ (spendableOuts b).map fun e => H.hashXFromCScript e.2.2.scriptPubKey := by
    rw [List.mem_map]
    constructor
    · rintro ⟨i, tx, htx, ⟨out, hout, hop, rfl⟩ | ⟨input, -, out, hspends, hop, rfl⟩⟩
      · obtain ⟨n, hn⟩ := List.mem_iff_getElem?.mp hout
        exact ⟨(i, n, out), mem_spendableOuts.mpr ⟨⟨tx, htx, hn⟩, hop⟩, rfl⟩
      · obtain ⟨k, ptx, -, hptx, hn⟩ := hspends
        exact ⟨(k, _, out), mem_spendableOuts.mpr ⟨⟨ptx, hptx, hn⟩, hop⟩, rfl⟩
    · rintro ⟨⟨i, n, out⟩, he, rfl⟩
      obtain ⟨⟨tx, htx, hn⟩, hop⟩ := mem_spendableOuts.mp he
      exact ⟨i, tx, htx, .inl ⟨out, List.mem_of_getElem? hn, hop, rfl⟩⟩
  rw [touchedHashes, List.mem_append, ← hfunded, ← hspent]
  constructor
  · intro hmem
    obtain ⟨i, htouch | ⟨sp, hsp, hearlier, hhx, -⟩⟩ := h.changes.agg.present hx hmem
    · exact .inl ⟨i, htouch⟩
    · exact .inr ⟨sp, hsp, hearlier, hhx⟩
  · rintro (⟨i, htouch⟩ | ⟨sp, hsp, hearlier, hhx⟩)
    · exact h.changes.agg.mem_of_touch (.inl htouch)
    · exact h.changes.agg.mem_of_touch (.inr ⟨sp, hsp, hearlier, hhx, rfl⟩)

/-- The size of the record of a block. -/
theorem recordSize_eq (h : Connected H opts ix b ppb ch) :
    recordSize (undoOf H ix ppb ch) = undoSize H ix b := by
  have hhashes : (undoOf H ix ppb ch).scriptHashes.length =
      (touchedHashes H ix b).dedup.length := by
    refine List.Perm.length_eq ((List.perm_ext_iff_of_nodup Std.ExtTreeMap.nodup_keys
      (List.nodup_dedup _)).mpr fun hx => ?_)
    rw [List.mem_dedup, ← h.mem_hashX_iff]
    exact Std.ExtTreeMap.mem_keys
  have hadds : (undoOf H ix ppb ch).addUndos.length = (createdOuts b).length := by
    have hperm := h.adds_perm.length_eq
    rw [List.length_map] at hperm
    rw [← hperm]
    exact List.length_map _
  have hdels : ((undoOf H ix ppb ch).delUndos.map fun d => delUndoSize d.2) =
      (spentInfos ix b).map delUndoSize := by
    rw [← h.spends_eq, List.map_map]
    exact List.map_map
  rw [recordSize, hhashes, hadds, hdels, undoSize]

/-- The size of a row after a block. -/
theorem length_rowBytes (h : Connected H opts ix b ppb ch) (key : BitVec 48) :
    (rowBytes (nextIndex opts ix ppb ch).txhash2txnum key).length = rowSize ix b key := by
  have hrow : bucketOf ppb.txInfos ix.txNumNext key = blockRow ix b key := by
    have hleft : (ppb.txInfos.map TxInfo.hash).zipIdx ix.txNumNext =
        (ppb.txInfos.zipIdx ix.txNumNext).map fun e => (e.1.hash, e.2) := List.zipIdx_map
    have hright : (b.vtx.map CTransaction.hash).zipIdx ix.txNumNext =
        (b.vtx.zipIdx ix.txNumNext).map fun e => (e.1.hash, e.2) := List.zipIdx_map
    rw [h.prepared.hashes, hright] at hleft
    have hcut := congrArg (fun l => (l.filter fun e : TxHash × Nat =>
      decide (makeKeyFromHash e.1 = key)).map Prod.snd) hleft.symm
    simp only [List.filter_map, List.map_map] at hcut
    exact hcut
  have hget : (nextIndex opts ix ppb ch).txhash2txnum[key]? = _ :=
    get_insertForBlock ix.txhash2txnum ix.txNumNext ppb.txInfos key
  rw [rowBytes, hget, rowSize, ← hrow]
  split_ifs with hempty
  · rw [List.isEmpty_iff.mp hempty, List.append_nil]
  · rfl

/-- What an undo of the block reads is short enough. -/
theorem readable_iff (h : Connected H opts ix b ppb ch) (hw : WellFormed ix) :
    (serialize (undoOf H ix ppb ch)).length < 2 ^ 31 ∧
        RowsFit (nextIndex opts ix ppb ch) ix.txNumNext ↔
      undoSize H ix b < 2 ^ 31 ∧
        ∀ tx ∈ b.vtx, rowSize ix b (makeKeyFromHash tx.hash) < 2 ^ 31 := by
  rw [length_serialize_eq, h.recordSize_eq, h.rowsFit_iff hw]
  simp only [h.length_rowBytes]

/-- The same of the block at the tip of a run that has saved its record. -/
theorem readable_concat_iff (h : Connected H opts ix b ppb ch) (hw : WellFormed ix) {s : State}
    {blocks : List CBlock} (hindex : s.index = nextIndex opts ix ppb ch)
    (hlen : blocks.length = ppb.height)
    (hrecord : s.undo[ppb.height]? = some (undoOf H ix ppb ch)) :
    Readable { state := s, blocks := blocks ++ [b] } ppb.height ↔
      undoSize H ix b < 2 ^ 31 ∧
        ∀ tx ∈ b.vtx, rowSize ix b (makeKeyFromHash tx.hash) < 2 ^ 31 := by
  have hlast : (blocks ++ [b])[ppb.height]? = some b := by
    rw [get_concat, if_pos hlen.symm]
  rw [← h.readable_iff hw, h.rowsFit_iff hw, ← hindex]
  constructor
  · intro hread
    exact ⟨hread.record _ hrecord, hread.rows b hlast⟩
  · rintro ⟨hlength, hrows⟩
    refine ⟨fun u hu => ?_, fun b' hb' => ?_⟩
    · rw [hrecord] at hu
      cases hu
      exact hlength
    · rw [hlast] at hb'
      cases hb'
      exact hrows

end ChainIndex.Connected
end Size

/--
In every state of a run, a block that can come next is accepted.  Undoing it
restores all tables and all values in memory that describe the chain exactly if
its record and the rows of its ids have less than two gibibytes.
-/
theorem undoLatestBlock_addBlock {r : ChainRun} {b : CBlock}
    {rpaTask : Option (List CTransaction → Except Exception (List UInt8))}
    (hr : Reachable ChainRun.Start (ChainStep H opts fun _ _ => True) r)
    (hb : Extends H opts r.state.index b) (hrpa : ∀ work ∈ rpaTask, ∃ ser, work b.vtx = .ok ser)
    (blockHash : Hash) (blockSize : Nat) (notifySubs trackRecent notifyUndo : Bool) :
    ∃ ppb, fill H r.state.index.headers.length rpaTask blockHash blockSize b = .ok ppb ∧
      ∃ s' notify, addBlock H opts r.state ppb true notifySubs trackRecent = .ok s' notify ∧
        ((∃ u, undoLatestBlock H s' notifyUndo = .ok u ∧ u.state.index = r.state.index) ↔
          undoSize H r.state.index b < 2 ^ 31 ∧
            ∀ tx ∈ b.vtx, rowSize r.state.index b (makeKeyFromHash tx.hash) < 2 ^ 31) := by
  have hw := (sound_of_reachable hr).wellFormed
  obtain ⟨ppb, ch, s', notify, hfill, hadd, hc, hindex, hundo⟩ :=
    hb.accepted hr hrpa blockHash blockSize true notifySubs trackRecent
  refine ⟨ppb, hfill, s', notify, hadd, ?_⟩
  rw [undo_connected_iff _ notifyUndo hw hb hc hindex hundo, hc.readable_iff hw]
  exact and_iff_left rfl

section SmallChain

open Mempool

/-- The second block, in which an output is spent before it is created. -/
theorem undoLatestBlock_addBlock_second :
    Reachable ChainRun.Start (ChainStep opTrueHashers {} fun _ _ => True)
        { state := firstState, blocks := [firstBlock] } ∧
      ∃ ppb, fill opTrueHashers 1 none 0 300 (secondBlock 0) = .ok ppb ∧
        ∃ s' notify, addBlock opTrueHashers {} firstState ppb true true false = .ok s' notify ∧
          ∃ u, undoLatestBlock opTrueHashers s' true = .ok u ∧
            u.state.index = firstState.index := by
  have hr := reachable_firstState (fun _ _ => True) trivial
  have hrpa : ∀ work ∈ (none : Option (List CTransaction → Except Exception (List UInt8))),
      ∃ ser, work (secondBlock 0).vtx = .ok ser := by simp
  obtain ⟨ppb, hfill, s', notify, hadd, hundo⟩ :=
    undoLatestBlock_addBlock hr extends_secondBlock hrpa 0 300 true false true
  exact ⟨hr, ppb, hfill, s', notify, hadd, hundo.mpr ⟨by decide, by decide⟩⟩

/-- The second block is accepted and can be undone. -/
theorem exists_undone_second : ∃ (s : State) (notify : Option NotifyData) (u : Undone),
    addBlock opTrueHashers {} firstState (prepared 1 (secondBlock 0)) true false false =
        .ok s notify ∧
      undoLatestBlock opTrueHashers s true = .ok u ∧ u.prevHeight = 0 ∧
      u.state.index = firstState.index := by
  have hr := reachable_firstState (fun _ _ => True) trivial
  have hw := (sound_of_reachable hr).wellFormed
  have hrpa : ∀ work ∈ (none : Option (List CTransaction → Except Exception (List UInt8))),
      ∃ ser, work (secondBlock 0).vtx = .ok ser := by simp
  obtain ⟨ppb, ch, s, notify, hfill, hadd, hc, hindex, hundo⟩ :=
    extends_secondBlock.accepted hr hrpa 0 100 true false false
  have hprepared : fill opTrueHashers 1 none 0 100 (secondBlock 0) =
      .ok (prepared 1 (secondBlock 0)) := rfl
  obtain rfl : ppb = prepared 1 (secondBlock 0) :=
    Except.ok.inj (hfill.symm.trans hprepared)
  obtain ⟨u, hu, hsame⟩ := (undo_connected_iff _ true hw extends_secondBlock hc hindex hundo).mpr
    ⟨(hc.readable_iff hw).mpr ⟨by decide, by decide⟩, rfl⟩
  obtain ⟨-, -, hv, -⟩ := undoLatestBlock_eq_ok hu
  have hheight : s.index.headerVerifier.prevHeight =
      firstState.index.headerVerifier.prevHeight + 1 := by rw [hindex]; rfl
  have hfirst : firstState.index.headerVerifier.prevHeight = 0 := rfl
  exact ⟨s, notify, u, hadd, hu, by omega, hsame⟩

/-- A block with two transactions of `n` outputs each; the second spends an earlier block. -/
def wideBlock (header : BTC.CBlockHeader) (cbId id prevId : TxHash) (n : Nat)
    (h : cbId ≠ 0 ∧ id ≠ 0) : CBlock where
  header := header
  vtx :=
    [{ coinbaseTx cbId with vout := List.replicate n ⟨0, [], none⟩ },
      { hash := id, vin := [{ prevout := ⟨prevId, 0⟩ }], vout := List.replicate n ⟨0, [], none⟩ }]
  coinbase := rfl
  hash_ne_null := by simpa [coinbaseTx] using h

section Wide

variable {ix : ChainIndex} {header : BTC.CBlockHeader} {cbId id prevId : TxHash} {n : Nat}
  {h : cbId ≠ 0 ∧ id ≠ 0}

theorem extends_wideBlock (hnull : header.isNull = false)
    (hlinks : ∃ tip, ix.headers.getLast? = some tip ∧
      H.headerPoWHash (BTC.trimHeaderRecord tip) = header.hashPrevBlock)
    (hlen : header.serialize.length ≤ opts.blockHeaderSize) (hheight : ix.headers.length ≤ intMax)
    (hspent : (⟨prevId, 0⟩ : TXO) ∈ ix.utxos.utxoset) (hne : cbId ≠ id)
    (hnew : cbId ∉ ix.txNums ∧ id ∉ ix.txNums) (hn : n ≤ ioNumMax + 1)
    (hfits : ix.txNumNext + 2 ≤ txNumMax + 1) :
    Extends H opts ix (wideBlock header cbId id prevId n h) := by
  refine ⟨hnull, hlinks, hlen, hheight, ?_, ?_, ?_, ?_, hfits⟩
  · intro i tx hpos htx input hin
    match i, hpos with
    | 1, _ =>
        cases htx
        rw [List.mem_singleton.mp hin]
        exact .inl hspent
    | i + 2, _ => cases htx
  · have hnodup : ((wideBlock header cbId id prevId n h).vtx.map CTransaction.hash).Nodup := by
      simpa [wideBlock, coinbaseTx] using hne
    intro tx htx tx' htx' heq
    exact List.inj_on_of_nodup_map hnodup htx htx' heq
  · simpa [wideBlock, coinbaseTx] using hnew
  · simpa [wideBlock] using hn

/-- The block spends none of its outputs. -/
theorem not_spentInBlock_wideBlock (hprev : prevId ≠ cbId ∧ prevId ≠ id) (i k : Nat) :
    ¬ SpentInBlock (wideBlock header cbId id prevId n h).vtx i k := by
  rintro ⟨tx, htx, input, hin, hidx, -⟩
  obtain ⟨ptx, hptx, hhash⟩ := get_of_lastIdx hidx
  have hid : ptx.hash = cbId ∨ ptx.hash = id := by
    have hmem := List.mem_of_getElem? hptx
    simp only [wideBlock, coinbaseTx, List.mem_cons, List.not_mem_nil, or_false] at hmem
    rcases hmem with rfl | rfl
    · exact .inl rfl
    · exact .inr rfl
  have hparent : input.prevout.txHash = 0 ∨ input.prevout.txHash = prevId := by
    simp only [wideBlock, coinbaseTx, List.mem_cons, List.not_mem_nil, or_false] at htx
    rcases htx with rfl | rfl
    · rw [List.mem_singleton.mp hin]
      exact .inl rfl
    · rw [List.mem_singleton.mp hin]
      exact .inr rfl
  rw [hhash] at hid
  rcases hparent with hnull | hspent
  · rw [hnull] at hid
    exact hid.elim (fun heq => h.1 heq.symm) fun heq => h.2 heq.symm
  · rw [hspent] at hid
    exact hid.elim hprev.1 hprev.2

/-- All outputs of the block come to the UTXO set. -/
theorem length_createdOuts_wideBlock (hprev : prevId ≠ cbId ∧ prevId ≠ id) :
    (createdOuts (wideBlock header cbId id prevId n h)).length = 2 * n := by
  have hall : ∀ e ∈ flatOuts (wideBlock header cbId id prevId n h).vtx,
      e.2.2 = ⟨0, [], none⟩ := by
    rintro ⟨i, k, out⟩ he
    obtain ⟨tx, htx, hk⟩ := mem_flat.mp he
    have hout := List.mem_of_getElem? hk
    have hmem := List.mem_of_getElem? htx
    simp only [wideBlock, List.mem_cons, List.not_mem_nil, or_false] at hmem
    rcases hmem with rfl | rfl
    · exact List.eq_of_mem_replicate hout
    · exact List.eq_of_mem_replicate hout
  have hflat : (flatOuts (wideBlock header cbId id prevId n h).vtx).length = 2 * n := by
    have hmap := congrArg List.length (map_flat_eq_flatMap (f := CTransaction.vout)
      (l := (wideBlock header cbId id prevId n h).vtx))
    rw [List.length_map] at hmap
    rw [flatOuts, hmap]
    simp only [wideBlock, List.flatMap_cons, List.flatMap_nil, List.append_nil,
      List.length_append, List.length_replicate]
    omega
  rw [createdOuts, spendableOuts, List.filter_eq_self.mpr, List.filter_eq_self.mpr, hflat]
  · intro e he
    rw [hall e he]
    rfl
  · intro e _
    simpa using not_spentInBlock_wideBlock hprev e.1 e.2.1

/-- A block of 28.4 million outputs has a record of two gibibytes. -/
theorem le_undoSize_wideBlock (H : Hashers) (ix : ChainIndex)
    (hprev : prevId ≠ cbId ∧ prevId ≠ id) :
    2 ^ 31 ≤ undoSize H ix (wideBlock header cbId id prevId 14200000 h) := by
  rw [undoSize, length_createdOuts_wideBlock hprev]
  omega

end Wide

/-- A block after the first one that spends it, of about 256 megabytes. -/
def wideSecond : CBlock := wideBlock (plainHeader 0) 8 7 9 14200000 (by decide)

/-- The record of two gibibytes is saved, and cannot be read back to undo the block. -/
theorem undoLatestBlock_addBlock_wide :
    Reachable ChainRun.Start (ChainStep opTrueHashers {} fun _ _ => True)
        { state := firstState, blocks := [firstBlock] } ∧
      Extends opTrueHashers {} firstState.index wideSecond ∧
        ∃ ppb, fill opTrueHashers 1 none 0 300 wideSecond = .ok ppb ∧
          ∃ s' notify, addBlock opTrueHashers {} firstState ppb true true false = .ok s' notify ∧
            ∀ u, undoLatestBlock opTrueHashers s' true ≠ .ok u := by
  have hr := reachable_firstState (fun _ _ => True) trivial
  have hb : Extends opTrueHashers {} firstState.index wideSecond :=
    extends_wideBlock rfl ⟨_, rfl, rfl⟩ (by decide) (by decide)
      (mem_iff_getElem?.mpr ⟨_, rfl⟩) (by decide) (by decide) (by decide) (by decide)
  have hrpa : ∀ work ∈ (none : Option (List CTransaction → Except Exception (List UInt8))),
      ∃ ser, work wideSecond.vtx = .ok ser := by simp
  have hw := (sound_of_reachable hr).wellFormed
  obtain ⟨ppb, ch, s', notify, hfill, hadd, hc, hindex, hundo⟩ :=
    hb.accepted hr hrpa 0 300 true true false
  refine ⟨hr, hb, ppb, hfill, s', notify, hadd, fun u hu => ?_⟩
  have hread := (undo_connected_iff u.state.index true hw hb hc hindex hundo).mp ⟨u, hu, rfl⟩
  have hsize := ((hc.readable_iff hw).mp hread.1).1
  have hle : 2 ^ 31 ≤ undoSize opTrueHashers firstState.index wideSecond :=
    le_undoSize_wideBlock _ _ (by decide)
  exact absurd hsize (not_lt.mpr hle)

end SmallChain

end Storage
end Shulcrum
