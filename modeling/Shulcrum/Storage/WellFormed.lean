import Shulcrum.Storage.Tables

/-!
# Well-formed indexes

What holds of the tables whatever blocks were added: the numbers in them are
those of existing transactions, the two tables of unspent outputs agree, and
the blocks partition the transaction numbers.  No block needs to be valid for
this; even a transaction id may occur twice.

**Results.**
* `WellFormed.connect`: adding a block keeps an index well formed.
-/

namespace Shulcrum
namespace Storage

open TreeMap Flatten PreProcessedBlock

namespace ChainIndex

/-- What the tables say about each other. -/
structure WellFormed (ix : ChainIndex) : Prop where
  txNums_length : ix.txNums.length = ix.txNumNext
  txNum_le : ix.txNumNext ≤ txNumMax + 1
  shist : ∀ (hx : HashX) (l : List Nat), ix.shist[hx]? = some l →
    l ≠ [] ∧ l.Pairwise (· < ·) ∧ ∀ n ∈ l, n < ix.txNumNext
  buckets : ∀ (key : BitVec 48) (l : List Nat), ix.txhash2txnum[key]? = some l →
    l ≠ [] ∧ ∀ n ∈ l, ∃ h, ix.txNums[n]? = some h ∧ makeKeyFromHash h = key
  utxo : ∀ (txo : TXO) (info : TXOInfo), ix.utxos.utxoset[txo]? = some info →
    ix.txNums[info.txNum]? = some txo.txHash ∧ txo.outN ≤ ioNumMax ∧
      ix.utxos.shunspent[shunspentKey txo info]? = some ⟨info.amount, info.tokenDataPtr⟩
  unspent : ∀ (key : ShunspentKey) (v : SHUnspentValue), ix.utxos.shunspent[key]? = some v →
    key.ctxo.txNum < ix.txNumNext
  blkInfos : ∀ (h : Nat) (bi : BlkInfo), ix.blkInfos[h]? = some bi →
    0 < bi.nTx ∧ bi.txNum0 = ((ix.blkInfos.take h).map BlkInfo.nTx).sum
  txNumNext : ix.txNumNext = (ix.blkInfos.map BlkInfo.nTx).sum
  byTxNum : ∀ (t h : Nat), ix.blkInfosByTxNum[t]? = some h ↔
    ∃ bi, ix.blkInfos[h]? = some bi ∧ bi.txNum0 = t
  blkinfo : ∀ h : Nat, ix.blkinfo[h]? = ix.blkInfos[h]?
  headers_length : ix.headers.length = ix.blkInfos.length
  verifier : ix.headerVerifier =
    { prevHeight := (ix.headers.length : Int) - 1
      prev := (ix.headers.getLast?.map BTC.trimHeaderRecord).getD [] }

/-- A block that `addBlock` accepts, with what it collects on the way. -/
structure Connected (H : Hashers) (opts : Options) (ix : ChainIndex) (b : CBlock)
    (ppb : PreProcessedBlock) (ch : BlockChanges) : Prop where
  prepared : Prepared H b ppb
  changes : Changes H ix b ppb ch
  height : ppb.height = ix.headers.length
  header_le : b.header.serialize.length ≤ opts.blockHeaderSize
  fits : ix.txNumNext + b.vtx.length ≤ txNumMax + 1

/-- The index after a block. -/
def nextIndex (opts : Options) (ix : ChainIndex) (ppb : PreProcessedBlock) (ch : BlockChanges) :
    ChainIndex :=
  ix.writeBlock
    { prevHeight := ix.headerVerifier.prevHeight + 1, prev := ppb.header.serialize } ppb ch
    (ix.headers ++ [BTC.padHeaderRecord opts.blockHeaderSize ppb.header.serialize])

/-- What a successful call of `connectBlock` has done. -/
theorem connectBlock_eq_ok {H : Hashers} {opts : Options} {ix ix' : ChainIndex}
    {v : BTC.HeaderVerifier} {ppb : PreProcessedBlock} {u : UndoInfo}
    (hv : ix.headerVerifier.verify H.headerPoWHash ppb.header = .ok v)
    (h : connectBlock H opts ix v ppb = .ok (ix', u)) :
    ∃ ch, blockChanges ix ppb = .ok ch ∧ ppb.height = ix.headers.length ∧
      ppb.header.serialize.length ≤ opts.blockHeaderSize ∧
      ix' = nextIndex opts ix ppb ch ∧ u = undoInfo H ix ppb ppb.header.serialize ch := by
  obtain rfl := BTC.HeaderVerifier.verify_ok hv
  simp only [connectBlock] at h
  split_ifs at h
  cases hch : blockChanges ix ppb with
  | error e =>
      rw [hch] at h
      cases h
  | ok ch =>
      rw [hch] at h
      simp only [appendHeader] at h
      by_cases hheight : ppb.height = ix.headers.length
      · by_cases hlen : ppb.header.serialize.length > opts.blockHeaderSize
        · rw [if_neg (not_not.mpr hheight), if_pos hlen] at h
          cases h
        · rw [if_neg (not_not.mpr hheight), if_neg hlen] at h
          cases h
          exact ⟨ch, rfl, hheight, not_lt.mp hlen, rfl, rfl⟩
      · rw [if_pos hheight] at h
        cases h

/-- A block with the right height and a header of the right size is written. -/
theorem connectBlock_ok {H : Hashers} {opts : Options} {ix : ChainIndex}
    {v : BTC.HeaderVerifier} {ppb : PreProcessedBlock} {ch : BlockChanges}
    (hv : ix.headerVerifier.verify H.headerPoWHash ppb.header = .ok v)
    (hch : blockChanges ix ppb = .ok ch) (hnums : ix.txNums.length = ix.txNumNext)
    (hheight : ppb.height = ix.headers.length)
    (hlen : ppb.header.serialize.length ≤ opts.blockHeaderSize) :
    connectBlock H opts ix v ppb =
      .ok (nextIndex opts ix ppb ch, undoInfo H ix ppb ppb.header.serialize ch) := by
  obtain rfl := BTC.HeaderVerifier.verify_ok hv
  have hsame : ¬ ix.txNumNext + ppb.txInfos.length ≠ ix.txNums.length + ppb.txInfos.length := by
    rw [hnums]
    simp
  simp only [connectBlock]
  rw [if_neg hsame, hch]
  simp only [appendHeader]
  rw [if_neg (not_not.mpr hheight), if_neg (not_lt.mpr hlen)]
  rfl

section Facts

variable {H : Hashers} {opts : Options} {ix : ChainIndex} {b : CBlock} {ppb : PreProcessedBlock}
  {ch : BlockChanges}

theorem WellFormed.history (h : WellFormed ix) (hx : HashX) :
    (ix.shist[hx]?.getD []).Pairwise (· < ·) ∧ ∀ n ∈ ix.shist[hx]?.getD [], n < ix.txNumNext := by
  cases hget : ix.shist[hx]? with
  | none => simp
  | some l => exact (h.shist hx l hget).2

theorem WellFormed.utxo_txNum_lt (h : WellFormed ix) {txo : TXO} {info : TXOInfo}
    (hget : ix.utxos.utxoset[txo]? = some info) : info.txNum < ix.txNumNext := by
  obtain ⟨hlt, -⟩ := List.getElem?_eq_some_iff.mp (h.utxo txo info hget).1
  rwa [h.txNums_length] at hlt

/-- An output is determined by its transaction number and index. -/
theorem txo_eq_of_key {txNums : List TxHash} {txo txo' : TXO} {info info' : TXOInfo}
    (hnum : txNums[info.txNum]? = some txo.txHash) (hnum' : txNums[info'.txNum]? = some txo'.txHash)
    (hle : txNums.length ≤ txNumMax + 1) (hN : txo.outN ≤ ioNumMax) (hN' : txo'.outN ≤ ioNumMax)
    (heq : shunspentKey txo info = shunspentKey txo' info') : txo = txo' := by
  obtain ⟨hlt, -⟩ := List.getElem?_eq_some_iff.mp hnum
  obtain ⟨hlt', -⟩ := List.getElem?_eq_some_iff.mp hnum'
  have hctxo : CompactTXO.make info.txNum txo.outN = CompactTXO.make info'.txNum txo'.outN :=
    congrArg ShunspentKey.ctxo heq
  have htx := congrArg CompactTXO.txNum hctxo
  rw [make_txNum (by omega), make_txNum (by omega)] at htx
  have hn := congrArg CompactTXO.n hctxo
  rw [make_n hN, make_n hN'] at hn
  rw [htx, hnum'] at hnum
  obtain ⟨h1, n1⟩ := txo
  obtain ⟨h2, n2⟩ := txo'
  simp only [Option.some.injEq] at hnum hn
  rw [hnum, hn]

theorem sum_take_concat {l : List BlkInfo} {k m : Nat} {bi : BlkInfo} (hget : l[k]? = some bi)
    (hkm : k < m) :
    ((l.take k).map BlkInfo.nTx).sum + bi.nTx ≤ ((l.take m).map BlkInfo.nTx).sum := by
  obtain ⟨hlt, rfl⟩ := List.getElem?_eq_some_iff.mp hget
  have hsplit := List.take_append_drop (k + 1) (l.take m)
  rw [List.take_take, min_eq_left hkm, List.take_succ_eq_append_getElem hlt] at hsplit
  rw [← hsplit]
  simp only [List.map_append, List.map_cons, List.map_nil, List.sum_append, List.sum_cons,
    List.sum_nil]
  omega

/-- A block ends before any later block starts. -/
theorem WellFormed.blkInfo_le_take (h : WellFormed ix) {k m : Nat} {bi : BlkInfo}
    (hget : ix.blkInfos[k]? = some bi) (hkm : k < m) :
    bi.txNum0 + bi.nTx ≤ ((ix.blkInfos.take m).map BlkInfo.nTx).sum := by
  rw [(h.blkInfos k bi hget).2]
  exact sum_take_concat hget hkm

/-- Every block ends before the next free number. -/
theorem WellFormed.blkInfo_le (h : WellFormed ix) {k : Nat} {bi : BlkInfo}
    (hget : ix.blkInfos[k]? = some bi) : bi.txNum0 + bi.nTx ≤ ix.txNumNext := by
  have hle := h.blkInfo_le_take hget (List.getElem?_eq_some_iff.mp hget).1
  rwa [List.take_length, ← h.txNumNext] at hle

namespace Connected

theorem nTx (h : Connected H opts ix b ppb ch) : ppb.txInfos.length = b.vtx.length := by
  have hlen := congrArg List.length h.prepared.hashes
  simpa using hlen

theorem nTx_pos (h : Connected H opts ix b ppb ch) : 0 < ppb.txInfos.length := by
  obtain ⟨cb, cin, rest, hv, -⟩ := exists_coinbase b
  rw [h.nTx, hv]
  simp

theorem hash_of_get (h : Connected H opts ix b ppb ch) {i : Nat} {tx : CTransaction}
    (htx : b.vtx[i]? = some tx) : (ppb.txInfos.map TxInfo.hash)[i]? = some tx.hash := by
  rw [h.prepared.hashes, List.getElem?_map, htx]
  rfl

/-- The numbers that the block appends to the history of a script hash. -/
theorem mem_txNums (h : Connected H opts ix b ppb ch) {hx : HashX} {a : AggregatedOutsIns}
    (hget : ch.hashXAggregated[hx]? = some a) :
    (∀ i ∈ a.txNumsInvolvingHashX, i < ppb.txInfos.length) ∧ a.txNumsInvolvingHashX ≠ [] ∧
      a.txNumsInvolvingHashX.Pairwise (· < ·) := by
  have hagg : ch.hashXAggregated.agg hx = a := HashXAggregated.agg_of_get hget
  have htouch := h.changes.agg.touched hx
  rw [hagg] at htouch
  refine ⟨fun i hi => ?_, ?_, ?_⟩
  · rw [h.nTx]
    rcases (htouch i).mp hi with ⟨tx, htx, -⟩ | ⟨sp, hsp, -, -, rfl⟩
    · exact (List.getElem?_eq_some_iff.mp htx).1
    · obtain ⟨input, ⟨-, ⟨tx, htx, -⟩, -⟩, -⟩ := h.changes.mem_spends sp hsp
      exact (List.getElem?_eq_some_iff.mp htx).1
  · obtain ⟨i, hi⟩ := h.changes.agg.present hx (mem_iff_getElem?.mpr ⟨a, hget⟩)
    intro hnil
    have hmem := (htouch i).mpr hi
    rw [hnil] at hmem
    cases hmem
  · have hsorted := h.changes.sorted hx
    rwa [hagg] at hsorted

/-- The transaction numbers of a block fit their six bytes. -/
theorem compact_eq (h : Connected H opts ix b ppb ch) {i : Nat} (hi : i < ppb.txInfos.length) :
    compactTxNum (i + ix.txNumNext) = i + ix.txNumNext := by
  have hfits := h.fits
  rw [← h.nTx] at hfits
  exact compactTxNum_of_le (by omega)

theorem get_shist (h : Connected H opts ix b ppb ch) (hx : HashX) :
    (nextIndex opts ix ppb ch).shist[hx]? =
      ch.hashXAggregated[hx]?.elim ix.shist[hx]? fun a =>
        some (ix.shist[hx]?.getD [] ++ a.txNumsInvolvingHashX.map (· + ix.txNumNext)) := by
  have hget : (nextIndex opts ix ppb ch).shist[hx]? = _ :=
    get_appendHistory ix.shist ix.txNumNext ch.hashXAggregated hx
  rw [hget]
  cases ha : ch.hashXAggregated[hx]? with
  | none => rfl
  | some a =>
      simp only [Option.elim_some]
      congr 2
      refine List.map_congr_left fun i hi => ?_
      exact h.compact_eq ((h.mem_txNums ha).1 i hi)

/-- A new output: its number, and where the number is found. -/
theorem of_mem_adds (h : Connected H opts ix b ppb ch) {e : TXO × TXOInfo} (he : e ∈ ch.adds) :
    ∃ i, i < ppb.txInfos.length ∧ e.2.txNum = ix.txNumNext + i ∧ e.2.txNum ≤ txNumMax ∧
      e.1.outN ≤ ioNumMax ∧ (ppb.txInfos.map TxInfo.hash)[i]? = some e.1.txHash := by
  obtain ⟨i, n, out, tx, hx, htx, hn, -, -, rfl⟩ := (h.changes.mem_adds e).mp he
  have hi : i < ppb.txInfos.length := by
    rw [h.nTx]
    exact (List.getElem?_eq_some_iff.mp htx).1
  have hfits := h.fits
  rw [← h.nTx] at hfits
  have hlt := (List.getElem?_eq_some_iff.mp hn).1
  have hle := h.prepared.outN tx (List.mem_of_getElem? htx)
  refine ⟨i, hi, rfl, ?_, ?_, h.hash_of_get htx⟩
  · simp only [outInfo]
    omega
  · simp only
    omega

/-- Two new outputs with the same key are the same output. -/
theorem adds_functional (h : Connected H opts ix b ppb ch) {e e' : TXO × TXOInfo}
    (he : e ∈ ch.adds) (he' : e' ∈ ch.adds)
    (hkey : shunspentKey e.1 e.2 = shunspentKey e'.1 e'.2) : e = e' := by
  obtain ⟨j, -, hj, hjle, hjN, -⟩ := h.of_mem_adds he
  obtain ⟨j', -, hj', hjle', hjN', -⟩ := h.of_mem_adds he'
  obtain ⟨i, n, out, tx, hx, htx, hn, -, -, rfl⟩ := (h.changes.mem_adds e).mp he
  obtain ⟨i', n', out', tx', hx', htx', hn', -, -, rfl⟩ := (h.changes.mem_adds e').mp he'
  have hhx : hx = hx' := congrArg ShunspentKey.hashX hkey
  have hnum := congrArg (fun k => k.ctxo.txNum) hkey
  have hout := congrArg (fun k => k.ctxo.n) hkey
  simp only [shunspentKey] at hnum hout
  rw [make_txNum hjle, make_txNum hjle'] at hnum
  rw [make_n hjN, make_n hjN'] at hout
  simp only [outInfo] at hnum
  obtain rfl : i = i' := by omega
  simp only at hout
  subst hout
  subst hhx
  rw [htx] at htx'
  cases htx'
  rw [hn] at hn'
  cases hn'
  rfl

/-- A spent output is an entry of the UTXO set, with a smaller number than those of the block. -/
theorem of_mem_spends (h : Connected H opts ix b ppb ch) {sp : Spend} (hsp : sp ∈ ch.spends) :
    ix.utxos.utxoset[sp.txo]? = some sp.info := by
  obtain ⟨-, -, -, hget⟩ := h.changes.mem_spends sp hsp
  exact hget

theorem add_key_txNum (h : Connected H opts ix b ppb ch) {e : TXO × TXOInfo} (he : e ∈ ch.adds) :
    ix.txNumNext ≤ (shunspentKey e.1 e.2).ctxo.txNum ∧
      (shunspentKey e.1 e.2).ctxo.txNum < ix.txNumNext + ppb.txInfos.length := by
  obtain ⟨i, hi, hnum, hle, -, -⟩ := h.of_mem_adds he
  simp only [shunspentKey]
  rw [make_txNum hle, hnum]
  omega

theorem spend_key_txNum (h : Connected H opts ix b ppb ch) (hw : WellFormed ix) {sp : Spend}
    (hsp : sp ∈ ch.spends) : (shunspentKey sp.txo sp.info).ctxo.txNum < ix.txNumNext := by
  have hlt := hw.utxo_txNum_lt (h.of_mem_spends hsp)
  have hle := hw.txNum_le
  simp only [shunspentKey]
  rw [make_txNum (by omega)]
  exact hlt

/-- The UTXO set after a block. -/
theorem get_utxoset (h : Connected H opts ix b ppb ch) {txo : TXO} {info : TXOInfo}
    (hget : (nextIndex opts ix ppb ch).utxos.utxoset[txo]? = some info) :
    (∀ sp ∈ ch.spends, sp.txo ≠ txo) ∧
      ((txo, info) ∈ ch.adds ∨
        (ix.utxos.utxoset[txo]? = some info ∧ ∀ e ∈ ch.adds, e.1 ≠ txo)) := by
  obtain ⟨hfold, hspent⟩ := get_applyUtxos.mp hget
  refine ⟨hspent, ?_⟩
  rcases get_foldl_insert (l := ch.adds) Prod.fst (fun e => storedInfo e.2) ix.utxos.utxoset txo
    with ⟨e, he, rfl, hlast⟩ | ⟨hnot, hold⟩
  · left
    obtain ⟨i, -, -, hle, -⟩ := h.of_mem_adds he
    rw [storedInfo_of_le hle] at hlast
    rw [hlast] at hfold
    cases hfold
    exact he
  · right
    rw [hold] at hfold
    exact ⟨hfold, hnot⟩

/-- The table `scripthash_unspent` after a block. -/
theorem get_shunspent (h : Connected H opts ix b ppb ch) (hw : WellFormed ix)
    {key : ShunspentKey} {v : SHUnspentValue} :
    (nextIndex opts ix ppb ch).utxos.shunspent[key]? = some v ↔
      (∃ e ∈ ch.adds, shunspentKey e.1 e.2 = key ∧ v = ⟨e.2.amount, e.2.tokenDataPtr⟩) ∨
        (ix.utxos.shunspent[key]? = some v ∧
          ∀ sp ∈ ch.spends, shunspentKey sp.txo sp.info ≠ key) := by
  have hlookup : (nextIndex opts ix ppb ch).utxos.shunspent[key]? = some v ↔ _ :=
    get_applyUtxos_shunspent ix.utxos ch.adds ch.spends
  rw [hlookup]
  rcases get_foldl_insert (l := ch.adds) (fun e => shunspentKey e.1 e.2)
    (fun e => (⟨e.2.amount, e.2.tokenDataPtr⟩ : SHUnspentValue)) ix.utxos.shunspent key
    with ⟨e, he, hkey, hlast⟩ | ⟨hnot, hold⟩
  · have hnum := h.add_key_txNum he
    rw [hkey] at hnum
    rw [hlast]
    constructor
    · rintro ⟨hv, -⟩
      exact .inl ⟨e, he, hkey, (Option.some.inj hv).symm⟩
    · rintro (⟨e', he', hkey', rfl⟩ | ⟨hget, -⟩)
      · rw [h.adds_functional he he' (hkey.trans hkey'.symm)]
        refine ⟨rfl, fun sp hsp heq => ?_⟩
        have hlt := h.spend_key_txNum hw hsp
        rw [heq] at hlt
        omega
      · have hlt := hw.unspent key v hget
        omega
  · rw [hold]
    constructor
    · exact .inr
    · rintro (⟨e, he, hkey, -⟩ | hrest)
      · exact absurd hkey (hnot e he)
      · exact hrest

/-- What the well-formedness of the UTXO set says after a block. -/
theorem utxo_wellFormed (h : Connected H opts ix b ppb ch) (hw : WellFormed ix) {txo : TXO}
    {info : TXOInfo} (hget : (nextIndex opts ix ppb ch).utxos.utxoset[txo]? = some info) :
    (nextIndex opts ix ppb ch).txNums[info.txNum]? = some txo.txHash ∧ txo.outN ≤ ioNumMax ∧
      (nextIndex opts ix ppb ch).utxos.shunspent[shunspentKey txo info]? =
        some ⟨info.amount, info.tokenDataPtr⟩ := by
  have hnums : (nextIndex opts ix ppb ch).txNums = ix.txNums ++ ppb.txInfos.map TxInfo.hash := rfl
  obtain ⟨hspent, hadd | ⟨hold, hnot⟩⟩ := h.get_utxoset hget
  · obtain ⟨i, hi, hnum, -, hN, hhash⟩ := h.of_mem_adds hadd
    refine ⟨?_, hN, (h.get_shunspent hw).mpr (.inl ⟨_, hadd, rfl, rfl⟩)⟩
    simp only at hnum
    rw [hnums, hnum, ← hw.txNums_length, List.getElem?_append_right (by omega),
      Nat.add_sub_cancel_left]
    exact hhash
  · obtain ⟨hnum, hN, hsh⟩ := hw.utxo txo info hold
    refine ⟨?_, hN, (h.get_shunspent hw).mpr (.inr ⟨hsh, fun sp hsp heq => ?_⟩)⟩
    · rw [hnums, List.getElem?_append_left (List.getElem?_eq_some_iff.mp hnum).1]
      exact hnum
    · obtain ⟨hnum', hN', -⟩ := hw.utxo sp.txo sp.info (h.of_mem_spends hsp)
      have hle := hw.txNum_le
      rw [← hw.txNums_length] at hle
      exact hspent sp hsp (txo_eq_of_key hnum' hnum hle hN' hN heq)

/-- Adding a block keeps an index well formed. -/
theorem wellFormed (h : Connected H opts ix b ppb ch) (hw : WellFormed ix) :
    WellFormed (nextIndex opts ix ppb ch) := by
  have hfits := h.fits
  rw [← h.nTx] at hfits
  have hnext : (nextIndex opts ix ppb ch).txNumNext = ix.txNumNext + ppb.txInfos.length := rfl
  have hinfos : (nextIndex opts ix ppb ch).blkInfos =
      ix.blkInfos ++ [⟨ix.txNumNext, ppb.txInfos.length⟩] := rfl
  have hheaders : (nextIndex opts ix ppb ch).headers =
      ix.headers ++ [BTC.padHeaderRecord opts.blockHeaderSize ppb.header.serialize] := rfl
  refine ⟨?_, ?_, ?_, ?_, fun txo info hget => h.utxo_wellFormed hw hget, ?_, ?_, ?_, ?_, ?_,
    ?_, ?_⟩
  · simp [nextIndex, writeBlock, hw.txNums_length]
  · rw [hnext]
    exact hfits
  · intro hx l hget
    rw [h.get_shist] at hget
    rw [hnext]
    cases ha : ch.hashXAggregated[hx]? with
    | none =>
        rw [ha] at hget
        obtain ⟨hne, hsorted, hlt⟩ := hw.shist hx l hget
        exact ⟨hne, hsorted, fun n hn => Nat.lt_add_right _ (hlt n hn)⟩
    | some a =>
        rw [ha] at hget
        simp only [Option.elim_some, Option.some.injEq] at hget
        subst hget
        obtain ⟨hold, hlt⟩ := hw.history hx
        obtain ⟨hbound, hne, hsorted⟩ := h.mem_txNums ha
        refine ⟨by simp [hne], ?_, ?_⟩
        · refine List.pairwise_append.mpr ⟨hold, ?_, ?_⟩
          · refine hsorted.map _ fun i j hij => ?_
            omega
          · intro n hn m hm
            obtain ⟨i, -, rfl⟩ := List.mem_map.mp hm
            have := hlt n hn
            omega
        · intro n hn
          rcases List.mem_append.mp hn with hn | hn
          · exact Nat.lt_add_right _ (hlt n hn)
          · obtain ⟨i, hi, rfl⟩ := List.mem_map.mp hn
            have := hbound i hi
            omega
  · intro key l hget
    have hlookup : (nextIndex opts ix ppb ch).txhash2txnum[key]? = _ :=
      get_insertForBlock ix.txhash2txnum ix.txNumNext ppb.txInfos key
    rw [hlookup] at hget
    have hnums : (nextIndex opts ix ppb ch).txNums = ix.txNums ++ ppb.txInfos.map TxInfo.hash := rfl
    have hold : ∀ n ∈ ix.txhash2txnum[key]?.getD [], ∃ h',
        (nextIndex opts ix ppb ch).txNums[n]? = some h' ∧ makeKeyFromHash h' = key := by
      intro n hn
      cases hb : ix.txhash2txnum[key]? with
      | none => simp [hb] at hn
      | some l' =>
          rw [hb] at hn
          obtain ⟨h', hh', hkey⟩ := (hw.buckets key l' hb).2 n hn
          refine ⟨h', ?_, hkey⟩
          rw [hnums, List.getElem?_append_left (List.getElem?_eq_some_iff.mp hh').1]
          exact hh'
    split_ifs at hget with hempty
    · obtain ⟨hne, -⟩ := hw.buckets key l hget
      rw [hget] at hold
      exact ⟨hne, hold⟩
    · cases hget
      refine ⟨?_, ?_⟩
      · intro hnil
        rw [List.append_eq_nil_iff] at hnil
        exact hempty (by rw [hnil.2]; rfl)
      · intro n hn
        rcases List.mem_append.mp hn with hn | hn
        · exact hold n hn
        · obtain ⟨i, info, hinfo, hkey, rfl⟩ := mem_bucketOf.mp hn
          refine ⟨info.hash, ?_, hkey⟩
          rw [hnums, ← hw.txNums_length, List.getElem?_append_right (by omega),
            Nat.add_sub_cancel_left, List.getElem?_map, hinfo]
          rfl
  · intro key v hget
    rw [hnext]
    rcases (h.get_shunspent hw).mp hget with ⟨e, he, rfl, -⟩ | ⟨hold, -⟩
    · exact (h.add_key_txNum he).2
    · exact Nat.lt_add_right _ (hw.unspent key v hold)
  · intro k bi hget
    rw [hinfos, get_concat] at hget
    rw [hinfos]
    split_ifs at hget with hk
    · cases hget
      subst hk
      refine ⟨h.nTx_pos, ?_⟩
      rw [List.take_left]
      exact hw.txNumNext
    · have hlt := (List.getElem?_eq_some_iff.mp hget).1
      rw [List.take_append_of_le_length hlt.le]
      exact hw.blkInfos k bi hget
  · rw [hnext, hinfos, hw.txNumNext]
    simp
  · intro t k
    have hmap : (nextIndex opts ix ppb ch).blkInfosByTxNum =
        ix.blkInfosByTxNum.insert ix.txNumNext ix.blkInfos.length := rfl
    rw [hmap, get_insert, hinfos, get_concat]
    split_ifs with ht hk hk
    · subst ht
      simp [hk]
    · -- an earlier block starts before the new one
      subst ht
      constructor
      · intro heq
        exact absurd (Option.some.inj heq).symm hk
      · rintro ⟨bi, hbi, hstart⟩
        have hle := hw.blkInfo_le hbi
        have hpos := (hw.blkInfos k bi hbi).1
        omega
    · rw [hw.byTxNum, hk]
      simp [ht]
    · exact hw.byTxNum t k
  · intro k
    have hmap : (nextIndex opts ix ppb ch).blkinfo =
        ix.blkinfo.insert ppb.height ⟨ix.txNumNext, ppb.txInfos.length⟩ := rfl
    rw [hmap, get_insert, hinfos, get_concat, h.height, hw.headers_length, hw.blkinfo]
    exact if_congr eq_comm rfl rfl
  · rw [hheaders, hinfos]
    simp [hw.headers_length]
  · have hv : (nextIndex opts ix ppb ch).headerVerifier =
        { prevHeight := ix.headerVerifier.prevHeight + 1, prev := ppb.header.serialize } := rfl
    rw [hv, hheaders, hw.verifier]
    simp [BTC.trimHeaderRecord_pad]

end Connected

theorem wellFormed_empty : WellFormed {} := by
  refine ⟨rfl, by simp, ?_, ?_, ?_, ?_, ?_, rfl, ?_, ?_, rfl, rfl⟩
  · intro hx l h
    simp at h
  · intro key l h
    simp at h
  · intro txo info h
    simp at h
  · intro key v h
    simp at h
  · intro h bi hget
    simp at hget
  · intro t h
    simp
  · intro h
    simp

end Facts

end ChainIndex
end Storage
end Shulcrum
