import Shulcrum.Storage.AddUndo

/-!
# Undo records in a run

A record may be used long after it was written: later blocks are added and
undone in between, and none of them needs to be valid.  `Recorded` says what
every record in the table still knows about the index.

**Results.**
* `Recorded.connect`, `Recorded.connectSaved`: adding a block, with or without
  a record of its own.
* `RecordOk.wellFormed_disconnect`, `Recorded.disconnect`: undoing the block at
  the tip keeps the index well formed and the other records right.
-/

namespace Shulcrum
namespace Storage

open TreeMap Flatten PreProcessedBlock

/-- The number is that of a transaction of the block. -/
def UndoInfo.InRange (u : UndoInfo) (n : Nat) : Prop :=
  u.blkInfo.txNum0 ≤ n ∧ n < u.blkInfo.txNum0 + u.blkInfo.nTx

namespace ChainIndex

/-- What the record of the block at a height says about the index. -/
structure RecordOk (ix : ChainIndex) (k : Nat) (u : UndoInfo) : Prop where
  height : u.height = k
  blkInfo : ix.blkInfos[k]? = some u.blkInfo
  shist : ∀ (hx : HashX) (l : List Nat), ix.shist[hx]? = some l →
    ∀ n ∈ l, u.InRange n → hx ∈ u.scriptHashes
  unspent : ∀ (key : ShunspentKey) (v : SHUnspentValue), ix.utxos.shunspent[key]? = some v →
    u.InRange key.ctxo.txNum → ∃ txo, (txo, key.hashX, key.ctxo) ∈ u.addUndos
  adds : ∀ a ∈ u.addUndos, u.InRange a.2.2.txNum ∧
    ix.txNums[a.2.2.txNum]? = some a.1.txHash ∧ a.1.outN = a.2.2.n
  dels : ∀ d ∈ u.delUndos, d.2.txNum < u.blkInfo.txNum0 ∧
    ix.txNums[d.2.txNum]? = some d.1.txHash ∧ d.1.outN ≤ ioNumMax
  functional : ∀ d ∈ u.delUndos, ∀ d' ∈ u.delUndos, d.1 = d'.1 → d = d'

/--
All records of the table are right, and an output that one of them restores is
among those that the record of its own block would remove.
-/
structure Recorded (ix : ChainIndex) (undo : Std.ExtTreeMap Nat UndoInfo compare) : Prop where
  records : ∀ (k : Nat) (u : UndoInfo), undo[k]? = some u → RecordOk ix k u
  links : ∀ (k : Nat) (u : UndoInfo), undo[k]? = some u → ∀ d ∈ u.delUndos,
    ∀ (k' : Nat) (u' : UndoInfo), undo[k']? = some u' → u'.InRange d.2.txNum →
      (d.1, d.2.hashX, (shunspentKey d.1 d.2).ctxo) ∈ u'.addUndos

theorem recorded_empty : Recorded {} ∅ := by
  refine ⟨?_, ?_⟩
  · intro k u h
    simp at h
  · intro k u h
    simp at h

theorem Recorded.erase {ix : ChainIndex} {undo : Std.ExtTreeMap Nat UndoInfo compare}
    (h : Recorded ix undo) (k : Nat) : Recorded ix (undo.erase k) := by
  have hsub : ∀ (k' : Nat) (u : UndoInfo), (undo.erase k)[k']? = some u → undo[k']? = some u := by
    intro k' u hget
    rw [get_erase] at hget
    split_ifs at hget
    exact hget
  refine ⟨fun k' u hget => h.records k' u (hsub k' u hget), ?_⟩
  intro k' u hget d hd k'' u' hget' hrange
  exact h.links k' u (hsub k' u hget) d hd k'' u' (hsub k'' u' hget') hrange

section Connect

variable {H : Hashers} {opts : Options} {ix : ChainIndex} {b : CBlock} {ppb : PreProcessedBlock}
  {ch : BlockChanges} {undo : Std.ExtTreeMap Nat UndoInfo compare}

theorem RecordOk.end_le {k : Nat} {u : UndoInfo} (h : RecordOk ix k u) (hw : WellFormed ix) :
    u.blkInfo.txNum0 + u.blkInfo.nTx ≤ ix.txNumNext :=
  hw.blkInfo_le h.blkInfo

/-- A record of an earlier block stays right when a block is added. -/
theorem RecordOk.connect {k : Nat} {u : UndoInfo} (hu : RecordOk ix k u) (hw : WellFormed ix)
    (h : Connected H opts ix b ppb ch) : RecordOk (nextIndex opts ix ppb ch) k u := by
  have hend := hu.end_le hw
  have hnums : (nextIndex opts ix ppb ch).txNums = ix.txNums ++ ppb.txInfos.map TxInfo.hash := rfl
  have hkeep : ∀ {n : Nat} {hash : TxHash}, ix.txNums[n]? = some hash →
      (nextIndex opts ix ppb ch).txNums[n]? = some hash := by
    intro n hash hget
    rw [hnums, List.getElem?_append_left (List.getElem?_eq_some_iff.mp hget).1]
    exact hget
  refine ⟨hu.height, ?_, ?_, ?_, ?_, ?_, hu.functional⟩
  · have hinfos : (nextIndex opts ix ppb ch).blkInfos =
        ix.blkInfos ++ [⟨ix.txNumNext, ppb.txInfos.length⟩] := rfl
    rw [hinfos, List.getElem?_append_left (List.getElem?_eq_some_iff.mp hu.blkInfo).1]
    exact hu.blkInfo
  · intro hx l hget n hn hrange
    rw [h.get_shist] at hget
    have hold : n ∈ ix.shist[hx]?.getD [] → hx ∈ u.scriptHashes := by
      intro hmem
      cases hl : ix.shist[hx]? with
      | none => simp [hl] at hmem
      | some l' =>
          rw [hl] at hmem
          exact hu.shist hx l' hl n hmem hrange
    cases ha : ch.hashXAggregated[hx]? with
    | none =>
        rw [ha] at hget
        simp only [Option.elim_none] at hget
        rw [hget] at hold
        exact hold hn
    | some a =>
        rw [ha] at hget
        simp only [Option.elim_some, Option.some.injEq] at hget
        subst hget
        rcases List.mem_append.mp hn with hn | hn
        · exact hold hn
        · obtain ⟨i, -, rfl⟩ := List.mem_map.mp hn
          have := hrange.2
          omega
  · intro key v hget hrange
    rcases (h.get_shunspent hw).mp hget with ⟨e, he, rfl, -⟩ | ⟨hold, -⟩
    · have := (h.add_key_txNum he).1
      have := hrange.2
      omega
    · exact hu.unspent key v hold hrange
  · intro a ha
    obtain ⟨hrange, hnum, hN⟩ := hu.adds a ha
    exact ⟨hrange, hkeep hnum, hN⟩
  · intro d hd
    obtain ⟨hlt, hnum, hN⟩ := hu.dels d hd
    exact ⟨hlt, hkeep hnum, hN⟩

/-- The record that is saved with a block is right. -/
theorem Connected.recordOk (h : Connected H opts ix b ppb ch) (hw : WellFormed ix) :
    RecordOk (nextIndex opts ix ppb ch) ppb.height (undoOf H ix ppb ch) := by
  have hnums : (nextIndex opts ix ppb ch).txNums = ix.txNums ++ ppb.txInfos.map TxInfo.hash := rfl
  refine ⟨rfl, ?_, ?_, ?_, ?_, ?_, ?_⟩
  · have hinfos : (nextIndex opts ix ppb ch).blkInfos =
        ix.blkInfos ++ [⟨ix.txNumNext, ppb.txInfos.length⟩] := rfl
    rw [hinfos, get_concat, h.height, hw.headers_length, if_pos rfl]
    rfl
  · intro hx l hget n hn hrange
    rw [h.get_shist] at hget
    cases ha : ch.hashXAggregated[hx]? with
    | none =>
        rw [ha] at hget
        have hlt := (hw.shist hx l hget).2.2 n hn
        have hge : ix.txNumNext ≤ n := hrange.1
        omega
    | some a => exact Std.ExtTreeMap.mem_keys.mpr (mem_iff_getElem?.mpr ⟨a, ha⟩)
  · intro key v hget hrange
    rcases (h.get_shunspent hw).mp hget with ⟨e, he, rfl, -⟩ | ⟨hold, -⟩
    · exact ⟨e.1, mem_addUndos.mpr ⟨e, he, rfl⟩⟩
    · have hlt := hw.unspent key v hold
      have hge : ix.txNumNext ≤ key.ctxo.txNum := hrange.1
      omega
  · intro a ha
    obtain ⟨e, he, rfl⟩ := mem_addUndos.mp ha
    obtain ⟨i, hi, hnum, hle, hN, hhash⟩ := h.of_mem_adds he
    refine ⟨h.add_key_txNum he, ?_, ?_⟩
    · simp only [shunspentKey]
      rw [make_txNum hle, hnum, hnums, ← hw.txNums_length,
        List.getElem?_append_right (by omega), Nat.add_sub_cancel_left]
      exact hhash
    · simp only [shunspentKey]
      rw [make_n hN]
  · intro d hd
    obtain ⟨sp, hsp, rfl⟩ := mem_delUndos.mp hd
    obtain ⟨hnum, hN, -⟩ := hw.utxo _ _ (h.of_mem_spends hsp)
    refine ⟨hw.utxo_txNum_lt (h.of_mem_spends hsp), ?_, hN⟩
    rw [hnums, List.getElem?_append_left (List.getElem?_eq_some_iff.mp hnum).1]
    exact hnum
  · intro d hd d' hd' heq
    obtain ⟨sp, hsp, rfl⟩ := mem_delUndos.mp hd
    obtain ⟨sp', hsp', rfl⟩ := mem_delUndos.mp hd'
    simp only at heq
    have hget := h.of_mem_spends hsp
    have hget' := h.of_mem_spends hsp'
    rw [heq, hget'] at hget
    rw [heq, Option.some.inj hget]

/-- The output that an entry of a record names is determined by its key. -/
theorem RecordOk.txo_of_add {k : Nat} {u : UndoInfo} (hu : RecordOk ix k u) (hw : WellFormed ix)
    {txo txo' : TXO} {info : TXOInfo} (hnum : ix.txNums[info.txNum]? = some txo.txHash)
    (hN : txo.outN ≤ ioNumMax)
    (ha : (txo', info.hashX, (shunspentKey txo info).ctxo) ∈ u.addUndos) : txo' = txo := by
  have hlt := (List.getElem?_eq_some_iff.mp hnum).1
  have hle := hw.txNum_le
  rw [hw.txNums_length] at hlt
  obtain ⟨-, hnum', hN'⟩ := hu.adds _ ha
  simp only [shunspentKey] at hnum' hN'
  rw [make_txNum (by omega), hnum] at hnum'
  rw [make_n hN] at hN'
  obtain ⟨h1, n1⟩ := txo
  obtain ⟨h2, n2⟩ := txo'
  simp only [Option.some.injEq] at hnum' hN'
  rw [hnum', hN']

theorem Recorded.connect (hr : Recorded ix undo) (hw : WellFormed ix)
    (h : Connected H opts ix b ppb ch) : Recorded (nextIndex opts ix ppb ch) undo :=
  ⟨fun k u hget => (hr.records k u hget).connect hw h, hr.links⟩

theorem Recorded.connectSaved (hr : Recorded ix undo) (hw : WellFormed ix)
    (h : Connected H opts ix b ppb ch) :
    Recorded (nextIndex opts ix ppb ch) (undo.insert ppb.height (undoOf H ix ppb ch)) := by
  have hcases : ∀ (k : Nat) (u : UndoInfo),
      (undo.insert ppb.height (undoOf H ix ppb ch))[k]? = some u →
        (k = ppb.height ∧ u = undoOf H ix ppb ch) ∨ undo[k]? = some u := by
    intro k u hget
    rw [get_insert] at hget
    split_ifs at hget with hk
    · cases hget
      exact .inl ⟨hk.symm, rfl⟩
    · exact .inr hget
  refine ⟨fun k u hget => ?_, ?_⟩
  · rcases hcases k u hget with ⟨rfl, rfl⟩ | hold
    · exact h.recordOk hw
    · exact (hr.records k u hold).connect hw h
  · intro k u hget d hd k' u' hget' hrange
    rcases hcases k u hget with ⟨rfl, rfl⟩ | hold
    · obtain ⟨sp, hsp, rfl⟩ := mem_delUndos.mp hd
      have hsp' := h.of_mem_spends hsp
      obtain ⟨hnum, hN, hsh⟩ := hw.utxo _ _ hsp'
      have hlt := hw.utxo_txNum_lt hsp'
      rcases hcases k' u' hget' with ⟨rfl, rfl⟩ | hold'
      · have hge : ix.txNumNext ≤ sp.info.txNum := hrange.1
        omega
      · have hu' := hr.records k' u' hold'
        have hkey : (shunspentKey sp.txo sp.info).ctxo.txNum = sp.info.txNum := by
          have hle := hw.txNum_le
          exact make_txNum (by omega)
        obtain ⟨txo', ha⟩ := hu'.unspent _ _ hsh (by rw [hkey]; exact hrange)
        rw [hu'.txo_of_add hw hnum hN ha] at ha
        exact ha
    · rcases hcases k' u' hget' with ⟨rfl, rfl⟩ | hold'
      · -- what an old record restores is older than the new block
        have hu := hr.records k u hold
        have hlt := (hu.dels d hd).1
        have hend := hu.end_le hw
        have hge : ix.txNumNext ≤ d.2.txNum := hrange.1
        omega
      · exact hr.links k u hold d hd k' u' hold' hrange

end Connect

section Disconnect

variable {ix ix' : ChainIndex} {tip : Nat} {u : UndoInfo} {tipHeader prevHeader : Header}
  {undo : Std.ExtTreeMap Nat UndoInfo compare}

/-- What a successful call of `disconnectBlock` has done. -/
theorem disconnectBlock_eq_ok {prevHeight : Nat}
    (h : disconnectBlock ix prevHeight prevHeader u = .ok ix') :
    ∃ shist txhash2txnum,
      undoHistories ix.shist u.blkInfo.txNum0 u.scriptHashes = .ok shist ∧
      truncateForUndo ix u.blkInfo.txNum0 = .ok txhash2txnum ∧
      ix' =
        { shist := shist
          utxos := undoUtxos ix.utxos u
          txNums := ix.txNums.take u.blkInfo.txNum0
          txhash2txnum := txhash2txnum
          blkinfo := ix.blkinfo.erase u.height
          headers := ix.headers.take (prevHeight + 1)
          txNumNext := u.blkInfo.txNum0
          blkInfos := ix.blkInfos.dropLast
          blkInfosByTxNum := ix.blkInfosByTxNum.erase u.blkInfo.txNum0
          headerVerifier := BTC.HeaderVerifier.reset (prevHeight + 1) prevHeader } := by
  simp only [disconnectBlock] at h
  cases hs : undoHistories ix.shist u.blkInfo.txNum0 u.scriptHashes with
  | error e =>
      rw [hs] at h
      cases h
  | ok shist =>
      rw [hs] at h
      cases ht : truncateForUndo ix u.blkInfo.txNum0 with
      | error e =>
          rw [ht] at h
          cases h
      | ok m =>
          rw [ht] at h
          cases h
          exact ⟨shist, m, rfl, rfl, rfl⟩

theorem RecordOk.next_eq (hu : RecordOk ix tip u) (hw : WellFormed ix)
    (htip : ix.blkInfos.length = tip + 1) :
    ix.txNumNext = u.blkInfo.txNum0 + u.blkInfo.nTx := by
  obtain ⟨hlt, hbi⟩ := List.getElem?_eq_some_iff.mp hu.blkInfo
  have hall : ix.blkInfos = ix.blkInfos.take tip ++ [u.blkInfo] := by
    have hsucc := List.take_succ_eq_append_getElem hlt
    rwa [← htip, List.take_length, hbi] at hsucc
  rw [hw.txNumNext, (hw.blkInfos tip _ hu.blkInfo).2]
  conv_lhs => rw [hall]
  simp

/-- Earlier blocks end where the block at the tip starts, or before. -/
theorem RecordOk.end_le_start (hu : RecordOk ix tip u) (hw : WellFormed ix) {k : Nat}
    {bi : BlkInfo} (hget : ix.blkInfos[k]? = some bi) (hk : k < tip) :
    bi.txNum0 + bi.nTx ≤ u.blkInfo.txNum0 := by
  rw [(hw.blkInfos tip _ hu.blkInfo).2]
  exact hw.blkInfo_le_take hget hk

/-- The history table after the undo: what is left of each list. -/
theorem RecordOk.get_shist (hu : RecordOk ix tip u) (hw : WellFormed ix)
    (htip : ix.blkInfos.length = tip + 1)
    {shist : Std.ExtTreeMap HashX (List Nat) compare}
    (h : undoHistories ix.shist u.blkInfo.txNum0 u.scriptHashes = .ok shist) {hx : HashX}
    {l : List Nat} (hget : shist[hx]? = some l) :
    ∃ l0, ix.shist[hx]? = some l0 ∧ l ≠ [] ∧
      l = l0.filter fun n => decide (n < u.blkInfo.txNum0) := by
  rw [get_undoHistories h (fun hx vec hv => (hw.shist hx vec hv).2.1) hx] at hget
  split_ifs at hget with hmem
  · obtain ⟨l0, hl0, hcut⟩ := Option.bind_eq_some_iff.mp hget
    obtain ⟨heq, hne⟩ := cutList_eq_some hcut
    exact ⟨l0, hl0, hne, heq⟩
  · obtain ⟨hne, -, hlt⟩ := hw.shist hx l hget
    refine ⟨l, hget, hne, (List.filter_eq_self.mpr fun n hn => ?_).symm⟩
    by_contra hge
    simp only [decide_eq_true_eq, not_lt] at hge
    have hend := hu.next_eq hw htip
    have := hlt n hn
    exact hmem (hu.shist hx l hget n hn ⟨hge, by omega⟩)

/-- The buckets after the undo. -/
theorem WellFormed.get_bucket (hw : WellFormed ix) {txNum0 : Nat}
    {m : Std.ExtTreeMap (BitVec 48) (List Nat) compare}
    (h : truncateForUndo ix txNum0 = .ok m) {key : BitVec 48} {l : List Nat}
    (hget : m[key]? = some l) :
    l ≠ [] ∧ ∀ n ∈ l, ∃ hash, (ix.txNums.take txNum0)[n]? = some hash ∧
      makeKeyFromHash hash = key := by
  rw [get_truncateForUndo h key] at hget
  split_ifs at hget with hrec
  · obtain ⟨l0, hl0, hcut⟩ := Option.bind_eq_some_iff.mp hget
    obtain ⟨rfl, hne⟩ := cutList_eq_some hcut
    refine ⟨hne, fun n hn => ?_⟩
    obtain ⟨hmem, hlt⟩ := List.mem_filter.mp hn
    obtain ⟨hash, hhash, hkey⟩ := (hw.buckets key l0 hl0).2 n hmem
    rw [decide_eq_true_eq] at hlt
    exact ⟨hash, by rw [List.getElem?_take_of_lt hlt]; exact hhash, hkey⟩
  · obtain ⟨hne, hall⟩ := hw.buckets key l hget
    refine ⟨hne, fun n hn => ?_⟩
    obtain ⟨hash, hhash, hkey⟩ := hall n hn
    rcases Nat.lt_or_ge n txNum0 with hlt | hge
    · exact ⟨hash, by rw [List.getElem?_take_of_lt hlt]; exact hhash, hkey⟩
    · have hdrop : (ix.txNums.drop txNum0)[n - txNum0]? = some hash := by
        rw [List.getElem?_drop, Nat.add_sub_cancel' hge]
        exact hhash
      exact absurd ⟨hash, List.mem_of_getElem? hdrop, hkey⟩ hrec

/-- A key of `scripthash_unspent` after the undo. -/
theorem get_shunspent_undone {key : ShunspentKey} {v : SHUnspentValue}
    (hget : (undoUtxos ix.utxos u).shunspent[key]? = some v) :
    (∀ a ∈ u.addUndos, (⟨a.2.1, a.2.2⟩ : ShunspentKey) ≠ key) ∧
      ((∃ d ∈ u.delUndos, shunspentKey d.1 d.2 = key) ∨ ix.utxos.shunspent[key]? = some v) := by
  obtain ⟨hfold, hnot⟩ := get_undoUtxos_shunspent.mp hget
  refine ⟨hnot, ?_⟩
  rcases get_foldl_insert (l := u.delUndos) (fun e => shunspentKey e.1 e.2)
    (fun e => (⟨e.2.amount, e.2.tokenDataPtr⟩ : SHUnspentValue)) ix.utxos.shunspent key
    with ⟨d, hd, hkey, -⟩ | ⟨-, hold⟩
  · exact .inl ⟨d, hd, hkey⟩
  · rw [hold] at hfold
    exact .inr hfold

theorem RecordOk.del_le (hu : RecordOk ix tip u) (hw : WellFormed ix) {d : TXO × TXOInfo}
    (hd : d ∈ u.delUndos) : d.2.txNum ≤ txNumMax := by
  have hlt := (List.getElem?_eq_some_iff.mp (hu.dels d hd).2.1).1
  have hle := hw.txNum_le
  rw [hw.txNums_length] at hlt
  omega

theorem RecordOk.del_key (hu : RecordOk ix tip u) (hw : WellFormed ix) {d : TXO × TXOInfo}
    (hd : d ∈ u.delUndos) : (shunspentKey d.1 d.2).ctxo.txNum = d.2.txNum :=
  make_txNum (hu.del_le hw hd)

/-- The UTXO set after the undo. -/
theorem RecordOk.utxo_wellFormed (hu : RecordOk ix tip u) (hw : WellFormed ix)
    (htip : ix.blkInfos.length = tip + 1) {txo : TXO} {info : TXOInfo}
    (hget : (undoUtxos ix.utxos u).utxoset[txo]? = some info) :
    (ix.txNums.take u.blkInfo.txNum0)[info.txNum]? = some txo.txHash ∧ txo.outN ≤ ioNumMax ∧
      (undoUtxos ix.utxos u).shunspent[shunspentKey txo info]? =
        some ⟨info.amount, info.tokenDataPtr⟩ := by
  obtain ⟨hfold, hnot⟩ := get_undoUtxos.mp hget
  have hlen : ix.txNums.length ≤ txNumMax + 1 := by
    rw [hw.txNums_length]
    exact hw.txNum_le
  have hkept : ∀ key : ShunspentKey, key.ctxo.txNum < u.blkInfo.txNum0 →
      ∀ a ∈ u.addUndos, (⟨a.2.1, a.2.2⟩ : ShunspentKey) ≠ key := by
    rintro key hlt a ha rfl
    have := (hu.adds a ha).1.1
    simp only at hlt
    omega
  rcases get_foldl_insert (l := u.delUndos) Prod.fst (fun e => storedInfo e.2)
    ix.utxos.utxoset txo with ⟨d, hd, rfl, hlast⟩ | ⟨hnone, hold⟩
  · -- the output comes back from the record
    rw [hfold, storedInfo_of_le (hu.del_le hw hd)] at hlast
    obtain rfl := Option.some.inj hlast
    obtain ⟨hlt, hnum, hN⟩ := hu.dels d hd
    refine ⟨by rw [List.getElem?_take_of_lt hlt]; exact hnum, hN, ?_⟩
    refine get_undoUtxos_shunspent.mpr ⟨?_, hkept _ (by rw [hu.del_key hw hd]; exact hlt)⟩
    rcases get_foldl_insert (l := u.delUndos) (fun e => shunspentKey e.1 e.2)
      (fun e => (⟨e.2.amount, e.2.tokenDataPtr⟩ : SHUnspentValue)) ix.utxos.shunspent
      (shunspentKey d.1 d.2) with ⟨d', hd', hkey, hlast'⟩ | ⟨hnone, -⟩
    · obtain ⟨-, hnum', hN'⟩ := hu.dels d' hd'
      have hsame : d' = d :=
        hu.functional d' hd' d hd (txo_eq_of_key hnum' hnum hlen hN' hN hkey)
      rw [hlast', hsame]
    · exact absurd rfl (hnone d hd)
  · -- the output was there, and is not one of the block
    rw [hold] at hfold
    obtain ⟨hnum, hN, hsh⟩ := hw.utxo txo info hfold
    have hnext := hw.utxo_txNum_lt hfold
    have hkey : (shunspentKey txo info).ctxo.txNum = info.txNum := by
      have hle := hw.txNum_le
      exact make_txNum (by omega)
    have hlt : info.txNum < u.blkInfo.txNum0 := by
      by_contra hge
      have hend := hu.next_eq hw htip
      obtain ⟨txo', ha⟩ := hu.unspent _ _ hsh (by
        rw [hkey]
        exact ⟨by omega, by omega⟩)
      exact hnot _ ha (hu.txo_of_add hw hnum hN ha)
    refine ⟨by rw [List.getElem?_take_of_lt hlt]; exact hnum, hN, ?_⟩
    refine get_undoUtxos_shunspent.mpr ⟨?_, hkept _ (by rw [hkey]; exact hlt)⟩
    rcases get_foldl_insert (l := u.delUndos) (fun e => shunspentKey e.1 e.2)
      (fun e => (⟨e.2.amount, e.2.tokenDataPtr⟩ : SHUnspentValue)) ix.utxos.shunspent
      (shunspentKey txo info) with ⟨d, hd, hdkey, -⟩ | ⟨-, hsame⟩
    · obtain ⟨-, hnum', hN'⟩ := hu.dels d hd
      exact absurd (txo_eq_of_key hnum' hnum hlen hN' hN hdkey) (hnone d hd)
    · rw [hsame]
      exact hsh

/-- The number of a key that is left after the undo. -/
theorem RecordOk.unspent_lt (hu : RecordOk ix tip u) (hw : WellFormed ix)
    (htip : ix.blkInfos.length = tip + 1) {key : ShunspentKey} {v : SHUnspentValue}
    (hget : (undoUtxos ix.utxos u).shunspent[key]? = some v) :
    key.ctxo.txNum < u.blkInfo.txNum0 := by
  obtain ⟨hnot, ⟨d, hd, rfl⟩ | hold⟩ := get_shunspent_undone hget
  · rw [hu.del_key hw hd]
    exact (hu.dels d hd).1
  · by_contra hge
    have hend := hu.next_eq hw htip
    have hlt := hw.unspent key v hold
    obtain ⟨txo, ha⟩ := hu.unspent key v hold ⟨by omega, by omega⟩
    exact hnot _ ha rfl

/-- The blocks that are left after the undo. -/
theorem get_dropLast (htip : ix.blkInfos.length = tip + 1) {k : Nat} {bi : BlkInfo} :
    ix.blkInfos.dropLast[k]? = some bi ↔ ix.blkInfos[k]? = some bi ∧ k < tip := by
  have hlen : ix.blkInfos.length - 1 = tip := by omega
  rw [List.getElem?_dropLast, hlen]
  constructor
  · intro h
    split_ifs at h with hk
    exact ⟨h, hk⟩
  · rintro ⟨h, hk⟩
    rw [if_pos hk]
    exact h

theorem RecordOk.byTxNum_undone (hu : RecordOk ix tip u) (hw : WellFormed ix)
    (htip : ix.blkInfos.length = tip + 1) (t k : Nat) :
    (ix.blkInfosByTxNum.erase u.blkInfo.txNum0)[t]? = some k ↔
      ∃ bi, ix.blkInfos.dropLast[k]? = some bi ∧ bi.txNum0 = t := by
  rw [get_erase]
  constructor
  · intro h
    split_ifs at h with ht
    obtain ⟨bi, hbi, hstart⟩ := (hw.byTxNum t k).mp h
    refine ⟨bi, (get_dropLast htip).mpr ⟨hbi, ?_⟩, hstart⟩
    have hk := (List.getElem?_eq_some_iff.mp hbi).1
    have hne : k ≠ tip := by
      rintro rfl
      rw [hu.blkInfo] at hbi
      exact ht (by rw [Option.some.inj hbi]; exact hstart)
    omega
  · rintro ⟨bi, hget, hstart⟩
    obtain ⟨hbi, hk⟩ := (get_dropLast htip).mp hget
    have hle := hu.end_le_start hw hbi hk
    have hpos := (hw.blkInfos k bi hbi).1
    rw [if_neg (by omega)]
    exact (hw.byTxNum t k).mpr ⟨bi, hbi, hstart⟩

/-- The block at the tip can be taken back whatever it was: the index stays well formed. -/
theorem RecordOk.wellFormed_disconnect {prevHeight : Nat} (hu : RecordOk ix (prevHeight + 1) u)
    (hw : WellFormed ix) (htip : ix.blkInfos.length = prevHeight + 2)
    (hprev : ix.headers[prevHeight]? = some prevHeader)
    (h : disconnectBlock ix prevHeight (BTC.trimHeaderRecord prevHeader) u = .ok ix') :
    WellFormed ix' := by
  obtain ⟨shist, m, hs, hm, rfl⟩ := disconnectBlock_eq_ok h
  have hend := hu.next_eq hw htip
  have hlen := hw.txNums_length
  have hheaders : (ix.headers.take (prevHeight + 1)).length = prevHeight + 1 := by
    rw [List.length_take, hw.headers_length, htip]
    omega
  refine ⟨?_, ?_, ?_, fun key l hget => hw.get_bucket hm hget,
    fun txo info hget => hu.utxo_wellFormed hw htip hget,
    fun key v hget => hu.unspent_lt hw htip hget, ?_, ?_, hu.byTxNum_undone hw htip, ?_, ?_, ?_⟩
  · rw [List.length_take]
    simp only
    omega
  · have hle := hw.txNum_le
    simp only
    omega
  · intro hx l hget
    obtain ⟨l0, hl0, hne, rfl⟩ := hu.get_shist hw htip hs hget
    obtain ⟨-, hsorted, -⟩ := hw.shist hx l0 hl0
    refine ⟨hne, hsorted.filter _, fun n hn => ?_⟩
    simpa using (List.mem_filter.mp hn).2
  · intro k bi hget
    obtain ⟨hbi, hk⟩ := (get_dropLast htip).mp hget
    obtain ⟨hpos, hstart⟩ := hw.blkInfos k bi hbi
    refine ⟨hpos, ?_⟩
    simp only
    rw [hstart, List.dropLast_eq_take, List.take_take, min_eq_left (by omega)]
  · simp only
    rw [(hw.blkInfos _ _ hu.blkInfo).2, List.dropLast_eq_take, htip]
    rfl
  · intro k
    simp only
    rw [get_erase, hu.height, hw.blkinfo, List.getElem?_dropLast, htip]
    split_ifs with h1 h2 h2
    · omega
    · rfl
    · rfl
    · exact List.getElem?_eq_none (by omega)
  · simp only
    rw [hheaders, List.length_dropLast, htip]
    rfl
  · have hlast : (ix.headers.take (prevHeight + 1)).getLast? = some prevHeader := by
      rw [List.getLast?_eq_getElem?, hheaders, Nat.add_sub_cancel,
        List.getElem?_take_of_lt (Nat.lt_succ_self _)]
      exact hprev
    simp only
    rw [hheaders, hlast]
    rfl

/-- A record of an earlier block stays right when the block at the tip is undone. -/
theorem RecordOk.disconnect {prevHeight k : Nat} {u' : UndoInfo}
    (hu' : RecordOk ix k u') (hu : RecordOk ix (prevHeight + 1) u) (hw : WellFormed ix)
    (htip : ix.blkInfos.length = prevHeight + 2) (hk : k < prevHeight + 1)
    (hlink : ∀ d ∈ u.delUndos, u'.InRange d.2.txNum →
      (d.1, d.2.hashX, (shunspentKey d.1 d.2).ctxo) ∈ u'.addUndos)
    (h : disconnectBlock ix prevHeight prevHeader u = .ok ix') : RecordOk ix' k u' := by
  obtain ⟨shist, m, hs, -, rfl⟩ := disconnectBlock_eq_ok h
  have hle := hu.end_le_start hw hu'.blkInfo hk
  have hkeep : ∀ {n : Nat} {hash : TxHash}, n < u.blkInfo.txNum0 → ix.txNums[n]? = some hash →
      (ix.txNums.take u.blkInfo.txNum0)[n]? = some hash := by
    intro n hash hn hget
    rw [List.getElem?_take_of_lt hn]
    exact hget
  refine ⟨hu'.height, (get_dropLast htip).mpr ⟨hu'.blkInfo, hk⟩, ?_, ?_, ?_, ?_, hu'.functional⟩
  · intro hx l hget n hn hrange
    obtain ⟨l0, hl0, -, rfl⟩ := hu.get_shist hw htip hs hget
    exact hu'.shist hx l0 hl0 n (List.mem_filter.mp hn).1 hrange
  · intro key v hget hrange
    obtain ⟨-, ⟨d, hd, rfl⟩ | hold⟩ := get_shunspent_undone hget
    · -- the output comes back, and the record of its block knows it
      rw [hu.del_key hw hd] at hrange
      exact ⟨d.1, hlink d hd hrange⟩
    · exact hu'.unspent key v hold hrange
  · intro a ha
    obtain ⟨hrange, hnum, hN⟩ := hu'.adds a ha
    have hlt := hrange.2
    exact ⟨hrange, hkeep (by omega) hnum, hN⟩
  · intro d hd
    obtain ⟨hlt, hnum, hN⟩ := hu'.dels d hd
    exact ⟨hlt, hkeep (by omega) hnum, hN⟩

/-- The other records stay right when the block at the tip is undone. -/
theorem Recorded.disconnect {prevHeight : Nat} (hr : Recorded ix undo) (hw : WellFormed ix)
    (hget : undo[prevHeight + 1]? = some u) (htip : ix.blkInfos.length = prevHeight + 2)
    (h : disconnectBlock ix prevHeight prevHeader u = .ok ix') :
    Recorded ix' (undo.erase (prevHeight + 1)) := by
  have hu := hr.records _ _ hget
  have hr' := hr.erase (prevHeight + 1)
  refine ⟨fun k u' hk => ?_, hr'.links⟩
  rw [get_erase] at hk
  split_ifs at hk with hne
  have hu' := hr.records k u' hk
  have hlt := (List.getElem?_eq_some_iff.mp hu'.blkInfo).1
  exact hu'.disconnect hu hw htip (by omega)
    (fun d hd hrange => hr.links _ _ hget d hd k u' hk hrange) h

end Disconnect

end ChainIndex
end Storage
end Shulcrum
