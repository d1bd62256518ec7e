import Shulcrum.Storage.Chain

/-!
# The unspent outputs of a chain

The UTXO set and its index by script hash are changed block by block.  Over a
chain of valid blocks they contain exactly the outputs that are created and
never spent.

**Results.**
* `UtxosExact.connect`: a valid block keeps the two tables and the counter exact.
* `utxos_exact`: they are exact in every run of valid blocks.
-/

namespace Shulcrum
namespace Storage

open Invariant TreeMap Flatten ChainIndex PreProcessedBlock

variable {H : Hashers} {opts : Options}

/-- A transaction of the chain creates the spendable output, and this is what is known of it. -/
def Created (H : Hashers) (blocks : List CBlock) (txo : TXO) (info : TXOInfo) : Prop :=
  ∃ txNum height tx out hx, (chainTxs blocks)[txNum]? = some (height, tx) ∧
    tx.hash = txo.txHash ∧ tx.vout[txo.outN]? = some out ∧ out.LockedTo H hx ∧
    info =
      { amount := out.nValue
        hashX := hx
        confirmedHeight := some height
        txNum := txNum
        tokenDataPtr := out.tokenDataPtr }

/-- A transaction of the chain spends the output. -/
def Spent (blocks : List CBlock) (txo : TXO) : Prop :=
  ∃ e ∈ chainTxs blocks, ∃ input ∈ e.2.vin, input.prevout = txo

/-- A transaction of the block spends the output. -/
def BlockSpends (b : CBlock) (txo : TXO) : Prop :=
  ∃ tx ∈ b.vtx, ∃ input ∈ tx.vin, input.prevout = txo

/-- The two tables of unspent outputs and their counter describe the chain. -/
structure UtxosExact (H : Hashers) (blocks : List CBlock) (ix : ChainIndex) : Prop where
  utxo : ∀ (txo : TXO) (info : TXOInfo), ix.utxos.utxoset[txo]? = some info ↔
    Created H blocks txo info ∧ ¬ Spent blocks txo
  unspent : ∀ (key : ShunspentKey) (v : SHUnspentValue), ix.utxos.shunspent[key]? = some v ↔
    ∃ (txo : TXO) (info : TXOInfo), ix.utxos.utxoset[txo]? = some info ∧
      key = ⟨info.hashX, ⟨info.txNum, txo.outN⟩⟩ ∧ v = ⟨info.amount, info.tokenDataPtr⟩
  txHash : ∀ (txo : TXO) (info : TXOInfo), ix.utxos.utxoset[txo]? = some info →
    ix.txNums[info.txNum]? = some txo.txHash
  count : ix.utxos.utxoCt = ix.utxos.utxoset.size

section Block

variable {blocks : List CBlock} {ix : ChainIndex} {b : CBlock} {ppb : PreProcessedBlock}
  {ch : BlockChanges}

theorem created_concat {txo : TXO} {info : TXOInfo} :
    Created H (blocks ++ [b]) txo info ↔
      Created H blocks txo info ∨ ∃ i n out tx hx, b.vtx[i]? = some tx ∧ tx.vout[n]? = some out ∧
        out.LockedTo H hx ∧
        (txo, info) = (⟨tx.hash, n⟩, outInfo blocks.length (chainTxs blocks).length i hx out) := by
  constructor
  · rintro ⟨txNum, height, tx, out, hx, hget, hhash, hout, hlock, rfl⟩
    rcases get_chainTxs_concat.mp hget with hold | ⟨i, rfl, rfl, htx⟩
    · exact .inl ⟨txNum, height, tx, out, hx, hold, hhash, hout, hlock, rfl⟩
    · refine .inr ⟨i, txo.outN, out, tx, hx, htx, hout, hlock, ?_⟩
      rw [hhash]
      rfl
  · rintro (⟨txNum, height, tx, out, hx, hget, hhash, hout, hlock, rfl⟩ |
      ⟨i, n, out, tx, hx, htx, hout, hlock, heq⟩)
    · exact ⟨txNum, height, tx, out, hx, get_chainTxs_concat.mpr (.inl hget), hhash, hout, hlock,
        rfl⟩
    · cases heq
      exact ⟨_, _, tx, out, hx, get_chainTxs_concat.mpr (.inr ⟨i, rfl, rfl, htx⟩), rfl, hout,
        hlock, rfl⟩

theorem spent_concat {txo : TXO} :
    Spent (blocks ++ [b]) txo ↔ Spent blocks txo ∨ BlockSpends b txo := by
  simp only [Spent, BlockSpends, chainTxs_concat, List.mem_append, List.mem_map]
  constructor
  · rintro ⟨e, he | ⟨tx, htx, rfl⟩, input, hin, hprev⟩
    · exact .inl ⟨e, he, input, hin, hprev⟩
    · exact .inr ⟨tx, htx, input, hin, hprev⟩
  · rintro (⟨e, he, input, hin, hprev⟩ | ⟨tx, htx, input, hin, hprev⟩)
    · exact ⟨e, .inl he, input, hin, hprev⟩
    · exact ⟨_, .inr ⟨tx, htx, rfl⟩, input, hin, hprev⟩

theorem Created.mem_chainTxs {txo : TXO} {info : TXOInfo} (h : Created H blocks txo info) :
    ∃ e ∈ chainTxs blocks, e.2.hash = txo.txHash := by
  obtain ⟨txNum, height, tx, out, hx, hget, hhash, -⟩ := h
  exact ⟨_, List.mem_of_getElem? hget, hhash⟩

/-- With distinct ids, spending inside the block is spending by name. -/
theorem spentInBlock_iff (hids : (b.vtx.map CTransaction.hash).Nodup) {i n : Nat}
    {tx : CTransaction} (htx : b.vtx[i]? = some tx) :
    SpentInBlock b.vtx i n ↔ BlockSpends b ⟨tx.hash, n⟩ := by
  constructor
  · rintro ⟨stx, hstx, input, hin, hidx, rfl⟩
    obtain ⟨tx', htx', hhash⟩ := (lastIdx_eq_some hids).mp hidx
    rw [htx] at htx'
    cases htx'
    exact ⟨stx, hstx, input, hin, by rw [hhash]⟩
  · rintro ⟨stx, hstx, input, hin, hprev⟩
    refine ⟨stx, hstx, input, hin, (lastIdx_eq_some hids).mpr ⟨tx, htx, ?_⟩, ?_⟩
    · rw [hprev]
    · rw [hprev]

/-- The block spends an output that is not its own through a recorded spend. -/
theorem spends_iff (hc : Connected H opts ix b ppb ch) {txo : TXO} (hnull : txo.txHash ≠ 0)
    (hout : ∀ tx ∈ b.vtx, tx.hash ≠ txo.txHash) :
    BlockSpends b txo ↔ ∃ sp ∈ ch.spends, sp.txo = txo := by
  constructor
  · rintro ⟨tx, htx, input, hin, rfl⟩
    obtain ⟨i, hi⟩ := List.mem_iff_getElem?.mp htx
    have hpos : 0 < i := by
      rw [Nat.pos_iff_ne_zero]
      rintro rfl
      exact hnull (coinbase_prevout hi hin)
    have hext : ExternalInput b i input := by
      refine ⟨hpos, ⟨tx, hi, hin⟩, fun hmem => ?_⟩
      obtain ⟨ptx, hptx, hhash⟩ := mem_lastIdx.mp hmem
      exact hout ptx hptx hhash
    obtain ⟨sp, hsp, -, htxo⟩ := hc.changes.exists_spend i input hext
    exact ⟨sp, hsp, htxo⟩
  · rintro ⟨sp, hsp, rfl⟩
    obtain ⟨input, ⟨-, ⟨tx, htx, hin⟩, -⟩, htxo, -⟩ := hc.changes.mem_spends sp hsp
    exact ⟨tx, List.mem_of_getElem? htx, input, hin, htxo.symm⟩

/-- The inputs of a chain name its own transactions, or none in a coinbase. -/
def Sourced (blocks : List CBlock) : Prop :=
  ∀ e ∈ chainTxs blocks, ∀ input ∈ e.2.vin,
    input.prevout.txHash = 0 ∨ ∃ e' ∈ chainTxs blocks, e'.2.hash = input.prevout.txHash

theorem Sourced.connect (h : Sourced blocks) (hnum : Numbered blocks ix)
    (hc : Connected H opts ix b ppb ch) : Sourced (blocks ++ [b]) := by
  have hsub : ∀ {hash : TxHash}, (∃ e ∈ chainTxs blocks, e.2.hash = hash) →
      ∃ e ∈ chainTxs (blocks ++ [b]), e.2.hash = hash := by
    rintro hash ⟨e, he, hhash⟩
    exact ⟨e, by rw [chainTxs_concat]; exact List.mem_append_left _ he, hhash⟩
  intro e he input hin
  rw [chainTxs_concat] at he
  rcases List.mem_append.mp he with he | he
  · exact (h e he input hin).imp id hsub
  · obtain ⟨tx, htx, rfl⟩ := List.mem_map.mp he
    obtain ⟨i, hi⟩ := List.mem_iff_getElem?.mp htx
    rcases Nat.eq_zero_or_pos i with rfl | hpos
    · exact .inl (coinbase_prevout hi hin)
    by_cases hmem : input.prevout.txHash ∈ lastIdx b.vtx
    · obtain ⟨ptx, hptx, hhash⟩ := mem_lastIdx.mp hmem
      refine .inr ⟨(blocks.length, ptx), ?_, hhash⟩
      rw [chainTxs_concat]
      exact List.mem_append_right _ (List.mem_map.mpr ⟨ptx, hptx, rfl⟩)
    · obtain ⟨sp, hsp, -, htxo⟩ := hc.changes.exists_spend i input ⟨hpos, ⟨tx, hi, hin⟩, hmem⟩
      have hget := List.mem_of_getElem? (hnum.wellFormed.utxo _ _ (hc.of_mem_spends hsp)).1
      rw [hnum.txNums, htxo] at hget
      exact .inr (hsub (List.mem_map.mp hget))

/-- The position of a new output is determined by its name. -/
theorem newUtxo_position (hp : Prepared H b ppb) (hids : (b.vtx.map CTransaction.hash).Nodup)
    {txNum0 p p' : Nat} {hx hx' : HashX} {e e' : TXO × TXOInfo}
    (h : newUtxo ppb txNum0 hx p = some e) (h' : newUtxo ppb txNum0 hx' p' = some e')
    (heq : e.1 = e'.1) : p = p' := by
  obtain ⟨i, n, out, tx, hget, htx, -, rfl⟩ := (newUtxo_eq_some hp).mp h
  obtain ⟨i', n', out', tx', hget', htx', -, rfl⟩ := (newUtxo_eq_some hp).mp h'
  obtain ⟨hhash, hn⟩ : tx.hash = tx'.hash ∧ n = n' := by simpa using heq
  have hi : i = i' := by
    have hk := (lastIdx_eq_some hids).mpr ⟨tx, htx, rfl⟩
    have hk' := (lastIdx_eq_some hids).mpr ⟨tx', htx', rfl⟩
    rw [hhash, hk'] at hk
    exact (Option.some.inj hk).symm
  rw [(get_flat_iff.mp hget).1, (get_flat_iff.mp hget').1, hi, hn]

/-- The new outputs of a block have distinct names. -/
theorem pairwise_newUtxos (hp : Prepared H b ppb) (hids : (b.vtx.map CTransaction.hash).Nodup)
    (txNum0 : Nat) : (newUtxos ppb txNum0).Pairwise fun e e' => e.1 ≠ e'.1 := by
  refine List.pairwise_flatMap.mpr ⟨?_, ?_⟩
  · rintro ⟨hx, ag⟩ hag
    have hnodup := hp.agg.nodup hx
    rw [HashXAggregated.agg_of_get
      (Std.ExtTreeMap.mem_toList_iff_getElem?_eq_some.mp hag)] at hnodup
    refine List.pairwise_filterMap.mpr (hnodup.imp ?_)
    intro p p' hne e he e' he' heq
    exact hne (newUtxo_position hp hids he he' heq)
  · refine (distinct_toList _).imp_of_mem ?_
    rintro ⟨hx, ag⟩ ⟨hx', ag'⟩ hag hag' hne e he e' he' heq
    obtain ⟨p, hpos, hnew⟩ := List.mem_filterMap.mp he
    obtain ⟨p', hpos', hnew'⟩ := List.mem_filterMap.mp he'
    obtain rfl := newUtxo_position hp hids hnew hnew' heq
    -- one output pays to one script hash
    have hlock : OutAt H b.vtx hx p := by
      rw [← hp.agg.outs, HashXAggregated.agg_of_get
        (Std.ExtTreeMap.mem_toList_iff_getElem?_eq_some.mp hag)]
      exact hpos
    have hlock' : OutAt H b.vtx hx' p := by
      rw [← hp.agg.outs, HashXAggregated.agg_of_get
        (Std.ExtTreeMap.mem_toList_iff_getElem?_eq_some.mp hag')]
      exact hpos'
    obtain ⟨o, ho, -, hhx⟩ := hlock
    obtain ⟨o', ho', -, hhx'⟩ := hlock'
    rw [ho] at ho'
    cases ho'
    exact hne (hhx.symm.trans hhx')

theorem spendOf_txo {utxoset : Std.ExtTreeMap TXO TXOInfo compare} {e : InputPt × Nat}
    {sp : Spend} (h : spendOf utxoset e = some sp) :
    sp.txo = ⟨e.1.prevoutHash, e.1.prevoutN⟩ := by
  simp only [spendOf] at h
  split_ifs at h
  obtain ⟨info, -, rfl⟩ := Option.map_eq_some_iff.mp h
  rfl

/-- The recorded spends of a block are of distinct outputs. -/
theorem nodup_spends (hc : Connected H opts ix b ppb ch)
    (honce : (b.vtx.flatMap fun tx => tx.vin.map CTxIn.prevout).Nodup) :
    (ch.spends.map Spend.txo).Nodup := by
  let prevout : InputPt → TXO := fun inp => ⟨inp.prevoutHash, inp.prevoutN⟩
  have hprevouts : ppb.inputs.zipIdx.map (fun e => prevout e.1) =
      b.vtx.flatMap fun tx => tx.vin.map CTxIn.prevout := by
    calc ppb.inputs.zipIdx.map (fun e => prevout e.1)
        = (ppb.inputs.zipIdx.map Prod.fst).map prevout := by rw [List.map_map]; rfl
      _ = ppb.inputs.map prevout := by rw [List.zipIdx_map_fst]
      _ = (flatIns b.vtx).map fun d => d.2.2.prevout := by
          rw [hc.prepared.inputs, List.map_map]
          rfl
      _ = b.vtx.flatMap fun tx => tx.vin.map CTxIn.prevout := by
          rw [← List.map_flatMap, ← map_flat_eq_flatMap, List.map_map]
          rfl
  rw [← hprevouts] at honce
  rw [hc.changes.spends]
  refine List.pairwise_map.mpr (List.pairwise_filterMap.mpr ?_)
  refine (List.pairwise_map.mp honce).imp ?_
  intro e e' hne sp hsp sp' hsp' heq
  rw [spendOf_txo hsp, spendOf_txo hsp'] at heq
  exact hne heq

theorem nodup_adds (hc : Connected H opts ix b ppb ch)
    (hids : (b.vtx.map CTransaction.hash).Nodup) : (ch.adds.map Prod.fst).Nodup := by
  rw [hc.changes.adds]
  exact List.pairwise_map.mpr (pairwise_newUtxos hc.prepared hids ix.txNumNext)

/-- An output of the UTXO set is not one of a block with new transactions. -/
theorem ValidBlock.hash_ne (hv : ValidBlock blocks b) (hnum : Numbered blocks ix) {txo : TXO}
    {info : TXOInfo} (hget : ix.utxos.utxoset[txo]? = some info) :
    ∀ tx ∈ b.vtx, tx.hash ≠ txo.txHash := by
  intro tx htx heq
  refine hv.not_mem_txNums hnum htx ?_
  rw [heq]
  exact List.mem_of_getElem? (hnum.wellFormed.utxo _ _ hget).1

theorem add_hash {e : TXO × TXOInfo} (hc : Connected H opts ix b ppb ch) (he : e ∈ ch.adds) :
    ∃ tx ∈ b.vtx, tx.hash = e.1.txHash := by
  obtain ⟨i, n, out, tx, hx, htx, -, -, -, rfl⟩ := (hc.changes.mem_adds e).mp he
  exact ⟨tx, List.mem_of_getElem? htx, rfl⟩

/-- The UTXO set after a valid block. -/
theorem get_utxoset_iff (hc : Connected H opts ix b ppb ch) (hnum : Numbered blocks ix)
    (hv : ValidBlock blocks b) {txo : TXO} {info : TXOInfo} :
    (nextIndex opts ix ppb ch).utxos.utxoset[txo]? = some info ↔
      (txo, info) ∈ ch.adds ∨
        (ix.utxos.utxoset[txo]? = some info ∧ ∀ sp ∈ ch.spends, sp.txo ≠ txo) := by
  constructor
  · intro hget
    obtain ⟨hspent, hadd | ⟨hold, -⟩⟩ := hc.get_utxoset hget
    · exact .inl hadd
    · exact .inr ⟨hold, hspent⟩
  · intro hcases
    refine get_applyUtxos.mpr ?_
    rcases get_foldl_insert (l := ch.adds) Prod.fst (fun e => storedInfo e.2) ix.utxos.utxoset txo
      with ⟨e, he, rfl, hlast⟩ | ⟨hnot, hsame⟩
    · obtain ⟨tx, htx, hhash⟩ := add_hash hc he
      rcases hcases with hadd | ⟨hold, -⟩
      · have hinfo : e.2 = info :=
          congrArg Prod.snd (List.inj_on_of_nodup_map (nodup_adds hc hv.ids) he hadd rfl)
        obtain ⟨i, -, -, hle, -⟩ := hc.of_mem_adds he
        rw [hlast, storedInfo_of_le hle, hinfo]
        refine ⟨rfl, fun sp hsp heq => ?_⟩
        refine hv.hash_ne hnum (hc.of_mem_spends hsp) tx htx ?_
        rw [hhash, heq]
      · exact absurd hhash (hv.hash_ne hnum hold tx htx)
    · rw [hsame]
      rcases hcases with hadd | hold
      · exact absurd rfl (hnot _ hadd)
      · exact hold

theorem UtxosExact.utxo_connect (h : UtxosExact H blocks ix) (hnum : Numbered blocks ix)
    (hsrc : Sourced blocks) (hv : ValidBlock blocks b) (hc : Connected H opts ix b ppb ch)
    (txo : TXO) (info : TXOInfo) :
    (nextIndex opts ix ppb ch).utxos.utxoset[txo]? = some info ↔
      Created H (blocks ++ [b]) txo info ∧ ¬ Spent (blocks ++ [b]) txo := by
  rw [get_utxoset_iff hc hnum hv, created_concat, spent_concat, hc.changes.mem_adds, hc.height,
    hnum.length, hnum.txNumNext, h.utxo]
  constructor
  · rintro (⟨i, n, out, tx, hx, htx, hn, hlock, hns, heq⟩ | ⟨⟨hcr, hns⟩, hsp⟩)
    · refine ⟨.inr ⟨i, n, out, tx, hx, htx, hn, hlock, heq⟩, ?_⟩
      have hmem := List.mem_of_getElem? htx
      cases heq
      rintro (⟨e, he, input, hin, hprev⟩ | hspends)
      · -- an earlier transaction cannot name a new one
        rcases hsrc e he input hin with h0 | ⟨e', he', hhash⟩
        · rw [hprev] at h0
          exact b.hash_ne_null tx hmem h0
        · rw [hprev] at hhash
          exact hv.new tx hmem e' he' hhash
      · exact hns ((spentInBlock_iff hv.ids htx).mpr hspends)
    · refine ⟨.inl hcr, ?_⟩
      obtain ⟨e, he, hhash⟩ := hcr.mem_chainTxs
      rintro (hold | hspends)
      · exact hns hold
      · obtain ⟨sp, hmem, htxo⟩ := (spends_iff hc (by rw [← hhash]; exact chainTxs_hash_ne_null he)
          (fun tx htx heq => hv.new tx htx e he (hhash.trans heq.symm))).mp hspends
        exact hsp sp hmem htxo
  · rintro ⟨hcr | ⟨i, n, out, tx, hx, htx, hn, hlock, heq⟩, hns⟩
    · obtain ⟨e, he, hhash⟩ := hcr.mem_chainTxs
      refine .inr ⟨⟨hcr, fun hold => hns (.inl hold)⟩, fun sp hmem htxo => hns (.inr ?_)⟩
      exact (spends_iff hc (by rw [← hhash]; exact chainTxs_hash_ne_null he)
        (fun tx htx heq => hv.new tx htx e he (hhash.trans heq.symm))).mpr ⟨sp, hmem, htxo⟩
    · refine .inl ⟨i, n, out, tx, hx, htx, hn, hlock, fun hsib => hns (.inr ?_), heq⟩
      cases heq
      exact (spentInBlock_iff hv.ids htx).mp hsib

/-- The key of an entry of the UTXO set is not truncated. -/
theorem shunspentKey_eq (hw : WellFormed ix) {txo : TXO} {info : TXOInfo}
    (hget : ix.utxos.utxoset[txo]? = some info) :
    shunspentKey txo info = ⟨info.hashX, ⟨info.txNum, txo.outN⟩⟩ := by
  have hlt := hw.utxo_txNum_lt hget
  have hle := hw.txNum_le
  have hN := (hw.utxo _ _ hget).2.1
  rw [shunspentKey, make_eq (by omega) hN]

theorem UtxosExact.unspent_connect (h : UtxosExact H blocks ix) (hnum : Numbered blocks ix)
    (hv : ValidBlock blocks b) (hc : Connected H opts ix b ppb ch) (key : ShunspentKey)
    (v : SHUnspentValue) :
    (nextIndex opts ix ppb ch).utxos.shunspent[key]? = some v ↔
      ∃ (txo : TXO) (info : TXOInfo),
        (nextIndex opts ix ppb ch).utxos.utxoset[txo]? = some info ∧
          key = ⟨info.hashX, ⟨info.txNum, txo.outN⟩⟩ ∧ v = ⟨info.amount, info.tokenDataPtr⟩ := by
  have hw' := hc.wellFormed hnum.wellFormed
  rw [hc.get_shunspent hnum.wellFormed]
  constructor
  · rintro (⟨e, he, rfl, rfl⟩ | ⟨hold, hsp⟩)
    · have hget := (get_utxoset_iff hc hnum hv).mpr (.inl he)
      exact ⟨e.1, e.2, hget, shunspentKey_eq hw' hget, rfl⟩
    · obtain ⟨txo, info, hget, rfl, rfl⟩ := (h.unspent key v).mp hold
      refine ⟨txo, info, (get_utxoset_iff hc hnum hv).mpr (.inr ⟨hget, ?_⟩), rfl, rfl⟩
      rintro sp hmem rfl
      have hinfo := hc.of_mem_spends hmem
      rw [hget] at hinfo
      cases hinfo
      exact hsp sp hmem (shunspentKey_eq hnum.wellFormed hget)
  · rintro ⟨txo, info, hget, rfl, rfl⟩
    rw [← shunspentKey_eq hw' hget]
    exact (hc.get_shunspent hnum.wellFormed).mp (hw'.utxo _ _ hget).2.2

theorem UtxosExact.count_connect (h : UtxosExact H blocks ix) (hnum : Numbered blocks ix)
    (hv : ValidBlock blocks b) (hc : Connected H opts ix b ppb ch) :
    (nextIndex opts ix ppb ch).utxos.utxoCt =
      (nextIndex opts ix ppb ch).utxos.utxoset.size := by
  let added := ch.adds.foldl (fun m e => m.insert e.1 (storedInfo e.2)) ix.utxos.utxoset
  have hadded : added.size = ix.utxos.utxoset.size + ch.adds.length := by
    refine size_foldl_insert (nodup_adds hc hv.ids) fun e he hmem => ?_
    obtain ⟨info, hget⟩ := mem_iff_getElem?.mp hmem
    obtain ⟨tx, htx, hhash⟩ := add_hash hc he
    exact hv.hash_ne hnum hget tx htx hhash
  have herased : (ch.spends.foldl (fun m sp => m.erase sp.txo) added).size + ch.spends.length =
      added.size := by
    refine size_foldl_erase (nodup_spends hc hv.once) fun sp hsp => ?_
    rcases get_foldl_insert (l := ch.adds) Prod.fst (fun e => storedInfo e.2) ix.utxos.utxoset
      sp.txo with ⟨e, -, -, hlast⟩ | ⟨-, hsame⟩
    · exact mem_iff_getElem?.mpr ⟨_, hlast⟩
    · exact mem_iff_getElem?.mpr ⟨_, hsame.trans (hc.of_mem_spends hsp)⟩
  have hset : (nextIndex opts ix ppb ch).utxos.utxoset =
      ch.spends.foldl (fun m sp => m.erase sp.txo) added := by
    have hutxos : (nextIndex opts ix ppb ch).utxos = applyUtxos ix.utxos ch.adds ch.spends := rfl
    rw [hutxos, applyUtxos, UTXOBatch.foldl_add, UTXOBatch.foldl_remove]
  have hct : (nextIndex opts ix ppb ch).utxos.utxoCt =
      ix.utxos.utxoCt + ch.adds.length - ch.spends.length := utxoCt_applyUtxos
  rw [hct, hset, h.count]
  omega

/-- A valid block keeps the tables of unspent outputs exact. -/
theorem UtxosExact.connect (h : UtxosExact H blocks ix) (hnum : Numbered blocks ix)
    (hsrc : Sourced blocks) (hv : ValidBlock blocks b) (hc : Connected H opts ix b ppb ch) :
    UtxosExact H (blocks ++ [b]) (nextIndex opts ix ppb ch) :=
  ⟨h.utxo_connect hnum hsrc hv hc, h.unspent_connect hnum hv hc,
    fun txo info hget => ((hc.wellFormed hnum.wellFormed).utxo txo info hget).1,
    h.count_connect hnum hv hc⟩

end Block

theorem utxosExact_empty : UtxosExact H [] {} := by
  refine ⟨?_, ?_, ?_, rfl⟩
  · intro txo info
    simp [Created, chainTxs]
  · intro key v
    simp
  · intro txo info hget
    simp at hget

/-- What is known of a chain of valid blocks: its inputs name it, and its unspent outputs. -/
theorem Chain.utxosExact {st : List (CBlock × UndoInfo)} {ix : ChainIndex}
    (h : Chain H opts st ix) :
    Numbered (st.map Prod.fst) ix ∧ Sourced (st.map Prod.fst) ∧
      UtxosExact H (st.map Prod.fst) ix := by
  refine h.rec_on_blocks (P := fun blocks ix => Sourced blocks ∧ UtxosExact H blocks ix)
    ⟨?_, utxosExact_empty⟩ ?_
  · intro e he
    simp [chainTxs] at he
  · intro blocks ix b ppb ch hnum hP hv hc
    exact ⟨hP.1.connect hnum hc, hP.2.connect hnum hP.1 hv hc⟩

/--
In every run of valid blocks the two tables of unspent outputs describe the
blocks that were added and not undone, and so does their counter.
-/
theorem utxos_exact {r : ChainRun}
    (h : Reachable ChainRun.Start (ChainStep H opts ValidBlock) r) :
    UtxosExact H r.blocks r.state.index := by
  obtain ⟨st, hchain, hblocks⟩ := chain_of_reachable h
  rw [← hblocks]
  exact hchain.utxosExact.2.2

section SmallChain

open Mempool

theorem validBlock_first : ValidBlock [] firstBlock :=
  ⟨by decide, by simp [chainTxs], by decide⟩

theorem validBlock_second : ValidBlock [firstBlock] (secondBlock 0) :=
  ⟨by decide, by decide, by decide⟩

/-- The second block, in which an output is spent before it is created, is accepted. -/
theorem exists_secondState : ∃ s : State,
    Reachable ChainRun.Start (ChainStep opTrueHashers {} ValidBlock)
      { state := s, blocks := [firstBlock, secondBlock 0] } := by
  have hfirst := reachable_firstState ValidBlock validBlock_first
  have hfill : fill opTrueHashers 1 none 0 100 (secondBlock 0) =
      .ok (prepared 1 (secondBlock 0)) := rfl
  obtain ⟨s, notify, hadd⟩ : ∃ s notify, addBlock opTrueHashers {} firstState
      (prepared 1 (secondBlock 0)) true false false = .ok s notify := ⟨_, _, rfl⟩
  exact ⟨s, hfirst.next (.add hfill validBlock_second (by decide) hadd)⟩

theorem utxos_exact_second : ∃ s : State,
    Reachable ChainRun.Start (ChainStep opTrueHashers {} ValidBlock)
        { state := s, blocks := [firstBlock, secondBlock 0] } ∧
      UtxosExact opTrueHashers [firstBlock, secondBlock 0] s.index := by
  obtain ⟨s, hs⟩ := exists_secondState
  exact ⟨s, hs, utxos_exact hs⟩

end SmallChain

end Storage
end Shulcrum
