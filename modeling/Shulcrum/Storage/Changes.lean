import Shulcrum.BlockProc.Fill
import Shulcrum.Storage.Index

/-!
# The changes a block makes

What the loops of `addBlock` over outputs and inputs collect, in terms of the
transactions of the block.

**Results.**
* `mem_newUtxos`: the new outputs are the spendable ones not spent in the block.
* `mem_spends`, `exists_spend`: the spends are the inputs of the other
  transactions than the coinbase that spend outputs of earlier blocks.
* `aggregates_spends`: the script hashes of the block with all its inputs.
-/

namespace Shulcrum
namespace Storage

open TreeMap Flatten PreProcessedBlock

namespace ChainIndex

variable {H : Hashers} {b : CBlock} {ppb : PreProcessedBlock}
variable {utxoset : Std.ExtTreeMap TXO TXOInfo compare}

/-- The entry of the UTXO set for output `n` of transaction `i` of a block. -/
def outInfo (height txNum0 i : Nat) (hx : HashX) (out : CTxOut) : TXOInfo :=
  { amount := out.nValue
    hashX := hx
    confirmedHeight := some height
    txNum := txNum0 + i
    tokenDataPtr := out.tokenDataPtr }

theorem newUtxo_eq_some (hp : Prepared H b ppb) {txNum0 p : Nat} {hx : HashX}
    {e : TXO × TXOInfo} :
    newUtxo ppb txNum0 hx p = some e ↔
      ∃ i n out tx, (flatOuts b.vtx)[p]? = some (i, n, out) ∧ b.vtx[i]? = some tx ∧
        ¬ SpentInBlock b.vtx i n ∧
        e = (⟨tx.hash, n⟩, outInfo ppb.height txNum0 i hx out) := by
  unfold newUtxo
  cases hget : ppb.outputs[p]? with
  | none =>
      have hlen : (flatOuts b.vtx).length ≤ p := by
        rw [← hp.outputs_length]
        exact List.getElem?_eq_none_iff.mp hget
      have hnone : (flatOuts b.vtx)[p]? = none := List.getElem?_eq_none hlen
      simp [hnone]
  | some outp =>
      obtain ⟨⟨i, n, out⟩, he, hout, hspent⟩ := hp.outputs p outp hget
      obtain ⟨-, tx, htx, -⟩ := get_flat_iff.mp he
      have hhash : (ppb.txInfos[i]?).map TxInfo.hash = some tx.hash := by
        rw [← List.getElem?_map, hp.hashes, List.getElem?_map, htx]
        rfl
      obtain ⟨info, hinfo, hih⟩ := Option.map_eq_some_iff.mp hhash
      have hidx : outp.txIdx = i := by rw [hout]; rfl
      have hN : outp.outN = n := by rw [hout]; rfl
      have hamount : outp.amount = out.nValue := by rw [hout]; rfl
      have htoken : outp.tokenDataPtr = out.tokenDataPtr := by rw [hout]; rfl
      simp only [hidx, hN, hamount, htoken, hinfo, hih, Option.map_some, he]
      constructor
      · intro h
        split_ifs at h with hs
        cases h
        exact ⟨i, n, out, tx, rfl, htx, fun hsp => hs (hspent.mpr hsp), rfl⟩
      · rintro ⟨i', n', out', tx', heq, htx', hns, rfl⟩
        cases heq
        rw [htx] at htx'
        cases htx'
        rw [if_neg fun hs => hns (hspent.mp hs)]
        rfl

/-- The new outputs are the spendable ones that the block does not spend itself. -/
theorem mem_newUtxos (hp : Prepared H b ppb) {txNum0 : Nat} {e : TXO × TXOInfo} :
    e ∈ newUtxos ppb txNum0 ↔
      ∃ i n out tx hx, b.vtx[i]? = some tx ∧ tx.vout[n]? = some out ∧ out.LockedTo H hx ∧
        ¬ SpentInBlock b.vtx i n ∧
        e = (⟨tx.hash, n⟩, outInfo ppb.height txNum0 i hx out) := by
  simp only [newUtxos, List.mem_flatMap, List.mem_filterMap]
  constructor
  · rintro ⟨⟨hx, ag⟩, hag, p, hpos, hnew⟩
    rw [Std.ExtTreeMap.mem_toList_iff_getElem?_eq_some] at hag
    obtain ⟨i, n, out, tx, hget, htx, hns, rfl⟩ := (newUtxo_eq_some hp).mp hnew
    have hout : OutAt H b.vtx hx p := by
      rw [← hp.agg.outs, HashXAggregated.agg_of_get hag]
      exact hpos
    obtain ⟨e, he, hlock⟩ := hout
    rw [hget] at he
    cases he
    obtain ⟨-, tx', htx', hn⟩ := get_flat_iff.mp hget
    rw [htx] at htx'
    cases htx'
    exact ⟨i, n, out, tx, hx, htx, hn, hlock, hns, rfl⟩
  · rintro ⟨i, n, out, tx, hx, htx, hn, hlock, hns, rfl⟩
    have hget : (flatOuts b.vtx)[offset CTransaction.vout b.vtx i + n]? = some (i, n, out) :=
      get_flat_iff.mpr ⟨rfl, tx, htx, hn⟩
    have hpos := (hp.agg.outs hx _).mpr ⟨_, hget, hlock⟩
    have htouch : Touches H b.vtx hx i := ⟨tx, htx, .inl ⟨out, List.mem_of_getElem? hn, hlock⟩⟩
    obtain ⟨ag, hag⟩ := mem_iff_getElem?.mp (hp.agg.mem_of_touch htouch)
    rw [HashXAggregated.agg_of_get hag] at hpos
    exact ⟨(hx, ag), Std.ExtTreeMap.mem_toList_iff_getElem?_eq_some.mpr hag, _, hpos,
      (newUtxo_eq_some hp).mpr ⟨i, n, out, tx, hget, htx, hns, rfl⟩⟩

/-- What the loop over the inputs records for an input. -/
def spendOf (utxoset : Std.ExtTreeMap TXO TXOInfo compare) (e : InputPt × Nat) : Option Spend :=
  let txo : TXO := { txHash := e.1.prevoutHash, outN := e.1.prevoutN }
  if e.2 = 0 ∨ e.1.parentTxOutIdx.isSome then none
  else utxoset[txo]?.map fun info =>
    { inum := e.2, txIdx := e.1.txIdx, txo := txo, info := info }

/-- The input needs an output of an earlier block. -/
def NeedsUtxo (e : InputPt × Nat) : Prop := ¬ (e.2 = 0 ∨ e.1.parentTxOutIdx.isSome = true)

theorem spendInput_eq {inum : Nat} {inp : InputPt} {r : Option Spend}
    (h : spendInput utxoset ppb inum inp = .ok r) :
    r = spendOf utxoset (inp, inum) ∧
      (NeedsUtxo (inp, inum) → (⟨inp.prevoutHash, inp.prevoutN⟩ : TXO) ∈ utxoset) := by
  simp only [spendInput] at h
  simp only [spendOf, NeedsUtxo]
  by_cases h0 : inum = 0
  · rw [if_pos h0] at h
    cases h
    simp [h0]
  by_cases hparent : inp.parentTxOutIdx.isSome = true
  · rw [if_neg h0, if_pos hparent] at h
    cases h
    simp [hparent]
  rw [if_neg h0, if_neg hparent] at h
  cases hget : utxoset[(⟨inp.prevoutHash, inp.prevoutN⟩ : TXO)]? with
  | none =>
      rw [hget] at h
      cases h
  | some info =>
      rw [hget] at h
      cases h
      refine ⟨?_, fun _ => mem_iff_getElem?.mpr ⟨info, hget⟩⟩
      simp [h0, hparent]

theorem spendInputs_eq {inputs : List InputPt} {inum : Nat} {spends : List Spend}
    (h : spendInputs utxoset ppb inum inputs = .ok spends) :
    spends = (inputs.zipIdx inum).filterMap (spendOf utxoset) ∧
      ∀ e ∈ inputs.zipIdx inum, NeedsUtxo e →
        (⟨e.1.prevoutHash, e.1.prevoutN⟩ : TXO) ∈ utxoset := by
  induction inputs generalizing inum spends with
  | nil =>
      cases h
      simp
  | cons inp inputs ih =>
      rw [spendInputs] at h
      cases hs : spendInput utxoset ppb inum inp with
      | error e =>
          rw [hs] at h
          cases h
      | ok r =>
          rw [hs] at h
          cases hrest : spendInputs utxoset ppb (inum + 1) inputs with
          | error e =>
              rw [hrest] at h
              cases h
          | ok sps =>
              rw [hrest] at h
              cases h
              obtain ⟨rfl, hmem⟩ := spendInput_eq hs
              obtain ⟨rfl, hmems⟩ := ih hrest
              rw [List.zipIdx_cons]
              refine ⟨?_, ?_⟩
              · cases hsp : spendOf utxoset (inp, inum) <;> simp [hsp]
              · intro e he
                rcases List.mem_cons.mp he with rfl | he
                · exact hmem
                · exact hmems e he

theorem spendInputs_ok {inputs : List InputPt} {inum : Nat}
    (h : ∀ e ∈ inputs.zipIdx inum, NeedsUtxo e →
      (⟨e.1.prevoutHash, e.1.prevoutN⟩ : TXO) ∈ utxoset) :
    ∃ spends, spendInputs utxoset ppb inum inputs = .ok spends := by
  induction inputs generalizing inum with
  | nil => exact ⟨[], rfl⟩
  | cons inp inputs ih =>
      rw [List.zipIdx_cons] at h
      obtain ⟨sps, hsps⟩ : ∃ sps, spendInputs utxoset ppb (inum + 1) inputs = .ok sps :=
        ih fun e he => h e (List.mem_cons_of_mem _ he)
      have hone : ∃ r, spendInput utxoset ppb inum inp = .ok r := by
        simp only [spendInput]
        by_cases h0 : inum = 0
        · exact ⟨_, if_pos h0⟩
        by_cases hparent : inp.parentTxOutIdx.isSome = true
        · exact ⟨none, by rw [if_neg h0, if_pos hparent]⟩
        have hneeds : NeedsUtxo (inp, inum) := by simp [NeedsUtxo, h0, hparent]
        obtain ⟨info, hinfo⟩ := mem_iff_getElem?.mp (h _ (by simp) hneeds)
        rw [if_neg h0, if_neg hparent]
        simp only at hinfo
        rw [hinfo]
        exact ⟨_, rfl⟩
      obtain ⟨r, hr⟩ := hone
      exact ⟨r.toList ++ sps, by rw [spendInputs, hr]; simp only [hsps]⟩

/-- The first transaction of a block has one input, from no transaction. -/
theorem exists_coinbase (b : CBlock) : ∃ cb cin rest,
    b.vtx = cb :: rest ∧ cb.vin = [cin] ∧ cin.prevout.txHash = 0 := by
  have hcb := b.coinbase
  cases hv : b.vtx with
  | nil => simp [hv] at hcb
  | cons cb rest =>
      rw [hv] at hcb
      simp only [List.head?_cons, Option.any_some, CTransaction.isCoinBase, Bool.and_eq_true,
        beq_iff_eq] at hcb
      obtain ⟨hlen, hall⟩ := hcb
      obtain ⟨cin, hcin⟩ := List.length_eq_one_iff.mp hlen
      refine ⟨cb, cin, rest, rfl, hcin, ?_⟩
      rw [hcin] at hall
      simpa using hall

/-- The coinbase spends no output. -/
theorem coinbase_prevout {tx : CTransaction} (htx : b.vtx[0]? = some tx) {input : CTxIn}
    (hin : input ∈ tx.vin) : input.prevout.txHash = 0 := by
  obtain ⟨cb, cin, rest, hv, hvin, hnull⟩ := exists_coinbase b
  have hcb : tx = cb := by simpa [hv] using htx.symm
  rw [hcb, hvin, List.mem_singleton] at hin
  rw [hin]
  exact hnull

theorem flatIns_zero_iff {j i n : Nat} {input : CTxIn}
    (h : (flatIns b.vtx)[j]? = some (i, n, input)) : j = 0 ↔ i = 0 := by
  obtain ⟨cb, cin, rest, hv, hvin, -⟩ := exists_coinbase b
  have hfirst : (flatIns b.vtx)[0]? = some (0, 0, cin) :=
    get_flat_iff.mpr ⟨rfl, cb, by simp [hv], by simp [hvin]⟩
  constructor
  · rintro rfl
    rw [hfirst] at h
    cases h
    rfl
  · rintro rfl
    obtain ⟨hj, tx, htx, hn⟩ := get_flat_iff.mp h
    have hcb : tx = cb := by simpa [hv] using htx.symm
    rw [hcb, hvin] at hn
    obtain ⟨hlt, -⟩ := List.getElem?_eq_some_iff.mp hn
    rw [List.length_singleton] at hlt
    have hn0 : n = 0 := by omega
    rw [hj, hn0]
    rfl

/-- The input belongs to a transaction after the coinbase and spends an earlier block. -/
def ExternalInput (b : CBlock) (i : Nat) (input : CTxIn) : Prop :=
  0 < i ∧ (∃ tx, b.vtx[i]? = some tx ∧ input ∈ tx.vin) ∧
    input.prevout.txHash ∉ lastIdx b.vtx

theorem parentIdx_isSome {input : CTxIn} :
    (parentIdx b.vtx input).isSome = true ↔ input.prevout.txHash ∈ lastIdx b.vtx := by
  rw [parentIdx, Option.isSome_map, Std.ExtTreeMap.isSome_getElem?_iff_mem]

/-- The inputs that need the UTXO set, in terms of the block. -/
theorem needsUtxo_iff (hp : Prepared H b ppb) {e : InputPt × Nat} :
    e ∈ ppb.inputs.zipIdx ∧ NeedsUtxo e ↔
      ∃ d : Nat × Nat × CTxIn, (flatIns b.vtx)[e.2]? = some d ∧
        e.1 = { inputPt d with parentTxOutIdx := parentIdx b.vtx d.2.2 } ∧
        ExternalInput b d.1 d.2.2 := by
  obtain ⟨inp, j⟩ := e
  rw [List.mem_zipIdx_iff_getElem?, hp.inputs, List.getElem?_map, Option.map_eq_some_iff]
  constructor
  · rintro ⟨⟨d, hd, rfl⟩, hneeds⟩
    obtain ⟨tx, htx, hin⟩ := mem_flatIns (List.mem_of_getElem? hd)
    simp only [NeedsUtxo, not_or, parentIdx_isSome] at hneeds
    obtain ⟨hj, hout⟩ := hneeds
    have hi : d.1 ≠ 0 := fun h0 => hj ((flatIns_zero_iff hd).mpr h0)
    exact ⟨d, hd, rfl, by omega, ⟨tx, htx, hin⟩, hout⟩
  · rintro ⟨d, hd, rfl, hpos, -, hout⟩
    refine ⟨⟨d, hd, rfl⟩, ?_⟩
    have hj : j ≠ 0 := fun h0 => by
      have hi := (flatIns_zero_iff hd).mp h0
      omega
    simp only [NeedsUtxo, not_or, parentIdx_isSome]
    exact ⟨hj, hout⟩

/-- A spend comes from an input of the block. -/
theorem mem_spends (hp : Prepared H b ppb) {sp : Spend}
    (h : sp ∈ ppb.inputs.zipIdx.filterMap (spendOf utxoset)) :
    ∃ input, ExternalInput b sp.txIdx input ∧ sp.txo = input.prevout ∧
      utxoset[sp.txo]? = some sp.info := by
  obtain ⟨e, he, hsp⟩ := List.mem_filterMap.mp h
  simp only [spendOf] at hsp
  split_ifs at hsp with hneeds
  obtain ⟨info, hinfo, rfl⟩ := Option.map_eq_some_iff.mp hsp
  obtain ⟨d, -, heq, hext⟩ := (needsUtxo_iff hp).mp ⟨he, hneeds⟩
  have hidx : e.1.txIdx = d.1 := by rw [heq]; rfl
  have hprev : (⟨e.1.prevoutHash, e.1.prevoutN⟩ : TXO) = d.2.2.prevout := by rw [heq]; rfl
  exact ⟨d.2.2, by rw [hidx]; exact hext, hprev, hinfo⟩

/-- Every input that spends an earlier block is recorded. -/
theorem exists_spend (hp : Prepared H b ppb)
    (hall : ∀ e ∈ ppb.inputs.zipIdx, NeedsUtxo e →
      (⟨e.1.prevoutHash, e.1.prevoutN⟩ : TXO) ∈ utxoset)
    {i : Nat} {input : CTxIn} (h : ExternalInput b i input) :
    ∃ sp ∈ ppb.inputs.zipIdx.filterMap (spendOf utxoset),
      sp.txIdx = i ∧ sp.txo = input.prevout := by
  obtain ⟨hpos, ⟨tx, htx, hin⟩, hout⟩ := h
  obtain ⟨n, hn⟩ := flatIns_of_mem htx hin
  obtain ⟨j, hj⟩ := List.mem_iff_getElem?.mp hn
  let e : InputPt × Nat :=
    ({ inputPt (i, n, input) with parentTxOutIdx := parentIdx b.vtx input }, j)
  obtain ⟨he, hneeds⟩ := (needsUtxo_iff (e := e) hp).mpr
    ⟨_, hj, rfl, hpos, ⟨tx, htx, hin⟩, hout⟩
  obtain ⟨info, hinfo⟩ := mem_iff_getElem?.mp (hall e he hneeds)
  refine ⟨{ inum := j, txIdx := i, txo := input.prevout, info := info },
    List.mem_filterMap.mpr ⟨e, he, ?_⟩, rfl, rfl⟩
  simp only [spendOf]
  rw [if_neg hneeds, hinfo]
  rfl

section Aggregate

variable {m : HashXAggregated} {T O : HashX → Nat → Prop}

theorem aggregates_foldl (h : Aggregates m T O) (sps : List Spend) :
    Aggregates
      (sps.foldl (fun m sp => m.upd sp.info.hashX (AggregatedOutsIns.addIn sp.inum sp.txIdx)) m)
      (fun hx i => T hx i ∨ ∃ sp ∈ sps, sp.info.hashX = hx ∧ sp.txIdx = i) O := by
  induction sps generalizing m T with
  | nil =>
      refine h.congr ?_ fun _ _ => Iff.rfl
      simp
  | cons sp sps ih =>
      refine (ih (h.addIn sp.info.hashX sp.inum sp.txIdx)).congr ?_ fun _ _ => Iff.rfl
      intro hx i
      simp only [List.mem_cons, exists_eq_or_imp]
      constructor
      · rintro ((ht | ⟨hh, rfl⟩) | hr)
        · exact .inl ht
        · exact .inr (.inl ⟨hh, rfl⟩)
        · exact .inr (.inr hr)
      · rintro (ht | ⟨hh, rfl⟩ | hr)
        · exact .inl (.inl ht)
        · exact .inl (.inr ⟨hh, rfl⟩)
        · exact .inr hr

theorem agg_foldl_of_not_mem {sps : List Spend} {hx : HashX}
    (h : ∀ sp ∈ sps, sp.info.hashX ≠ hx) :
    HashXAggregated.agg
      (sps.foldl (fun m sp => m.upd sp.info.hashX (AggregatedOutsIns.addIn sp.inum sp.txIdx)) m)
      hx = m.agg hx := by
  induction sps generalizing m with
  | nil => rfl
  | cons sp sps ih =>
      rw [List.foldl_cons, ih fun sp' h' => h sp' (by simp [h']), HashXAggregated.agg_upd,
        if_neg (h sp (by simp))]

/-- The script hashes of the block with all its inputs. -/
theorem aggregates_spends (hp : Prepared H b ppb) (spends : List Spend) :
    Aggregates (aggregateSpends ppb spends)
      (fun hx i => Touches H b.vtx hx i ∨ ∃ sp ∈ spends,
        sp.fromEarlierBlock ppb.height = true ∧ sp.info.hashX = hx ∧ sp.txIdx = i)
      (OutAt H b.vtx) := by
  have hfold := aggregates_foldl hp.agg (spends.filter (Spend.fromEarlierBlock ppb.height))
  refine (hfold.map ?_ ?_ ?_).congr (fun hx i => ?_) fun _ _ => Iff.rfl
  · intro hx
    split_ifs <;> rfl
  · intro hx ag i
    split_ifs <;> simp [resortResolved]
  · intro hx ag
    split_ifs <;> exact .refl _
  · simp only [List.mem_filter, and_assoc]

theorem sorted_spends (hp : Prepared H b ppb) (spends : List Spend) (hx : HashX) :
    (HashXAggregated.agg (aggregateSpends ppb spends) hx).txNumsInvolvingHashX.Pairwise
      (· < ·) := by
  rw [aggregateSpends, HashXAggregated.agg_map]
  · split_ifs with hmem
    · exact pairwise_lt_sortUnique _
    · rw [agg_foldl_of_not_mem]
      · exact hp.sorted hx
      · intro sp hsp heq
        exact hmem (List.mem_map.mpr ⟨sp, hsp, heq⟩)
  · split_ifs <;> rfl

end Aggregate

/-- What the loops of `addBlock` have found out about a block. -/
structure Changes (H : Hashers) (ix : ChainIndex) (b : CBlock) (ppb : PreProcessedBlock)
    (ch : BlockChanges) : Prop where
  adds : ch.adds = newUtxos ppb ix.txNumNext
  mem_adds : ∀ e, e ∈ ch.adds ↔
    ∃ i n out tx hx, b.vtx[i]? = some tx ∧ tx.vout[n]? = some out ∧ out.LockedTo H hx ∧
      ¬ SpentInBlock b.vtx i n ∧ e = (⟨tx.hash, n⟩, outInfo ppb.height ix.txNumNext i hx out)
  spends : ch.spends = ppb.inputs.zipIdx.filterMap (spendOf ix.utxos.utxoset)
  mem_spends : ∀ sp ∈ ch.spends, ∃ input, ExternalInput b sp.txIdx input ∧
    sp.txo = input.prevout ∧ ix.utxos.utxoset[sp.txo]? = some sp.info
  exists_spend : ∀ i input, ExternalInput b i input →
    ∃ sp ∈ ch.spends, sp.txIdx = i ∧ sp.txo = input.prevout
  agg : Aggregates ch.hashXAggregated
    (fun hx i => Touches H b.vtx hx i ∨ ∃ sp ∈ ch.spends,
      sp.fromEarlierBlock ppb.height = true ∧ sp.info.hashX = hx ∧ sp.txIdx = i)
    (OutAt H b.vtx)
  sorted : ∀ hx, (ch.hashXAggregated.agg hx).txNumsInvolvingHashX.Pairwise (· < ·)

theorem changes_of_blockChanges {ix : ChainIndex} {ch : BlockChanges} (hp : Prepared H b ppb)
    (h : blockChanges ix ppb = .ok ch) : Changes H ix b ppb ch := by
  unfold blockChanges at h
  cases hs : spendInputs ix.utxos.utxoset ppb 0 ppb.inputs with
  | error e =>
      rw [hs] at h
      cases h
  | ok spends =>
      rw [hs] at h
      cases h
      obtain ⟨rfl, hall⟩ := spendInputs_eq hs
      exact ⟨rfl, fun e => mem_newUtxos hp, rfl, fun sp => mem_spends hp,
        fun i input => exists_spend hp hall, aggregates_spends hp _, sorted_spends hp _⟩

/-- A block whose inputs all exist is accepted by the loops. -/
theorem blockChanges_ok {ix : ChainIndex} (hp : Prepared H b ppb)
    (h : ∀ i input, ExternalInput b i input → input.prevout ∈ ix.utxos.utxoset) :
    ∃ ch, blockChanges ix ppb = .ok ch := by
  have hall : ∀ e ∈ ppb.inputs.zipIdx 0, NeedsUtxo e →
      (⟨e.1.prevoutHash, e.1.prevoutN⟩ : TXO) ∈ ix.utxos.utxoset := by
    intro e he hneeds
    obtain ⟨d, -, heq, hext⟩ := (needsUtxo_iff hp).mp ⟨he, hneeds⟩
    have hprev : (⟨e.1.prevoutHash, e.1.prevoutN⟩ : TXO) = d.2.2.prevout := by rw [heq]; rfl
    rw [hprev]
    exact h _ _ hext
  obtain ⟨spends, hs⟩ : ∃ spends, spendInputs ix.utxos.utxoset ppb 0 ppb.inputs = .ok spends :=
    spendInputs_ok hall
  unfold blockChanges
  rw [hs]
  exact ⟨_, rfl⟩

end ChainIndex
end Storage
end Shulcrum
