import Shulcrum.Mempool.DspRun
import Shulcrum.Rpa.Blocks

/-!
# Prefixes in the mempool and in blocks

The prefix table of the mempool is switched on by the controller once the tip
reaches the configured height; from then on every operation of the mempool
keeps it.  It lists a transaction under the same prefixes as the table of a
block that holds it.

**Results.**
* `rpaInv_of_reachable`: if the table is switched on while the mempool is empty,
  it has the rows of the transactions in every run.
* `rpa_index_agrees`: the mempool, the blocks and the blocks indexed again list
  the same prefixes.
-/

namespace Shulcrum
namespace Rpa

open Mempool Invariant PreProcessedBlock PrefixTable

section Runs

variable (H : Hashers)

/-- The steps of the mempool, and the controller's step that switches the table on. -/
inductive RpaStep : RunState → RunState → Prop
  | base {s t : RunState} (hstep : DspStep H s t) : RpaStep s t
  /-- `mutableMempool.optPrefixTable.emplace()`. -/
  | enable {s : RunState} (hnone : s.mp.optPrefixTable = none) :
      RpaStep s { s with mp := { s.mp with optPrefixTable := some ∅ } }

/-- A run starts without a table or with an empty one. -/
def RpaStart (s : RunState) : Prop := ∃ rpa, s.Start rpa

/-- If the step switches the table on, the mempool is empty. -/
def EnablesEmpty (s t : RunState) : Prop :=
  s.mp.optPrefixTable = none → t.mp.optPrefixTable ≠ none → s.mp.txs = ∅

/-- The steps that switch the table on only while the mempool is empty. -/
def SafeStep (s t : RunState) : Prop := RpaStep H s t ∧ EnablesEmpty s t

/-- The mempool represents its transactions, with or without a table. -/
def RpaInv (s : RunState) : Prop := ∃ rpa, RunInv H rpa s.noDsps

variable {H}

/-- Switching the table on over the empty mempool. -/
theorem RpaInv.enable {s : RunState} (h : RpaInv H s) (hnone : s.mp.optPrefixTable = none)
    (hempty : s.mp.txs = ∅) :
    RpaInv H { s with mp := { s.mp with optPrefixTable := some ∅ } } := by
  obtain ⟨rpa, hinv⟩ := h
  have hrpa : rpa = false := by
    rw [← hinv.rep.table.isSome]
    exact congrArg Option.isSome hnone
  subst hrpa
  have htxs : s.txs = [] := by
    apply List.eq_nil_iff_forall_not_mem.mpr
    intro nt hnt
    have hin : nt.hash ∈ s.noDsps.mp.txs := by
      rw [hinv.rep.toContent.mem_txs, (Pool.ofList_eq_some hinv.nodup).mpr ⟨hnt, rfl⟩]
      exact Option.some_ne_none nt
    have htx : s.noDsps.mp.txs = ∅ := hempty
    rw [htx] at hin
    simp at hin
  have hmp : s.mp.noDsps = empty false := by
    have hrep := hinv.rep
    have hnil : s.noDsps.txs = [] := htxs
    rw [hnil] at hrep
    exact hrep.unique rep_empty
  refine ⟨true, RunInv.start ⟨?_, htxs⟩⟩
  have htable : ({ s.mp with optPrefixTable := some ∅ } : Mempool).noDsps =
      { s.mp.noDsps with optPrefixTable := some ∅ } := rfl
  rw [RunState.noDsps, htable, hmp]
  rfl

theorem RpaInv.step {s t : RunState} (h : RpaInv H s) (hstep : SafeStep H s t) : RpaInv H t := by
  obtain ⟨hst, henables⟩ := hstep
  cases hst with
  | base hst =>
      obtain ⟨rpa, hinv⟩ := h
      rcases hst.noDsps with hs | heq
      · exact ⟨rpa, hinv.step hs⟩
      · refine ⟨rpa, ?_⟩
        rw [heq]
        exact hinv
  | enable hnone => exact h.enable hnone (henables hnone (by simp))

/-- The mempool represents its transactions in every run. -/
theorem rpaInv_of_reachable {s : RunState} (h : Reachable RpaStart (SafeStep H) s) :
    RpaInv H s := by
  refine h.invariant ?_ fun _ _ hi hst => hi.step hst
  rintro s ⟨rpa, hmp, htxs⟩
  refine ⟨rpa, RunInv.start ⟨?_, htxs⟩⟩
  rw [RunState.noDsps, hmp]
  rfl

/-- The table has the rows of the transactions. -/
theorem RpaInv.mem_table {s : RunState} (h : RpaInv H s) {table : MempoolPrefixTable}
    (htable : s.mp.optPrefixTable = some table) (p : UInt16) (hash : TxHash) :
    (p, hash) ∈ table ↔ ∃ nt ∈ s.txs, nt.hash = hash ∧ p ∈ rpaPrefixes H nt.ctx := by
  obtain ⟨rpa, hinv⟩ := h
  have hget : s.noDsps.mp.optPrefixTable = some table := htable
  have hrpa : rpa = true := by
    rw [← hinv.rep.table.isSome, hget]
    rfl
  obtain ⟨t, ht, hrows⟩ := hinv.rep.table.2 hrpa
  rw [hget] at ht
  cases ht
  rw [hrows]
  constructor
  · rintro ⟨nt, hnt, hp⟩
    obtain ⟨hmem, hhash⟩ := (Pool.ofList_eq_some hinv.nodup).mp hnt
    exact ⟨nt, hmem, hhash, hp⟩
  · rintro ⟨nt, hmem, hhash, hp⟩
    exact ⟨nt, (Pool.ofList_eq_some hinv.nodup).mpr ⟨hmem, hhash⟩, hp⟩

theorem mem_table_iff {s : RunState} (h : Reachable RpaStart (SafeStep H) s)
    {table : MempoolPrefixTable} (htable : s.mp.optPrefixTable = some table) (p : UInt16)
    (hash : TxHash) :
    (p, hash) ∈ table ↔ ∃ nt ∈ s.txs, nt.hash = hash ∧ p ∈ rpaPrefixes H nt.ctx :=
  (rpaInv_of_reachable h).mem_table htable p hash

/-- A transaction of the mempool has one row entry for each of its prefixes. -/
theorem mem_table_iff_of_mem {s : RunState} (h : Reachable RpaStart (SafeStep H) s)
    {table : MempoolPrefixTable} (htable : s.mp.optPrefixTable = some table) {nt : NewTx}
    (hnt : nt ∈ s.txs) (p : UInt16) :
    (p, nt.hash) ∈ table ↔ p ∈ rpaPrefixes H nt.ctx := by
  rw [mem_table_iff h htable]
  constructor
  · rintro ⟨nt', hmem, hhash, hp⟩
    obtain ⟨rpa, hinv⟩ := rpaInv_of_reachable h
    rw [List.inj_on_of_nodup_map hinv.nodup hmem hnt hhash] at hp
    exact hp
  · exact fun hp => ⟨nt, hnt, rfl, hp⟩

end Runs

section Agreement

variable (H : Hashers) (qCompress : List UInt8 → List UInt8)

/--
The prefixes of a transaction are the same in the mempool and in every block;
the table of the mempool has the rows of its transactions in every run that
switches it on while it is empty; and a block indexed again gets the table of
`fill` iff its indices fit into 24 bits.
-/
theorem rpa_index_agrees :
    (∀ s table, Reachable RpaStart (SafeStep H) s → s.mp.optPrefixTable = some table →
      (∀ p hash, (p, hash) ∈ table ↔
        ∃ nt ∈ s.txs, nt.hash = hash ∧ p ∈ (nt.ctx.vin.take rpaInputIndexLimit).map H.rpaPrefix) ∧
      ∀ nt ∈ s.txs, ∀ (b : CBlock) (i : Nat), 1 ≤ i → b.vtx[i]? = some nt.ctx →
        ∀ (cache : EmptySerialization qCompress) height blockHash blockSize ppb,
          fill H height (some (rpaWork H cache height)) blockHash blockSize b = .ok ppb →
          ppb.serializedRpaPrefixTable = some (qCompress (blockTable H b.vtx).1.dataBuf) ∧
          ∀ p : UInt16, (p, nt.hash) ∈ table ↔
            ∃ x ∈ (blockTable H b.vtx).1.row p.toNat, x.toNat = i) ∧
    (∀ (b : CBlock) (cache cache' : EmptySerialization qCompress) height bhash size,
      rpaWork H cache height b.vtx =
          .ok (synchRpa H cache' height bhash size b).serializedPrefixTable ↔
        b.vtx.length ≤ 2 ^ 24) := by
  refine ⟨?_, ?_⟩
  · intro s table hs htable
    refine ⟨mem_table_iff hs htable, ?_⟩
    intro nt hnt b i hi hget cache height blockHash blockSize ppb hfill
    obtain ⟨ser, hwork, hser⟩ := serializedRpaPrefixTable_of_fill hfill
    obtain ⟨hlen, rfl⟩ := (rpaWork_eq_ok_iff cache height b.vtx ser).mp hwork
    refine ⟨hser, ?_⟩
    intro p
    rw [mem_table_iff_of_mem hs htable hnt, mem_row_blockTable hlen hi hget]
  · intro b cache cache' height bhash size
    exact rpaWork_eq_synchRpa_iff cache cache' height bhash size b

end Agreement

section Witnesses

/-- A coinbase transaction. -/
def coinbaseTx : CTransaction where
  hash := 20
  vin := [{ prevout := ⟨0, 0xffffffff⟩ }]
  vout := [{ nValue := 50, scriptPubKey := [0x51] }]

/-- A header without content. -/
def plainHeader : BTC.CBlockHeader :=
  { headerV2 := false, nVersion := 1, hashPrevBlock := 0, hashMerkleRoot := 0, nTime := 0
    nBits := 0, nNonce := 0 }

/-- A block that confirms `parentTx`. -/
def confirmingBlock : CBlock where
  header := plainHeader
  vtx := [coinbaseTx, parentTx.ctx]
  coinbase := by decide
  hash_ne_null := by decide

theorem fill_confirmingBlock : ∃ ppb,
    fill opTrueHashers 7 (some (rpaWork opTrueHashers noCache 7)) 0 200 confirmingBlock =
      .ok ppb := by
  refine fill_ok ?_ ?_ ?_
  · intro i tx hget
    have hmem := List.mem_of_getElem? hget
    simp only [confirmingBlock, List.mem_cons, List.not_mem_nil, or_false] at hmem
    rcases hmem with rfl | rfl
    · refine ⟨by decide, fun hi input hin => ?_⟩
      match i, hget with
      | 0, _ => omega
      | 1, hget => cases hget
    · exact ⟨by decide, fun _ => by decide⟩
  · decide
  · intro work hwork
    cases hwork
    exact ⟨_, (rpaWork_eq_ok_iff noCache 7 _ _).mpr ⟨by decide, rfl⟩⟩

/-- A run that switches the table on and then adds `parentTx`. -/
theorem exists_enabled_run : ∃ (s : RunState) (table : MempoolPrefixTable),
    Reachable RpaStart (SafeStep opTrueHashers) s ∧ s.txs = [parentTx] ∧
      s.mp.optPrefixTable = some table := by
  have hinit : Reachable RpaStart (SafeStep opTrueHashers)
      { mp := empty false, txs := [], db := oneOutput } := .start ⟨false, rfl, rfl⟩
  have hon := hinit.next ⟨.enable rfl, fun _ _ => rfl⟩
  obtain ⟨r, hok, hrep⟩ := rebuild true (by decide) resolved_parentTx ∅
  have hadd : RpaStep opTrueHashers { mp := empty true, txs := [], db := oneOutput } _ :=
    .base (.base (.add [parentTx] ∅ fresh_parentTx (noDoubleSpend_single parentTx) hok))
  obtain ⟨table, htable, -⟩ := hrep.table.2 rfl
  exact ⟨_, table, hon.next ⟨hadd, fun hnone => by cases hnone⟩, rfl, htable⟩

/-- `parentTx` has prefix 0 in the mempool and in the block that confirms it. -/
theorem rpa_index_agrees_parentTx : ∃ (s : RunState) (table : MempoolPrefixTable),
    Reachable RpaStart (SafeStep opTrueHashers) s ∧ s.mp.optPrefixTable = some table ∧
      ((0 : UInt16), parentTx.hash) ∈ table ∧
      (∃ x ∈ (blockTable opTrueHashers confirmingBlock.vtx).1.row (0 : UInt16).toNat,
        x.toNat = 1) ∧
      rpaWork opTrueHashers noCache 7 confirmingBlock.vtx =
        .ok (synchRpa opTrueHashers noCache 7 0 200 confirmingBlock).serializedPrefixTable := by
  obtain ⟨s, table, hs, htxs, htable⟩ := exists_enabled_run
  obtain ⟨ppb, hfill⟩ := fill_confirmingBlock
  have hmem : parentTx ∈ s.txs := by
    rw [htxs]
    exact List.mem_singleton_self parentTx
  obtain ⟨hruns, hblocks⟩ := rpa_index_agrees opTrueHashers id
  obtain ⟨hrows, hsame⟩ := hruns s table hs htable
  have hin : ((0 : UInt16), parentTx.hash) ∈ table :=
    (hrows 0 parentTx.hash).mpr ⟨parentTx, hmem, rfl, by decide⟩
  obtain ⟨-, hiff⟩ := hsame parentTx hmem confirmingBlock 1 le_rfl rfl noCache 7 0 200 ppb hfill
  exact ⟨s, table, hs, htable, hin, (hiff 0).mp hin,
    (hblocks confirmingBlock noCache noCache 7 0 200).mpr (by decide)⟩

/-- The transactions of `hugeBlock` after the coinbase, each spending an older output. -/
def hugeTx (i : Nat) : CTransaction where
  hash := BitVec.ofNat 256 (i + 1)
  vin := [{ prevout := ⟨BitVec.ofNat 256 (i + 2 ^ 25), 0⟩ }]
  vout := [{ nValue := 1, scriptPubKey := [0x51] }]

/-- A block with one transaction more than there are 24-bit indices. -/
def hugeBlock : CBlock where
  header := plainHeader
  vtx := { coinbaseTx with hash := BitVec.ofNat 256 (2 ^ 26) } :: (List.range (2 ^ 24)).map hugeTx
  coinbase := rfl
  hash_ne_null := by
    intro tx htx
    rcases List.mem_cons.mp htx with rfl | htx
    · decide
    · obtain ⟨i, hi, rfl⟩ := List.mem_map.mp htx
      rw [List.mem_range] at hi
      intro hzero
      have hnat : (BitVec.ofNat 256 (i + 1)).toNat = (0 : BitVec 256).toNat :=
        congrArg BitVec.toNat hzero
      rw [BitVec.toNat_ofNat, Nat.mod_eq_of_lt (by omega)] at hnat
      exact absurd hnat (by simp)

theorem length_hugeBlock : hugeBlock.vtx.length = 2 ^ 24 + 1 := by
  rw [hugeBlock, List.length_cons, List.length_map, List.length_range]

/--
`fill` refuses `hugeBlock`, which the other path indexes; and a table that is
switched on after `parentTx` was added lists nothing.
-/
theorem rpa_index_differs :
    (hugeBlock.vtx.length = 2 ^ 24 + 1 ∧
      rpaWork opTrueHashers noCache 7 hugeBlock.vtx ≠
        .ok (synchRpa opTrueHashers noCache 7 0 200 hugeBlock).serializedPrefixTable ∧
      ∀ ppb, fill opTrueHashers 7 (some (rpaWork opTrueHashers noCache 7)) 0 200 hugeBlock ≠
        .ok ppb) ∧
    ∃ s : RunState, Reachable RpaStart (RpaStep opTrueHashers) s ∧ s.txs = [parentTx] ∧
      s.mp.optPrefixTable = some ∅ ∧
      (0 : UInt16) ∈ (parentTx.ctx.vin.take rpaInputIndexLimit).map opTrueHashers.rpaPrefix := by
  have hlong : ¬ hugeBlock.vtx.length ≤ maxTxIdx + 1 := by
    rw [length_hugeBlock]
    decide
  refine ⟨⟨length_hugeBlock, ?_, ?_⟩, ?_⟩
  · intro heq
    exact hlong ((rpaWork_eq_synchRpa_iff noCache noCache 7 0 200 hugeBlock).mp heq)
  · intro ppb hfill
    obtain ⟨ser, hwork, -⟩ := serializedRpaPrefixTable_of_fill hfill
    exact hlong ((rpaWork_eq_ok_iff noCache 7 hugeBlock.vtx ser).mp hwork).1
  · have hinit : Reachable RpaStart (RpaStep opTrueHashers)
        { mp := empty false, txs := [], db := oneOutput } := .start ⟨false, rfl, rfl⟩
    obtain ⟨r, hok, hrep⟩ := rebuild false (by decide) resolved_parentTx ∅
    have hadd := hinit.next
      (.base (.base (.add [parentTx] ∅ fresh_parentTx (noDoubleSpend_single parentTx) hok)))
    exact ⟨_, hadd.next (.enable (hrep.table.1 rfl)), rfl, rfl, by decide⟩

end Witnesses

end Rpa
end Shulcrum
