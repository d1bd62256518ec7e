import Shulcrum.Storage.Run

/-!
# The chain behind the index

The index never looks at old blocks again.  Here its state is related to the
blocks themselves: in every run of valid blocks it is the index that these
blocks give when they are added one after another, whatever was added and undone
in between.

**Results.**
* `chain_of_reachable`: every run ends in the index of its blocks.
* `Chain.rec_on_blocks`: what holds of the empty index and is kept by every valid
  block holds of the index of a chain.
-/

namespace Shulcrum
namespace Storage

open Invariant TreeMap Flatten ChainIndex PreProcessedBlock

variable {H : Hashers} {opts : Options}

/-- The transactions of a chain with their heights, in the order of their numbers. -/
def chainTxs (blocks : List CBlock) : List (Nat × CTransaction) :=
  blocks.zipIdx.flatMap fun e => e.1.vtx.map fun tx => (e.2, tx)

theorem chainTxs_concat (blocks : List CBlock) (b : CBlock) :
    chainTxs (blocks ++ [b]) = chainTxs blocks ++ b.vtx.map fun tx => (blocks.length, tx) := by
  simp [chainTxs, List.zipIdx_append]

section ChainTxs

variable {blocks : List CBlock} {b : CBlock}

theorem get_chainTxs_concat {n height : Nat} {tx : CTransaction} :
    (chainTxs (blocks ++ [b]))[n]? = some (height, tx) ↔
      (chainTxs blocks)[n]? = some (height, tx) ∨
        ∃ i, n = (chainTxs blocks).length + i ∧ height = blocks.length ∧ b.vtx[i]? = some tx := by
  rw [chainTxs_concat]
  rcases Nat.lt_or_ge n (chainTxs blocks).length with hlt | hge
  · rw [List.getElem?_append_left hlt]
    constructor
    · exact .inl
    · rintro (h | ⟨i, hi, -⟩)
      · exact h
      · omega
  · rw [List.getElem?_append_right hge, List.getElem?_map, Option.map_eq_some_iff]
    constructor
    · rintro ⟨tx', htx, heq⟩
      cases heq
      exact .inr ⟨_, by omega, rfl, htx⟩
    · rintro (h | ⟨i, rfl, rfl, htx⟩)
      · rw [List.getElem?_eq_none hge] at h
        cases h
      · exact ⟨tx, by rw [Nat.add_sub_cancel_left]; exact htx, rfl⟩

theorem chainTxs_hash_ne_null {e : Nat × CTransaction} (he : e ∈ chainTxs blocks) :
    e.2.hash ≠ 0 := by
  obtain ⟨d, hd, hmem⟩ := List.mem_flatMap.mp he
  obtain ⟨tx, htx, rfl⟩ := List.mem_map.mp hmem
  exact d.1.hash_ne_null tx htx

theorem chainTxs_height_lt {e : Nat × CTransaction} (he : e ∈ chainTxs blocks) :
    e.1 < blocks.length := by
  obtain ⟨d, hd, hmem⟩ := List.mem_flatMap.mp he
  obtain ⟨tx, htx, rfl⟩ := List.mem_map.mp hmem
  exact (List.getElem?_eq_some_iff.mp (List.mem_zipIdx_iff_getElem?.mp hd)).1

theorem mem_chainTxs_concat {e : Nat × CTransaction} :
    e ∈ chainTxs (blocks ++ [b]) ↔
      e ∈ chainTxs blocks ∨ ∃ tx ∈ b.vtx, e = (blocks.length, tx) := by
  rw [chainTxs_concat, List.mem_append, List.mem_map]
  refine or_congr_right ?_
  constructor
  · rintro ⟨tx, htx, rfl⟩
    exact ⟨tx, htx, rfl⟩
  · rintro ⟨tx, htx, rfl⟩
    exact ⟨tx, htx, rfl⟩

end ChainTxs

/-- What makes a block valid after others: ids are new and nothing is spent twice in it. -/
structure ValidBlock (blocks : List CBlock) (b : CBlock) : Prop where
  ids : (b.vtx.map CTransaction.hash).Nodup
  new : ∀ tx ∈ b.vtx, ∀ e ∈ chainTxs blocks, e.2.hash ≠ tx.hash
  once : (b.vtx.flatMap fun tx => tx.vin.map CTxIn.prevout).Nodup

/-- The index that blocks give when they are added one after another, with their records. -/
inductive Chain (H : Hashers) (opts : Options) : List (CBlock × UndoInfo) → ChainIndex → Prop
  | nil : Chain H opts [] {}
  | snoc {st : List (CBlock × UndoInfo)} {ix : ChainIndex} {b : CBlock}
      {ppb : PreProcessedBlock} {ch : BlockChanges} :
      Chain H opts st ix → ValidBlock (st.map Prod.fst) b → Connected H opts ix b ppb ch →
      Chain H opts (st ++ [(b, undoOf H ix ppb ch)]) (nextIndex opts ix ppb ch)

/-- What the counters and the table of ids say about the blocks. -/
structure Numbered (blocks : List CBlock) (ix : ChainIndex) : Prop where
  wellFormed : WellFormed ix
  length : ix.headers.length = blocks.length
  txNums : ix.txNums = (chainTxs blocks).map fun e => e.2.hash

section Chain

variable {st : List (CBlock × UndoInfo)} {ix : ChainIndex} {blocks : List CBlock} {b : CBlock}
  {ppb : PreProcessedBlock} {ch : BlockChanges}

theorem numbered_empty : Numbered [] {} := ⟨wellFormed_empty, rfl, rfl⟩

theorem Numbered.txNumNext (h : Numbered blocks ix) :
    ix.txNumNext = (chainTxs blocks).length := by
  rw [← h.wellFormed.txNums_length, h.txNums, List.length_map]

theorem Numbered.connect (h : Numbered blocks ix) (hc : Connected H opts ix b ppb ch) :
    Numbered (blocks ++ [b]) (nextIndex opts ix ppb ch) := by
  have hheaders : (nextIndex opts ix ppb ch).headers =
      ix.headers ++ [BTC.padHeaderRecord opts.blockHeaderSize ppb.header.serialize] := rfl
  have hnums : (nextIndex opts ix ppb ch).txNums = ix.txNums ++ ppb.txInfos.map TxInfo.hash := rfl
  refine ⟨hc.wellFormed h.wellFormed, ?_, ?_⟩
  · rw [hheaders]
    simp [h.length]
  · rw [hnums, h.txNums, hc.prepared.hashes, chainTxs_concat]
    simp

theorem ValidBlock.not_mem_txNums (hv : ValidBlock blocks b) (h : Numbered blocks ix)
    {tx : CTransaction} (htx : tx ∈ b.vtx) : tx.hash ∉ ix.txNums := by
  rw [h.txNums]
  intro hmem
  obtain ⟨e, he, heq⟩ := List.mem_map.mp hmem
  exact hv.new tx htx e he heq

/-- What holds of the empty index and is kept by every valid block holds of a chain. -/
theorem Chain.rec_on_blocks {P : List CBlock → ChainIndex → Prop} (hnil : P [] {})
    (hsnoc : ∀ {blocks ix b ppb ch}, Numbered blocks ix → P blocks ix → ValidBlock blocks b →
      Connected H opts ix b ppb ch → P (blocks ++ [b]) (nextIndex opts ix ppb ch))
    (h : Chain H opts st ix) : Numbered (st.map Prod.fst) ix ∧ P (st.map Prod.fst) ix := by
  induction h with
  | nil => exact ⟨numbered_empty, hnil⟩
  | snoc _ hv hc ih =>
      rw [List.map_append]
      exact ⟨ih.1.connect hc, hsnoc ih.1 ih.2 hv hc⟩

theorem Chain.numbered (h : Chain H opts st ix) : Numbered (st.map Prod.fst) ix :=
  (h.rec_on_blocks (P := fun _ _ => True) trivial fun _ _ _ _ => trivial).1

/-- The last block of a chain. -/
theorem Chain.eq_snoc {k : Nat} {u : UndoInfo} (h : Chain H opts st ix)
    (hlen : st.length = k + 1) (hu : st[k]?.map Prod.snd = some u) :
    ∃ st' ix' b ppb ch, Chain H opts st' ix' ∧ ValidBlock (st'.map Prod.fst) b ∧
      Connected H opts ix' b ppb ch ∧ u = undoOf H ix' ppb ch ∧
      st = st' ++ [(b, u)] ∧ ix = nextIndex opts ix' ppb ch := by
  cases h with
  | nil => simp at hlen
  | @snoc st' ix' b ppb ch hchain hv hc =>
      rw [List.length_append, List.length_singleton] at hlen
      obtain rfl : k = st'.length := by omega
      rw [get_concat, if_pos rfl] at hu
      obtain rfl : undoOf H ix' ppb ch = u := Option.some.inj hu
      exact ⟨st', ix', b, ppb, ch, hchain, hv, hc, rfl, rfl, rfl⟩

end Chain

/-- The blocks of a run give its index, and its undo records are theirs. -/
def ChainInv (H : Hashers) (opts : Options) (r : ChainRun) : Prop :=
  ∃ st, Chain H opts st r.state.index ∧ st.map Prod.fst = r.blocks ∧
    ∀ (k : Nat) (u : UndoInfo), r.state.undo[k]? = some u → st[k]?.map Prod.snd = some u

section Run

variable {r r' : ChainRun}

theorem Expired.get {height k : Nat} {u : UndoInfo}
    {table table' : Std.ExtTreeMap Nat UndoInfo compare} (h : Expired opts height table table')
    (hget : table'[k]? = some u) : table[k]? = some u := by
  rcases h with rfl | ⟨-, rfl⟩
  · exact hget
  · rw [get_erase] at hget
    split_ifs at hget
    exact hget

/-- A record that was there before the block, or the record of the block. -/
theorem Expired.cases {s : State} {height k : Nat} {saveUndo : Bool} {new u : UndoInfo}
    {table : Std.ExtTreeMap Nat UndoInfo compare}
    (h : Expired opts height (savedRecords s height (if saveUndo then some new else none)) table)
    (hget : table[k]? = some u) : (k = height ∧ u = new) ∨ s.undo[k]? = some u := by
  have hsaved := h.get hget
  cases saveUndo with
  | false => exact .inr hsaved
  | true =>
      simp only [if_true, savedRecords, Option.elim_some, get_insert] at hsaved
      split_ifs at hsaved with hk
      · exact .inl ⟨hk.symm, (Option.some.inj hsaved).symm⟩
      · exact .inr hsaved

theorem ChainInv.congr {s : State} (h : ChainInv H opts r) (hindex : s.index = r.state.index)
    (hundo : s.undo = r.state.undo) : ChainInv H opts { r with state := s } := by
  obtain ⟨st, hchain, hblocks, hrecords⟩ := h
  refine ⟨st, ?_, hblocks, ?_⟩
  · rw [hindex]
    exact hchain
  · rw [hundo]
    exact hrecords

theorem ChainInv.add {s : State} {b : CBlock} {ppb : PreProcessedBlock} {ch : BlockChanges}
    {saveUndo : Bool} (h : ChainInv H opts r) (hv : ValidBlock r.blocks b)
    (hc : Connected H opts r.state.index b ppb ch)
    (hindex : s.index = nextIndex opts r.state.index ppb ch)
    (hundo : Expired opts ppb.height (savedRecords r.state ppb.height
      (if saveUndo then some (undoOf H r.state.index ppb ch) else none)) s.undo) :
    ChainInv H opts { state := s, blocks := r.blocks ++ [b] } := by
  obtain ⟨st, hchain, hblocks, hrecords⟩ := h
  rw [← hblocks] at hv
  refine ⟨st ++ [(b, undoOf H r.state.index ppb ch)], ?_, ?_, ?_⟩
  · rw [hindex]
    exact hchain.snoc hv hc
  · rw [List.map_append, hblocks]
    rfl
  · intro k u hget
    have hlen : ppb.height = st.length := by
      rw [hc.height, hchain.numbered.length, List.length_map]
    rw [get_concat]
    rcases hundo.cases hget with ⟨rfl, rfl⟩ | hold
    · rw [if_pos hlen]
      rfl
    · have hst := hrecords k u hold
      obtain ⟨e, he, -⟩ := Option.map_eq_some_iff.mp hst
      have hlt := (List.getElem?_eq_some_iff.mp he).1
      rw [if_neg (by omega)]
      exact hst

/-- Undoing the last block gives the index of the blocks before it. -/
theorem ChainInv.undo {notifySubs : Bool} {u : Undone} (h : ChainInv H opts r)
    (hundo : undoLatestBlock H r.state notifySubs = .ok u) :
    ChainInv H opts { state := u.state, blocks := r.blocks.dropLast } := by
  obtain ⟨st, hchain, hblocks, hrecords⟩ := h
  obtain ⟨prevHeader, info, hv, hheader, hget, hd, -, htable⟩ := undoLatestBlock_eq_ok hundo
  have hnum := hchain.numbered
  obtain ⟨htip, -⟩ := WellFormed.tip_eq hnum.wellFormed hv
  have hlen : st.length = u.prevHeight + 1 + 1 := by
    rw [← List.length_map Prod.fst, ← hnum.length, htip]
  obtain ⟨st', ix', b, ppb, ch, hchain', hvalid, hc, rfl, rfl, hindex⟩ :=
    hchain.eq_snoc hlen (hrecords _ _ hget)
  have hnum' := hchain'.numbered
  have hlen' : ix'.headers.length = u.prevHeight + 1 := by
    rw [hnum'.length, List.length_map]
    simpa using hlen
  have hheader' : ix'.headers[u.prevHeight]? = some prevHeader := by
    have hheaders : (nextIndex opts ix' ppb ch).headers =
        ix'.headers ++ [BTC.padHeaderRecord opts.blockHeaderSize ppb.header.serialize] := rfl
    rw [hindex, hheaders, List.getElem?_append_left (by omega)] at hheader
    exact hheader
  have hsame : u.state.index = ix' := by
    rw [hindex, hc.disconnect_eq_ok_iff hnum'.wellFormed
      (fun tx htx => hvalid.not_mem_txNums hnum' htx) hlen' hheader'] at hd
    exact hd.2
  refine ⟨st', ?_, ?_, ?_⟩
  · rw [hsame]
    exact hchain'
  · rw [← hblocks, List.map_append]
    exact List.dropLast_concat.symm
  · intro k u' hk
    rw [htable, get_erase] at hk
    split_ifs at hk with hne
    have hold := hrecords k u' hk
    rw [get_concat] at hold
    split_ifs at hold with hlast
    · rw [List.length_append, List.length_singleton] at hlen
      omega
    · exact hold

theorem ChainInv.step (h : ChainInv H opts r) (hstep : ChainStep H opts ValidBlock r r') :
    ChainInv H opts r' := by
  cases hstep with
  | add hfill hv hfits hadd =>
      obtain ⟨ch, hc, hindex, hundo⟩ := connected_of_addBlock hfill hfits hadd
      exact h.add hv hc hindex hundo
  | reject hadd =>
      obtain ⟨recent, hconf⟩ := confirmInMempool_eq r.state _ _ _
      rw [state_of_rejected hadd, hconf]
      exact h.congr rfl rfl
  | undo hundo => exact h.undo hundo
  | mempool mp => exact h.congr rfl rfl

/-- Every run of valid blocks ends in the index of its blocks. -/
theorem chain_of_reachable (h : Reachable ChainRun.Start (ChainStep H opts ValidBlock) r) :
    ∃ st, Chain H opts st r.state.index ∧ st.map Prod.fst = r.blocks := by
  have hinv : ChainInv H opts r := by
    refine Reachable.invariant ?_ (fun _ _ hr hstep => hr.step hstep) h
    rintro _ rfl
    refine ⟨[], .nil, rfl, ?_⟩
    intro k u hget
    simp at hget
  obtain ⟨st, hchain, hblocks, -⟩ := hinv
  exact ⟨st, hchain, hblocks⟩

end Run

end Storage
end Shulcrum
