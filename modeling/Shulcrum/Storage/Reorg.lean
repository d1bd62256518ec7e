import Shulcrum.Storage.History

/-!
# Leaving one chain for another

What the controller relies on when it goes back to a common block and on from
there: the index is a function of the blocks, the headers of a run are linked, a
block whose record is there can be undone, and whether a block is accepted depends
on the index only.

**Results.**
* `Chain.unique`: the blocks determine the index.
* `linked_of_reachable`: the headers of a run are linked.
* `ChainInv.undo_ok_iff`: a block with a record can be undone exactly when what the undo reads
  is not too long.
* `addBlock_of_index`, `addBlock_rejects`: when the next block is accepted.
-/

namespace Shulcrum
namespace Storage

open Invariant TreeMap Flatten ChainIndex PreProcessedBlock

variable {H : Hashers} {opts : Options}

section Unique

variable {st st' : List (CBlock × UndoInfo)} {ix ix' : ChainIndex} {blocks : List CBlock}

theorem insertForBlock_hashes (m : Std.ExtTreeMap (BitVec 48) (List Nat) compare) (txNum0 : Nat)
    (txInfos : List TxInfo) :
    insertForBlock m txNum0 txInfos =
      ((txInfos.map TxInfo.hash).zipIdx txNum0).foldl
        (fun m e => concat m (makeKeyFromHash e.1) [e.2]) m := by
  rw [insertForBlock, List.zipIdx_map, List.foldl_map]
  rfl

/-- The blocks determine the table of histories. -/
theorem shist_unique (hw : WellFormed ix) (hw' : WellFormed ix')
    (h : HistoryExact H blocks ix) (h' : HistoryExact H blocks ix') : ix.shist = ix'.shist := by
  have hgetD : ∀ hx : HashX, ix.shist[hx]?.getD [] = ix'.shist[hx]?.getD [] := by
    intro hx
    have hsorted := (hw.history hx).1
    have hsorted' := (hw'.history hx).1
    have hperm : (ix.shist[hx]?.getD []).Perm (ix'.shist[hx]?.getD []) := by
      refine (List.perm_ext_iff_of_nodup (hsorted.imp fun h => Nat.ne_of_lt h)
        (hsorted'.imp fun h => Nat.ne_of_lt h)).mpr fun n => ?_
      rw [h hx n, h' hx n]
    exact hperm.eq_of_pairwise' hsorted hsorted'
  apply Std.ExtTreeMap.ext_getElem?
  intro hx
  have heq := hgetD hx
  -- no list is empty
  cases hget : ix.shist[hx]? with
  | none =>
      cases hget' : ix'.shist[hx]? with
      | none => rfl
      | some l =>
          rw [hget, hget'] at heq
          exact absurd heq.symm (hw'.shist hx l hget').1
  | some l =>
      cases hget' : ix'.shist[hx]? with
      | none =>
          rw [hget, hget'] at heq
          exact absurd heq (hw.shist hx l hget).1
      | some l' =>
          rw [hget, hget'] at heq
          exact congrArg some heq

/-- The blocks determine the tables of unspent outputs. -/
theorem utxos_unique (h : UtxosExact H blocks ix) (h' : UtxosExact H blocks ix') :
    ix.utxos = ix'.utxos := by
  have hset : ix.utxos.utxoset = ix'.utxos.utxoset := by
    apply Std.ExtTreeMap.ext_getElem?
    intro txo
    apply Option.ext
    intro info
    rw [h.utxo, h'.utxo]
  have hunspent : ix.utxos.shunspent = ix'.utxos.shunspent := by
    apply Std.ExtTreeMap.ext_getElem?
    intro key
    apply Option.ext
    intro v
    rw [h.unspent, h'.unspent, hset]
  have hcount : ix.utxos.utxoCt = ix'.utxos.utxoCt := by
    rw [h.count, h'.count, hset]
  cases hb : ix.utxos
  cases hb' : ix'.utxos
  simp_all

/-- The blocks determine the index. -/
theorem Chain.unique (h : Chain H opts st ix) (h' : Chain H opts st' ix')
    (hblocks : st.map Prod.fst = st'.map Prod.fst) : ix = ix' := by
  induction h generalizing st' ix' with
  | nil =>
      cases h' with
      | nil => rfl
      | snoc _ _ _ => simp at hblocks
  | @snoc st ix b ppb ch hchain hv hc ih =>
      cases h' with
      | nil => simp at hblocks
      | @snoc st' ix' b' ppb' ch' hchain' hv' hc' =>
          rw [List.map_append, List.map_append] at hblocks
          obtain ⟨hold, hb⟩ := List.append_inj' hblocks rfl
          obtain rfl : b = b' := (List.cons.inj hb).1
          obtain rfl := ih hchain' hold
          have hnext := hchain.snoc hv hc
          have hnext' := hchain'.snoc hv' hc'
          have hhashes : ppb.txInfos.map TxInfo.hash = ppb'.txInfos.map TxInfo.hash := by
            rw [hc.prepared.hashes, hc'.prepared.hashes]
          have hnTx : ppb.txInfos.length = ppb'.txInfos.length := by rw [hc.nTx, hc'.nTx]
          have hheader : ppb.header = ppb'.header := by
            rw [hc.prepared.header, hc'.prepared.header]
          have hheight : ppb.height = ppb'.height := by rw [hc.height, hc'.height]
          have hsame : (st ++ [(b, undoOf H ix ppb ch)]).map Prod.fst =
              (st' ++ [(b, undoOf H ix ppb' ch')]).map Prod.fst := by
            rw [List.map_append, List.map_append, hold]
            rfl
          have hshist : (nextIndex opts ix ppb ch).shist = (nextIndex opts ix ppb' ch').shist :=
            shist_unique hnext.numbered.wellFormed hnext'.numbered.wellFormed
              hnext.historyExact.1 (by rw [hsame]; exact hnext'.historyExact.1)
          have hutxos : (nextIndex opts ix ppb ch).utxos = (nextIndex opts ix ppb' ch').utxos :=
            utxos_unique hnext.utxosExact.2.2 (by rw [hsame]; exact hnext'.utxosExact.2.2)
          unfold nextIndex writeBlock at hshist hutxos ⊢
          simp only [insertForBlock_hashes, hhashes, hnTx, hheader, hheight] at hshist hutxos ⊢
          rw [hshist, hutxos]

end Unique

/-- Every header names the block before it. -/
def Linked (H : Hashers) (blocks : List CBlock) : Prop :=
  ∀ (h : Nat) (b b' : CBlock), blocks[h]? = some b → blocks[h + 1]? = some b' →
    b'.header.hashPrevBlock = H.headerPoWHash b.header.serialize

section Links

variable {r r' : ChainRun} {blocks : List CBlock}

/-- The header that was verified last is that of the last block. -/
theorem ChainInv.verifier (h : ChainInv H opts r) :
    r.state.index.headerVerifier =
      { prevHeight := (r.blocks.length : Int) - 1
        prev := (r.blocks.getLast?.map fun b => b.header.serialize).getD [] } := by
  obtain ⟨st, hchain, hblocks, -⟩ := h
  have hnum := hchain.numbered
  rw [← hblocks]
  generalize r.state.index = ix at hchain hnum
  cases hchain with
  | nil => rfl
  | @snoc st ix b ppb ch hchain hv hc =>
      have hheight : (nextIndex opts ix ppb ch).headerVerifier.prevHeight =
          ((nextIndex opts ix ppb ch).headers.length : Int) - 1 := by
        rw [hnum.wellFormed.verifier]
      have hprev : (nextIndex opts ix ppb ch).headerVerifier.prev = ppb.header.serialize := rfl
      rw [hnum.length] at hheight
      rw [hc.prepared.header] at hprev
      cases hv : (nextIndex opts ix ppb ch).headerVerifier
      rw [hv] at hheight hprev
      rw [BTC.HeaderVerifier.mk.injEq, List.map_append, List.map_singleton, List.getLast?_concat]
      rw [List.map_append, List.map_singleton] at hheight
      exact ⟨hheight, hprev⟩

theorem Linked.take (h : Linked H blocks) (n : Nat) : Linked H (blocks.take n) := by
  intro k b b' hb hb'
  rw [List.getElem?_take] at hb hb'
  split_ifs at hb hb' with hk hk'
  exact h k b b' hb hb'

theorem Linked.concat {b : CBlock} (h : Linked H blocks)
    (hlast : ∀ tip, blocks.getLast? = some tip →
      b.header.hashPrevBlock = H.headerPoWHash tip.header.serialize) :
    Linked H (blocks ++ [b]) := by
  intro k c c' hc hc'
  have hlt := (List.getElem?_eq_some_iff.mp hc').1
  rw [List.length_append, List.length_singleton] at hlt
  rw [List.getElem?_append_left (by omega)] at hc
  rcases Nat.lt_or_ge (k + 1) blocks.length with hold | hnew
  · rw [List.getElem?_append_left hold] at hc'
    exact h k c c' hc hc'
  · obtain rfl : c' = b := by
      rw [List.getElem?_append_right hnew, Nat.sub_eq_zero_of_le (by omega)] at hc'
      exact (Option.some.inj hc').symm
    refine hlast c ?_
    rw [List.getLast?_eq_getElem?, show blocks.length - 1 = k by omega]
    exact hc

/-- The header of a block that was accepted is there and names the tip. -/
theorem header_of_addBlock {s s' : State} {ppb : PreProcessedBlock} {saveUndo notifySubs : Bool}
    {trackRecent : Bool} {notify : Option NotifyData}
    (h : addBlock H opts s ppb saveUndo notifySubs trackRecent = .ok s' notify) :
    ppb.header.isNull = false ∧
      (s.index.headerVerifier.prev = [] ∨
        H.headerPoWHash s.index.headerVerifier.prev = ppb.header.hashPrevBlock) := by
  obtain ⟨recent, hconf⟩ := confirmInMempool_eq s ppb notifySubs trackRecent
  simp only [addBlock, hconf] at h
  cases hv : s.index.headerVerifier.verify H.headerPoWHash ppb.header with
  | error e =>
      simp only [hv] at h
      cases h
  | ok v =>
      rw [BTC.HeaderVerifier.verify, if_neg (not_not.mpr (BTC.length_serialize _)),
        BTC.HeaderVerifier.checkInner] at hv
      by_cases hnull : ppb.header.isNull = true
      · rw [if_pos hnull] at hv
        cases hv
      · refine ⟨Bool.eq_false_iff.mpr hnull, ?_⟩
        by_contra hbad
        rw [not_or] at hbad
        rw [if_neg hnull, if_pos hbad] at hv
        cases hv

/-- The headers of a run are linked, and its blocks give its index. -/
theorem linked_of_reachable (h : Reachable ChainRun.Start (ChainStep H opts ValidBlock) r) :
    ChainInv H opts r ∧ Linked H r.blocks := by
  refine Reachable.invariant (I := fun r => ChainInv H opts r ∧ Linked H r.blocks) ?_ ?_ h
  · rintro _ rfl
    refine ⟨⟨[], .nil, rfl, ?_⟩, ?_⟩
    · intro k u hget
      simp at hget
    · intro k b b' hb
      cases hb
  · rintro r r' ⟨hinv, hlinked⟩ hstep
    refine ⟨hinv.step hstep, ?_⟩
    cases hstep with
    | add hfill hv hfits hadd =>
        refine hlinked.concat fun tip htip => ?_
        have hlink := (header_of_addBlock hadd).2
        obtain ⟨hp, -⟩ := prepared_of_fill hfill
        rw [hinv.verifier, htip, hp.header] at hlink
        rcases hlink with hnil | hlink
        · exact absurd hnil (BTC.serialize_ne_nil _)
        · exact hlink.symm
    | reject hadd => exact hlinked
    | undo hundo =>
        rw [List.dropLast_eq_take]
        exact hlinked.take _
    | mempool mp => exact hlinked

/-- Two linked chains with one block in common have the blocks before it in common. -/
theorem take_eq_of_linked {blocks blocks' : List CBlock} (hl : Linked H blocks)
    (hl' : Linked H blocks')
    (hcoll : ∀ (h : Nat) (b b' : CBlock), blocks[h]? = some b → blocks'[h]? = some b' →
      H.headerPoWHash b.header.serialize = H.headerPoWHash b'.header.serialize → b = b')
    {n : Nat} {b : CBlock} (hb : blocks[n]? = some b) (hb' : blocks'[n]? = some b) :
    blocks.take (n + 1) = blocks'.take (n + 1) := by
  induction n generalizing b with
  | zero => rw [List.take_add_one, List.take_add_one, hb, hb', List.take_zero, List.take_zero]
  | succ n ih =>
      obtain ⟨c, hc⟩ : ∃ c, blocks[n]? = some c :=
        ⟨_, List.getElem?_eq_getElem (by have := (List.getElem?_eq_some_iff.mp hb).1; omega)⟩
      obtain ⟨c', hc'⟩ : ∃ c', blocks'[n]? = some c' :=
        ⟨_, List.getElem?_eq_getElem (by have := (List.getElem?_eq_some_iff.mp hb').1; omega)⟩
      obtain rfl : c = c' :=
        hcoll n c c' hc hc' ((hl n c b hc hb).symm.trans (hl' n c' b hc' hb'))
      have htake : blocks'.take (n + 1 + 1) = blocks'.take (n + 1) ++ [b] := by
        rw [List.take_add_one, hb']
        rfl
      rw [List.take_add_one, ih hc hc', hb, htake]
      rfl

end Links

section Calls

variable {r : ChainRun}

/-- What an undo of the block at height `h` reads has a size that an `int` holds: its record, and
the rows of its ids. -/
structure Readable (r : ChainRun) (h : Nat) : Prop where
  record : ∀ u, r.state.undo[h]? = some u → (UndoCodec.serialize u).length < 2 ^ 31
  rows : ∀ b, r.blocks[h]? = some b → ∀ tx ∈ b.vtx,
    (rowBytes r.state.index.txhash2txnum (makeKeyFromHash tx.hash)).length < 2 ^ 31

/-- A block with a record can be undone exactly when what the undo reads is not too long. -/
theorem ChainInv.undo_ok_iff (h : ChainInv H opts r) {k : Nat} (hlen : r.blocks.length = k + 2)
    (hmax : k + 1 ≤ intMax) (hrecord : k + 1 ∈ r.state.undo) (notifySubs : Bool) :
    (∃ u, undoLatestBlock H r.state notifySubs = .ok u) ↔ Readable r (k + 1) := by
  obtain ⟨st, hchain, hblocks, hrecords⟩ := id h
  obtain ⟨info, hinfo⟩ := mem_iff_getElem?.mp hrecord
  have hstlen : st.length = k + 1 + 1 := by rw [← hlen, ← hblocks, List.length_map]
  obtain ⟨st', ix', b, ppb, ch, hchain', hvalid, hc, rfl, rfl, hindex⟩ :=
    hchain.eq_snoc hstlen (hrecords _ _ hinfo)
  have hnum' := hchain'.numbered
  have hlen' : ix'.headers.length = k + 1 := by
    rw [hnum'.length, List.length_map]
    simpa using hstlen
  have hnew : ∀ tx ∈ b.vtx, tx.hash ∉ ix'.txNums := fun tx htx => hvalid.not_mem_txNums hnum' htx
  have hundo := fun ix => undo_nextIndex_iff ix notifySubs hnum'.wellFormed hnew hc hlen' hmax
    hindex hinfo
  rw [hc.rowsFit_iff hnum'.wellFormed, ← hindex] at hundo
  have hlast : r.blocks[k + 1]? = some b := by
    have hst' : (st'.map Prod.fst).length = k + 1 := by simpa using hstlen
    rw [← hblocks, List.map_append, List.getElem?_append_right hst'.le, hst', Nat.sub_self]
    rfl
  constructor
  · rintro ⟨u, hu⟩
    obtain ⟨⟨hread, hrows⟩, -⟩ := (hundo _).mp ⟨u, hu, rfl⟩
    refine ⟨fun info' hget => ?_, fun b' hb' => ?_⟩
    · rw [hinfo] at hget
      cases hget
      exact hread
    · rw [hlast] at hb'
      cases hb'
      exact hrows
  · intro hreadable
    obtain ⟨u, hu, -⟩ :=
      (hundo _).mpr ⟨⟨hreadable.record _ hinfo, hreadable.rows b hlast⟩, rfl⟩
    exact ⟨u, hu⟩

/-- An undo leaves no row longer than it was. -/
theorem length_rowBytes_undo_le {s : State} {u : Undone} {notifySubs : Bool}
    (h : undoLatestBlock H s notifySubs = .ok u) (key : BitVec 48) :
    (rowBytes u.state.index.txhash2txnum key).length ≤
      (rowBytes s.index.txhash2txnum key).length := by
  obtain ⟨prevHeader, info, -, -, -, hd, -, -⟩ := undoLatestBlock_eq_ok h
  obtain ⟨shist, m, -, hm, hindex⟩ := disconnectBlock_eq_ok hd
  rw [hindex]
  simp only [rowBytes, get_truncateForUndo hm key]
  split_ifs with hcut
  · cases hget : s.index.txhash2txnum[key]? with
    | none => simp
    | some l =>
        simp only [Option.bind_some, cutList, Option.getD_some]
        split_ifs
        · simp
        · exact (List.filter_sublist.flatMap _).length_le
  · exact Nat.le_refl _

/-- An undo leaves what the undos of the other blocks read. -/
theorem Readable.undo {h k : Nat} {notifySubs : Bool} {u : Undone} (hread : Readable r h)
    (hu : undoLatestBlock H r.state notifySubs = .ok u)
    (htable : u.state.undo = r.state.undo.erase k) :
    Readable { r with state := u.state } h := by
  refine ⟨fun info hget => ?_, fun b hb tx htx => ?_⟩
  · rw [htable, get_erase] at hget
    split_ifs at hget
    exact hread.record info hget
  · exact lt_of_le_of_lt (length_rowBytes_undo_le hu _) (hread.rows b hb tx htx)

/-- A block with a record that can be read is undone. -/
theorem ChainInv.undo_ok (h : ChainInv H opts r) {k : Nat} (hlen : r.blocks.length = k + 2)
    (hmax : k + 1 ≤ intMax) (hrecord : k + 1 ∈ r.state.undo) (hread : Readable r (k + 1))
    (notifySubs : Bool) :
    ∃ u, undoLatestBlock H r.state notifySubs = .ok u ∧
      u.state.undo = r.state.undo.erase (k + 1) ∧
      ChainInv H opts { state := u.state, blocks := r.blocks.dropLast } := by
  obtain ⟨u, hu⟩ := (h.undo_ok_iff hlen hmax hrecord notifySubs).mpr hread
  obtain ⟨-, -, hv, -, -, -, -, htable⟩ := undoLatestBlock_eq_ok hu
  have hprev : u.prevHeight = k := by
    rw [h.verifier, hlen] at hv
    simp only at hv
    omega
  rw [hprev] at htable
  exact ⟨u, hu, htable, h.undo hu⟩

/-- Whether a block is accepted and what becomes of the index depends on the index only. -/
theorem addBlock_of_index {s t t' : State} {ppb : PreProcessedBlock} {saveUndo notifySubs : Bool}
    {trackRecent : Bool} {notify : Option NotifyData} (hindex : s.index = t.index)
    (h : addBlock H opts t ppb saveUndo notifySubs trackRecent = .ok t' notify)
    (saveUndo' notifySubs' trackRecent' : Bool) :
    ∃ s' notify', addBlock H opts s ppb saveUndo' notifySubs' trackRecent' = .ok s' notify' ∧
      s'.index = t'.index := by
  obtain ⟨ch, hch, -, -, ht', -⟩ := addBlock_eq_ok h
  obtain ⟨recent, hconf⟩ := confirmInMempool_eq t ppb notifySubs trackRecent
  obtain ⟨recent', hconf'⟩ := confirmInMempool_eq s ppb notifySubs' trackRecent'
  simp only [addBlock, hconf] at h
  cases hv : t.index.headerVerifier.verify H.headerPoWHash ppb.header with
  | error e =>
      simp only [hv] at h
      cases h
  | ok v =>
      simp only [hv] at h
      cases hc : t.index.connectBlock H opts v ppb with
      | error e =>
          simp only [hc] at h
          cases h
      | ok res =>
          have hadd : ∃ s' notify',
              addBlock H opts s ppb saveUndo' notifySubs' trackRecent' = .ok s' notify' := by
            simp only [addBlock, hconf', hindex, hv, hc]
            exact ⟨_, _, rfl⟩
          obtain ⟨s', notify', hadd⟩ := hadd
          obtain ⟨ch', hch', -, -, hs', -⟩ := addBlock_eq_ok hadd
          rw [hindex, hch, Except.ok.injEq] at hch'
          exact ⟨s', notify', hadd, by rw [hs', ht', hindex, hch']⟩

/-- A block that does not name the tip is rejected, and the index and the records stay. -/
theorem addBlock_rejects (opts : Options) {s : State} {ppb : PreProcessedBlock}
    (hprev : s.index.headerVerifier.prev ≠ [])
    (hlink : H.headerPoWHash s.index.headerVerifier.prev ≠ ppb.header.hashPrevBlock)
    (saveUndo notifySubs trackRecent : Bool) :
    ∃ errMsg s', addBlock H opts s ppb saveUndo notifySubs trackRecent =
        .headerVerificationFailure errMsg s' ∧ s'.index = s.index ∧ s'.undo = s.undo := by
  obtain ⟨recent, hconf⟩ := confirmInMempool_eq s ppb notifySubs trackRecent
  obtain ⟨e, he⟩ : ∃ e, s.index.headerVerifier.verify H.headerPoWHash ppb.header = .error e := by
    rw [BTC.HeaderVerifier.verify, if_neg (not_not.mpr (BTC.length_serialize _)),
      BTC.HeaderVerifier.checkInner]
    by_cases hnull : ppb.header.isNull = true
    · rw [if_pos hnull]
      exact ⟨_, rfl⟩
    · rw [if_neg hnull, if_pos ⟨hprev, hlink⟩]
      exact ⟨_, rfl⟩
  simp only [addBlock, hconf, he]
  exact ⟨_, _, rfl, rfl, rfl⟩

end Calls

end Storage
end Shulcrum
