import Shulcrum.Rpa.Agreement
import Shulcrum.Rpa.Search
import Shulcrum.Storage.BlockHashes

/-!
# RPA queries

`getRpaHistory` answers which transactions have one of their first inputs under a
prefix.  It goes through the rows of the `rpa` table with an iterator, resolves the
positions it finds to transaction ids by the numbers of the block, and appends what
the prefix table of the mempool lists, if it came past the tip.

**Results.**
* `scanBlocks_eq`: the loop over the heights.
* `getRpaHistory_exact`: what a query returns.
* `getRpaHistory_coinbase`: the coinbase of a block is never found.
-/

namespace Shulcrum
namespace Storage

open Invariant Rpa Mempool SortUnique TreeMap

/-- `Options::Rpa` with the configured start height, which is negative if the index is
disabled. -/
structure RpaOptions where
  startHeight : Int
  maxHistory : Nat := 125000
  historyBlockLimit : Nat := 60
  historyBlockLimit_inRange : 1 ≤ historyBlockLimit ∧ historyBlockLimit ≤ 2016 := by decide

/-- The order in which the elements of a hash set are visited. -/
structure HashSetOrder where
  toList : Finset TxHash → List TxHash
  nodup : ∀ s, (toList s).Nodup
  mem_toList : ∀ s h, h ∈ toList s ↔ h ∈ s

section Model

variable (qUncompress : List UInt8 → Option (List UInt8)) (order : HashSetOrder)
  (opts : RpaOptions) (s : State) (p : Prefix)

/-- `Storage::latestHeight`. -/
def latestHeight : Option Nat :=
  if s.index.blkInfos = [] then none else some (s.index.blkInfos.length - 1)

/-- `Storage::hashesForHeightAndPosVec`. -/
def hashesForHeightAndPosVec (height : Nat) (positionsInBlock : List TxIdx) :
    List (Option TxHash) :=
  if positionsInBlock = [] then []
  else
    match s.index.blkInfos[height]? with
    | none => []
    | some bi =>
        positionsInBlock.map fun posInBlock =>
          if posInBlock.toNat ≥ bi.nTx then none
          else hashForTxNum s (bi.txNum0 + posInBlock.toNat)

/-- What the loop over the heights has come to: the items it found, the height and the counter
at its end, and whether an exception ended the call. -/
structure RpaScan where
  items : List HistoryItem := []
  height : Nat
  ctr : Nat := 0
  threw : Bool := false

/-- The loop of `getRpaHistory` over the heights.  The iterator stands at the row for the
height; a row that is missing ends the loop. -/
def scanBlocks (endHeight : Nat) :
    (blockScansRemaining height : Nat) → (iter : List (Nat × RpaRow)) → (ctr : Nat) → RpaScan
  | 0, height, _, ctr => { height := height, ctr := ctr }
  | n + 1, height, iter, ctr =>
      if height < endHeight then
        match iter with
        | [] => { height := height, ctr := ctr }
        | (key, row) :: next =>
            if key ≠ height then { height := height, ctr := ctr }
            else
              match ReadOnly.deserialize qUncompress row.ser with
              | .error _ => { height := height, ctr := ctr, threw := true }
              | .ok prefixTable =>
                  match ReadOnly.searchPrefix prefixTable p p.needSort with
                  | .error _ => { height := height, ctr := ctr, threw := true }
                  | .ok (txIdxVec, _) =>
                      if txIdxVec = [] then scanBlocks endHeight n (height + 1) next ctr
                      else if ctr + txIdxVec.length > opts.maxHistory then
                        { height := height, ctr := ctr, threw := true }
                      else
                        let found := (hashesForHeightAndPosVec s height txIdxVec).filterMap
                          fun optHash => optHash.map fun hash =>
                            ({ hash := hash, height := height } : HistoryItem)
                        let rest := scanBlocks endHeight n (height + 1) next
                          (ctr + txIdxVec.length)
                        { rest with items := found ++ rest.items }
      else { height := height, ctr := ctr }

/-- A row of the prefix table of the mempool. -/
def mempoolRow (table : MempoolPrefixTable) (i : Nat) : Finset TxHash :=
  (table.filter fun e => e.1.toNat = i).image Prod.snd

/-- `MempoolPrefixTable::searchPrefix`. -/
def searchMempool (table : MempoolPrefixTable) : List TxHash :=
  let ret := (p.rows numRows).flatMap fun i => order.toList (mempoolRow table i)
  if p.needSort ∧ ret.length > 1 then sortUnique (fun a b => decide (a ≤ b)) ret else ret

/-- The key by which unconfirmed items are sorted: unconfirmed parents come last. -/
def sortHeight (item : HistoryItem) : Int :=
  let h := max item.height (-1)
  if h ≤ 0 then 0x7ffffffe - h else h

/-- The order of unconfirmed items. -/
def unconfirmedLe (a b : HistoryItem) : Bool :=
  decide (sortHeight a < sortHeight b ∨ (sortHeight a = sortHeight b ∧ a.hash ≤ b.hash))

/-- The items of the transactions of the mempool. -/
def mempoolItems (txHashes : List TxHash) : List HistoryItem :=
  sortUnique unconfirmedLe (txHashes.filterMap fun hash =>
    s.mempool.txs[hash]?.map fun tx =>
      { hash := hash
        height := if tx.hasUnconfirmedParents then -1 else 0
        fee := some tx.fee })

/-- The end of `getRpaHistory`: what is appended from the mempool. -/
def rpaMempool (ctr : Nat) : List HistoryItem :=
  match s.mempool.optPrefixTable with
  | none => []
  | some table =>
      let txHashes := searchMempool order p table
      if ctr + txHashes.length > opts.maxHistory then []
      else mempoolItems s txHashes

/-- The confirmed part of `getRpaHistory`.  `Seek` moves the iterator to the first row that is
not below the height. -/
def rpaConfirmed (tipHeight fromHeight : Nat) (endHeight : Option Nat) : RpaScan :=
  let fromHeight := max opts.startHeight.toNat fromHeight
  let endHeight := min (endHeight.getD (tipHeight + 1)) (tipHeight + 1)
  scanBlocks qUncompress opts s p endHeight (max opts.historyBlockLimit 1) fromHeight
    (s.rpa.table.toList.dropWhile fun e => e.1 < fromHeight) 0

/-- `Storage::getRpaHistory`. -/
def getRpaHistory (includeConfirmed includeMempool : Bool) (fromHeight : Nat)
    (endHeight : Option Nat) : Except Exception (List HistoryItem) :=
  if opts.startHeight < 0 then .error (.internalError "RPA is disabled")
  else
    match latestHeight s with
    | none => .error (.internalError "No blockchain")
    | some tipHeight =>
        if opts.startHeight.toNat > tipHeight then .ok []
        else if includeConfirmed then
          let scan := rpaConfirmed qUncompress opts s p tipHeight fromHeight endHeight
          if scan.threw then .ok scan.items
          else if includeMempool ∧ ¬scan.height ≤ tipHeight then
            .ok (scan.items ++ rpaMempool order opts s p scan.ctr)
          else .ok scan.items
        else if includeMempool then .ok (rpaMempool order opts s p 0)
        else .ok []

end Model

/-- One of the first inputs of the transaction has a hash that starts with the bits. -/
def HasPrefix (H : Hashers) (num bits : Nat) (tx : CTransaction) : Prop :=
  ∃ q ∈ (tx.vin.take rpaInputIndexLimit).map H.rpaPrefix,
    q.toNat / 2 ^ (prefixBits - bits) = num % 2 ^ bits

instance (H : Hashers) (num bits : Nat) (tx : CTransaction) : Decidable (HasPrefix H num bits tx) :=
  inferInstanceAs (Decidable (∃ q ∈ (tx.vin.take rpaInputIndexLimit).map H.rpaPrefix, _))

/-- The index has the ids of the blocks, and the `rpa` table covers the heights from the start
height to the tip: its rows hold the prefix tables of the blocks. -/
structure RpaCovered (H : Hashers) (qCompress : List UInt8 → List UInt8) (start : Nat)
    (blocks : List CBlock) (s : State) : Prop where
  length : blocks.length = s.index.blkInfos.length
  txids : ∀ h, s.index.blockTxids h = blocks[h]?.map fun b => b.vtx.map CTransaction.hash
  rows : ∀ h b, start ≤ h → blocks[h]? = some b →
    ∃ (cache : PrefixTable.EmptySerialization qCompress) (row : RpaRow),
      s.rpa.table[h]? = some row ∧ rpaWork H cache h b.vtx = .ok row.ser

/-- The mempool holds the transactions, and its prefix table lists them. -/
def RpaMempool (H : Hashers) (txs : List NewTx) (mp : Mempool) : Prop :=
  (∃ db, RpaInv H ⟨mp, txs, db⟩) ∧ (mp.optPrefixTable = none → txs = [])

/-- The transactions of a block that a query for the prefix should find. -/
def blockMatches (H : Hashers) (p : Prefix) (blocks : List CBlock) (h : Nat) : List HistoryItem :=
  match blocks[h]? with
  | none => []
  | some b =>
      ((b.vtx.drop 1).filter fun tx => decide (Matches H p tx)).map fun tx =>
        { hash := tx.hash, height := h }

section Scan

variable {H : Hashers} {qCompress : List UInt8 → List UInt8}
  {qUncompress : List UInt8 → Option (List UInt8)} {start : Nat} {blocks : List CBlock}
  {s : State} {p : Prefix}

/-- An iterator at a height that has a row stands before the iterator at the next one. -/
theorem dropWhile_key {β : Type} {l : List (Nat × β)} (hl : l.Pairwise fun a b => a.1 < b.1)
    {h : Nat} {r : β} (hmem : (h, r) ∈ l) :
    l.dropWhile (fun e => decide (e.1 < h)) =
      (h, r) :: l.dropWhile (fun e => decide (e.1 < h + 1)) := by
  induction l with
  | nil => cases hmem
  | cons e l ih =>
      obtain ⟨hhead, htail⟩ := List.pairwise_cons.mp hl
      rcases List.mem_cons.mp hmem with heq | hmem
      · subst heq
        have hrest : l.dropWhile (fun e => decide (e.1 < h + 1)) = l := by
          cases l with
          | nil => rfl
          | cons e' l =>
              have hlt := hhead e' (by simp)
              exact List.dropWhile_cons_of_neg (by simp only [decide_eq_true_eq]; omega)
        rw [List.dropWhile_cons_of_neg (by simp), List.dropWhile_cons_of_pos (by simp), hrest]
      · have hlt := hhead _ hmem
        simp only at hlt
        rw [List.dropWhile_cons_of_pos (by simp only [decide_eq_true_eq]; exact hlt),
          List.dropWhile_cons_of_pos (by simp only [decide_eq_true_eq]; omega), ih htail hmem]

/-- The ids of positions of a block. -/
theorem hashesForHeightAndPosVec_eq (hc : RpaCovered H qCompress start blocks s) {h : Nat}
    {b : CBlock} (hb : blocks[h]? = some b) {vec : List TxIdx} {idx : List Nat}
    (hvec : vec.map UInt32.toNat = idx) (hidx : ∀ i ∈ idx, i < b.vtx.length) :
    hashesForHeightAndPosVec s h vec = idx.map fun i => b.vtx[i]?.map CTransaction.hash := by
  subst hvec
  have htxids := hc.txids h
  rw [hb, Option.map_some, ChainIndex.blockTxids, Option.map_eq_some_iff] at htxids
  obtain ⟨bi, hbi, hids⟩ := htxids
  have hnTx : b.vtx.length ≤ bi.nTx := by
    have hlen := congrArg List.length hids
    rw [List.length_map, List.length_take] at hlen
    omega
  unfold hashesForHeightAndPosVec
  split_ifs with hnil
  · rw [hnil]
    rfl
  · rw [hbi, List.map_map]
    refine List.map_congr_left fun x hx => ?_
    have hlt := hidx x.toNat (List.mem_map_of_mem hx)
    rw [if_neg (by omega), hashForTxNum, Function.comp_apply, ← List.getElem?_map, ← hids,
      List.getElem?_take_of_lt (by omega), List.getElem?_drop]

/-- The transactions after the coinbase with their positions. -/
theorem filter_drop_eq (vtx : List CTransaction) :
    (vtx.drop 1).filter (fun tx => decide (Matches H p tx)) =
      ((vtx.zipIdx.drop 1).filter fun e => decide (Matches H p e.1)).map Prod.fst := by
  have hfst : vtx.drop 1 = (vtx.zipIdx.drop 1).map Prod.fst := by
    rw [List.map_drop, List.zipIdx_map_fst]
  rw [hfst, List.filter_map]
  rfl

/-- The items of a block. -/
theorem filterMap_matchIdx (vtx : List CTransaction) (h : Nat) :
    ((matchIdx H p vtx).map fun i => vtx[i]?.map CTransaction.hash).filterMap (fun optHash =>
        optHash.map fun hash => ({ hash := hash, height := h } : HistoryItem)) =
      ((vtx.drop 1).filter fun tx => decide (Matches H p tx)).map fun tx =>
        { hash := tx.hash, height := h } := by
  rw [matchIdx, filter_drop_eq, List.map_map, List.map_map, List.filterMap_map]
  have hget : ∀ e ∈ (vtx.zipIdx.drop 1).filter fun e => decide (Matches H p e.1),
      vtx[e.2]? = some e.1 := by
    intro e he
    have hmem := List.mem_of_mem_drop (List.mem_filter.mp he).1
    exact List.mem_zipIdx_iff_getElem?.mp hmem
  generalize (vtx.zipIdx.drop 1).filter (fun e => decide (Matches H p e.1)) = l at hget
  induction l with
  | nil => rfl
  | cons e l ih =>
      rw [List.forall_mem_cons] at hget
      rw [List.filterMap_cons, List.map_cons, ← ih hget.2]
      simp [Function.comp, hget.1]

/-- The loop over the heights finds the transactions of the blocks that match. -/
theorem scanBlocks_eq (hq : ∀ b, qUncompress (qCompress b) = some b) {opts : RpaOptions}
    (hc : RpaCovered H qCompress start blocks s) {endHeight : Nat}
    (hend : endHeight ≤ blocks.length) :
    ∀ {n height ctr : Nat}, start ≤ height →
      ctr + ((List.range' height (min n (endHeight - height))).flatMap
        (blockMatches H p blocks)).length ≤ opts.maxHistory →
      scanBlocks qUncompress opts s p endHeight n height
          (s.rpa.table.toList.dropWhile fun e => decide (e.1 < height)) ctr =
        { items := (List.range' height (min n (endHeight - height))).flatMap
            (blockMatches H p blocks)
          height := height + min n (endHeight - height)
          ctr := ctr + ((List.range' height (min n (endHeight - height))).flatMap
            (blockMatches H p blocks)).length } := by
  intro n
  induction n with
  | zero =>
      intro height ctr _ _
      simp [scanBlocks]
  | succ n ih =>
      intro height ctr hstart hmax
      by_cases hlt : height < endHeight
      · have hrange : List.range' height (min (n + 1) (endHeight - height)) =
            height :: List.range' (height + 1) (min n (endHeight - (height + 1))) := by
          rw [show min (n + 1) (endHeight - height) =
            min n (endHeight - (height + 1)) + 1 by omega, List.range'_succ]
        obtain ⟨b, hb⟩ : ∃ b, blocks[height]? = some b :=
          ⟨_, List.getElem?_eq_getElem (by omega)⟩
        obtain ⟨cache, row, hrow, hwork⟩ := hc.rows height b hstart hb
        obtain ⟨ro, ro', found, hro, hsearch, hfound⟩ := searchPrefix_serialized hq hwork p
        have hsorted : s.rpa.table.toList.Pairwise fun a b => a.1 < b.1 :=
          s.rpa.table.ordered_keys_toList.imp fun h => Nat.compare_eq_lt.mp h
        have hmem : (height, row) ∈ s.rpa.table.toList :=
          Std.ExtTreeMap.mem_toList_iff_getElem?_eq_some.mpr hrow
        have hiter := dropWhile_key hsorted hmem
        have hitems : blockMatches H p blocks height =
            ((b.vtx.drop 1).filter fun tx => decide (Matches H p tx)).map fun tx =>
              { hash := tx.hash, height := height } := by
          rw [blockMatches, hb]
        have hresolved := hashesForHeightAndPosVec_eq hc hb hfound (fun i hi => by
          obtain ⟨tx, -, hget, -⟩ := mem_matchIdx.mp hi
          exact (List.getElem?_eq_some_iff.mp hget).1)
        have hfoundItems := filterMap_matchIdx (H := H) (p := p) b.vtx height
        rw [← hresolved, ← hitems] at hfoundItems
        have hcount : found.length = (blockMatches H p blocks height).length := by
          rw [← List.length_map UInt32.toNat, hfound, hitems, filter_drop_eq, matchIdx]
          simp only [List.length_map]
        rw [hrange, List.flatMap_cons, List.length_append] at hmax ⊢
        have hnext : scanBlocks qUncompress opts s p endHeight n (height + 1)
            (s.rpa.table.toList.dropWhile fun e => decide (e.1 < height + 1))
            (ctr + found.length) = _ := ih (by omega) (by rw [hcount]; omega)
        rw [hiter, scanBlocks.eq_def]
        simp only [if_pos hlt, ne_eq, not_true_eq_false, if_false, hro, hsearch, hfoundItems]
        by_cases hnil : found = []
        · have hzero : blockMatches H p blocks height = [] := by
            rw [← List.length_eq_zero_iff, ← hcount, hnil]
            rfl
          simp only [hnil, List.length_nil, Nat.add_zero] at hnext
          rw [if_pos hnil, hnext, hzero, List.nil_append, List.length_nil, Nat.zero_add]
          congr 1
          omega
        · rw [if_neg hnil, if_neg (by omega), hnext]
          simp only [RpaScan.mk.injEq, true_and, and_true]
          omega
      · rw [scanBlocks.eq_def, show min (n + 1) (endHeight - height) = 0 by omega]
        simp only [if_neg hlt]
        rfl

end Scan

section Mempool

variable {H : Hashers} {order : HashSetOrder} {s : State} {p : Prefix} {txs : List NewTx}

/-- The transactions of the mempool that a query for the prefix should find. -/
def mempoolMatches (H : Hashers) (p : Prefix) (txs : List NewTx) : List TxHash :=
  (txs.filter fun nt => decide (Matches H p nt.ctx)).map NewTx.hash

/-- What the prefix table of the mempool has for the prefix. -/
theorem mem_searchMempool {table : MempoolPrefixTable} {hash : TxHash} :
    hash ∈ searchMempool order p table ↔
      ∃ q : UInt16, (q, hash) ∈ table ∧ p.range.1 ≤ q.toNat ∧ q.toNat < p.range.2 := by
  have hmem : hash ∈ (p.rows numRows).flatMap (fun i => order.toList (mempoolRow table i)) ↔
      ∃ q : UInt16, (q, hash) ∈ table ∧ p.range.1 ≤ q.toNat ∧ q.toNat < p.range.2 := by
    simp only [List.mem_flatMap, Prefix.mem_rows, order.mem_toList, mempoolRow, Finset.mem_image,
      Finset.mem_filter, Prod.exists]
    constructor
    · rintro ⟨i, ⟨h1, h2, -⟩, q, _, ⟨hin, rfl⟩, rfl⟩
      exact ⟨q, hin, h1, h2⟩
    · rintro ⟨q, hin, h1, h2⟩
      exact ⟨q.toNat, ⟨h1, h2, q.toNat_lt⟩, q, hash, ⟨hin, rfl⟩, rfl⟩
  unfold searchMempool
  dsimp only
  split_ifs
  · rw [mem_sortUnique]
    exact hmem
  · exact hmem

theorem hashLe_isOrder : IsOrder fun a b : TxHash => decide (a ≤ b) where
  trans a b c hab hbc := by
    rw [decide_eq_true_eq] at hab hbc ⊢
    exact BitVec.le_trans hab hbc
  total a b := by
    rw [Bool.or_eq_true, decide_eq_true_eq, decide_eq_true_eq]
    exact BitVec.le_total a b
  antisymm a b hab hba := by
    rw [decide_eq_true_eq] at hab hba
    exact BitVec.le_antisymm hab hba

/-- The search finds every transaction once. -/
theorem nodup_searchMempool (table : MempoolPrefixTable) :
    (searchMempool order p table).Nodup := by
  unfold searchMempool
  dsimp only
  split_ifs with hsort
  · exact nodup_of_strict (pairwise_sortUnique hashLe_isOrder _)
  · by_cases hone : p.needSort = true
    · have hshort : ((p.rows numRows).flatMap
          fun i => order.toList (mempoolRow table i)).length ≤ 1 := by
        by_contra hlong
        exact hsort ⟨hone, by omega⟩
      generalize (p.rows numRows).flatMap (fun i => order.toList (mempoolRow table i)) = found
        at hshort
      match found, hshort with
      | [], _ => exact List.nodup_nil
      | [x], _ => exact List.nodup_singleton x
    · rw [Prefix.rows_of_not_needSort hone, List.flatMap_singleton]
      exact order.nodup _

/-- Equal neighbours are not found in a list without repetitions. -/
theorem unique_of_nodup {α : Type} [DecidableEq α] {l : List α} (h : l.Nodup) : unique l = l := by
  induction l using unique.induct with
  | case1 => rfl
  | case2 a => rfl
  | case3 a l _ => simp at h
  | case4 a b l hab ih => rw [unique, if_neg hab, ih (List.nodup_cons.mp h).2]

/-- The items of the mempool. -/
theorem mempoolItems_perm {found : List TxHash} (hnodup : found.Nodup)
    (hin : ∀ hash ∈ found, hash ∈ s.mempool.txs) :
    ((mempoolItems s found).map HistoryItem.hash).Perm found := by
  set items := found.filterMap fun hash => s.mempool.txs[hash]?.map fun tx =>
    ({ hash := hash
       height := if tx.hasUnconfirmedParents then -1 else 0
       fee := some tx.fee } : HistoryItem) with hitems
  have hhashes : items.map HistoryItem.hash = found := by
    rw [hitems]
    clear hnodup hitems
    induction found with
    | nil => rfl
    | cons hash found ih =>
        rw [List.forall_mem_cons] at hin
        obtain ⟨tx, htx⟩ := mem_iff_getElem?.mp hin.1
        rw [List.filterMap_cons, htx, Option.map_some]
        simp only [List.map_cons, ih hin.2]
  have hitemsNodup : items.Nodup := by
    refine List.Nodup.of_map HistoryItem.hash ?_
    rw [hhashes]
    exact hnodup
  have hperm : (sort unconfirmedLe items).Perm items := List.perm_insertionSort _ items
  rw [mempoolItems, ← hitems, sortUnique, unique_of_nodup (hperm.nodup_iff.mpr hitemsNodup)]
  exact (hperm.map _).trans (by rw [hhashes])

/-- What a query finds in the mempool. -/
theorem rpaMempool_perm (order : HashSetOrder) {opts : RpaOptions}
    (hmp : RpaMempool H txs s.mempool) {ctr : Nat}
    (hmax : ctr + (mempoolMatches H p txs).length ≤ opts.maxHistory) :
    ((rpaMempool order opts s p ctr).map HistoryItem.hash).Perm (mempoolMatches H p txs) := by
  obtain ⟨⟨db, hinv⟩, hnone⟩ := hmp
  unfold rpaMempool
  cases htable : s.mempool.optPrefixTable with
  | none =>
      rw [hnone htable]
      exact List.Perm.refl _
  | some table =>
      have hmem := fun q hash => hinv.mem_table htable q hash
      obtain ⟨rpa, hrun⟩ := hinv
      have hnodup : (mempoolMatches H p txs).Nodup := by
        have hsub : (mempoolMatches H p txs).Sublist (txs.map NewTx.hash) :=
          (List.filter_sublist).map _
        exact hrun.nodup.sublist hsub
      have hfound : (searchMempool order p table).Perm (mempoolMatches H p txs) := by
        refine (List.perm_ext_iff_of_nodup (nodup_searchMempool table) hnodup).mpr fun hash => ?_
        rw [mem_searchMempool]
        simp only [hmem, mempoolMatches, List.mem_map, List.mem_filter, decide_eq_true_eq]
        constructor
        · rintro ⟨q, ⟨nt, hnt, rfl, hq⟩, h1, h2⟩
          exact ⟨nt, ⟨hnt, q, hq, h1, h2⟩, rfl⟩
        · rintro ⟨nt, ⟨hnt, q, hq, h1, h2⟩, rfl⟩
          exact ⟨q, ⟨nt, hnt, rfl, hq⟩, h1, h2⟩
      have hin : ∀ hash ∈ searchMempool order p table, hash ∈ s.mempool.txs := by
        intro hash hhash
        obtain ⟨q, hq, -⟩ := mem_searchMempool.mp hhash
        obtain ⟨nt, hnt, rfl, -⟩ := (hmem q hash).mp hq
        have hpool : nt.hash ∈ s.mempool.txs ↔ _ := hrun.rep.toContent.mem_txs
        refine hpool.mpr ?_
        rw [(Pool.ofList_eq_some hrun.nodup).mpr ⟨hnt, rfl⟩]
        exact Option.some_ne_none nt
      simp only
      rw [if_neg (by rw [hfound.length_eq]; omega)]
      exact (mempoolItems_perm (nodup_searchMempool table) hin).trans hfound

end Mempool

/-! ## The answers to a query -/

section Answers

variable (H : Hashers) (num bits skip : Nat) (opts : RpaOptions) (start : Nat)
  (blocks : List CBlock) (txs : List NewTx)

/-- The transactions of the block at a height, from position `skip` on, that have the prefix. -/
def confirmedMatches (h : Nat) : List HistoryItem :=
  match blocks[h]? with
  | none => []
  | some b =>
      ((b.vtx.drop skip).filter fun tx => decide (HasPrefix H num bits tx)).map fun tx =>
        { hash := tx.hash, height := h }

/-- The transactions of the mempool that have the prefix. -/
def unconfirmedMatches : List TxHash :=
  (txs.filter fun nt => decide (HasPrefix H num bits nt.ctx)).map NewTx.hash

/-- The first height of a query, and how many heights it looks at. -/
def queryHeights (fromHeight : Nat) (endHeight : Option Nat) : Nat × Nat :=
  let first := max start fromHeight
  (first, min opts.historyBlockLimit (min (endHeight.getD blocks.length) blocks.length - first))

/-- What a query should return if it does not exceed the maximum: the transactions of the
blocks by height and position, and then those of the mempool, if the mempool was requested and
the heights go past the tip or were not requested. -/
def RpaAnswer (includeConfirmed includeMempool : Bool) (fromHeight : Nat) (endHeight : Option Nat)
    (result : Except Exception (List HistoryItem)) : Prop :=
  let (first, n) := queryHeights opts start blocks fromHeight endHeight
  let confirmed := if includeConfirmed then
    (List.range' first n).flatMap (confirmedMatches H num bits skip blocks) else []
  let unconfirmed :=
    if includeMempool ∧ (includeConfirmed → blocks.length ≤ first + n) then
      unconfirmedMatches H num bits txs else []
  confirmed.length + unconfirmed.length ≤ opts.maxHistory →
    ∃ items, result = .ok (confirmed ++ items) ∧
      (items.map HistoryItem.hash).Perm unconfirmed ∧ (items.map HistoryItem.hash).Nodup

end Answers

section Exact

variable {H : Hashers} {qCompress : List UInt8 → List UInt8}
  {qUncompress : List UInt8 → Option (List UInt8)} {order : HashSetOrder} {opts : RpaOptions}
  {start : Nat} {blocks : List CBlock} {s : State} {p : Prefix} {txs : List NewTx}

/-- A transaction matches a prefix if one of its first inputs starts with the bits. -/
theorem matches_ofNum {num bits : Nat} {hmin : prefixBitsMin ≤ bits} {hmax : bits ≤ prefixBits}
    {tx : CTransaction} : Matches H (Prefix.ofNum num bits hmin hmax) tx ↔
      HasPrefix H num bits tx := by
  unfold Matches HasPrefix rpaPrefixes
  simp only [Prefix.range_ofNum]

theorem confirmedMatches_eq {num bits : Nat} (hmin : prefixBitsMin ≤ bits)
    (hmax : bits ≤ prefixBits) :
    confirmedMatches H num bits 1 blocks =
      blockMatches H (Prefix.ofNum num bits hmin hmax) blocks := by
  funext h
  simp only [confirmedMatches, blockMatches, matches_ofNum]

theorem unconfirmedMatches_eq {num bits : Nat} (hmin : prefixBitsMin ≤ bits)
    (hmax : bits ≤ prefixBits) :
    unconfirmedMatches H num bits txs =
      mempoolMatches H (Prefix.ofNum num bits hmin hmax) txs := by
  simp only [unconfirmedMatches, mempoolMatches, matches_ofNum]

/-- The confirmed part of a query. -/
theorem rpaConfirmed_eq (hq : ∀ b, qUncompress (qCompress b) = some b)
    (hc : RpaCovered H qCompress start blocks s) (hopts : opts.startHeight = start)
    {fromHeight : Nat} {endHeight : Option Nat} {tip first n : Nat}
    (htip : blocks.length = tip + 1)
    (hheights : queryHeights opts start blocks fromHeight endHeight = (first, n))
    (hmax : ((List.range' first n).flatMap (blockMatches H p blocks)).length ≤ opts.maxHistory) :
    rpaConfirmed qUncompress opts s p tip fromHeight endHeight =
      { items := (List.range' first n).flatMap (blockMatches H p blocks)
        height := first + n
        ctr := ((List.range' first n).flatMap (blockMatches H p blocks)).length } := by
  rw [queryHeights, htip, Prod.mk.injEq] at hheights
  obtain ⟨hfirst, hn⟩ := hheights
  have hlimit : max opts.historyBlockLimit 1 = opts.historyBlockLimit :=
    max_eq_left opts.historyBlockLimit_inRange.1
  have hstart : opts.startHeight.toNat = start := by
    rw [hopts, Int.toNat_natCast]
  have hle : start ≤ first := by
    rw [← hfirst]
    exact le_max_left _ _
  have hend : min (endHeight.getD (tip + 1)) (tip + 1) ≤ blocks.length := by omega
  have hscan : 0 + ((List.range' first (min opts.historyBlockLimit
          (min (endHeight.getD (tip + 1)) (tip + 1) - first))).flatMap
        (blockMatches H p blocks)).length ≤ opts.maxHistory →
      scanBlocks qUncompress opts s p (min (endHeight.getD (tip + 1)) (tip + 1))
        opts.historyBlockLimit first
        (s.rpa.table.toList.dropWhile fun e => decide (e.1 < first)) 0 = _ :=
    scanBlocks_eq hq hc hend hle
  rw [hfirst] at hn
  rw [hn, Nat.zero_add] at hscan
  rw [rpaConfirmed, hlimit, hstart]
  simp only [hfirst]
  exact hscan hmax

/-- What a query returns. -/
theorem getRpaHistory_exact (hq : ∀ b, qUncompress (qCompress b) = some b)
    (hc : RpaCovered H qCompress start blocks s) (hopts : opts.startHeight = start)
    (hstart : start < blocks.length) (hmp : RpaMempool H txs s.mempool) {num bits : Nat}
    (hmin : prefixBitsMin ≤ bits) (hmax : bits ≤ prefixBits)
    (includeConfirmed includeMempool : Bool) (fromHeight : Nat) (endHeight : Option Nat) :
    RpaAnswer H num bits 1 opts start blocks txs includeConfirmed includeMempool fromHeight
      endHeight (getRpaHistory qUncompress order opts s (Prefix.ofNum num bits hmin hmax)
        includeConfirmed includeMempool fromHeight endHeight) := by
  obtain ⟨tip, htip⟩ : ∃ tip, blocks.length = tip + 1 := ⟨blocks.length - 1, by omega⟩
  have hlatest : latestHeight s = some tip := by
    have hlen := hc.length
    have hne : s.index.blkInfos ≠ [] := by
      intro hnil
      rw [hnil, List.length_nil] at hlen
      omega
    rw [latestHeight, if_neg hne, ← hlen, htip, Nat.add_sub_cancel]
  have hnodup : (unconfirmedMatches H num bits txs).Nodup := by
    obtain ⟨⟨db, rpa, hrun⟩, -⟩ := hmp
    exact hrun.nodup.sublist ((List.filter_sublist).map NewTx.hash)
  unfold RpaAnswer
  generalize hheights : queryHeights opts start blocks fromHeight endHeight = heights
  obtain ⟨first, n⟩ := heights
  dsimp only
  intro hcount
  rw [confirmedMatches_eq hmin hmax, unconfirmedMatches_eq hmin hmax] at hcount ⊢
  rw [unconfirmedMatches_eq hmin hmax] at hnodup
  rw [getRpaHistory, if_neg (by omega), hlatest]
  simp only
  rw [if_neg (by omega)]
  cases includeConfirmed with
  | false =>
      simp only [Bool.false_eq_true, if_false, false_implies, and_true, List.length_nil,
        List.nil_append] at hcount ⊢
      cases includeMempool with
      | false => exact ⟨[], rfl, List.Perm.refl _, List.nodup_nil⟩
      | true =>
          have hperm := rpaMempool_perm order hmp hcount
          exact ⟨_, rfl, hperm, hperm.nodup_iff.mpr hnodup⟩
  | true =>
      simp only [if_true, true_implies] at hcount ⊢
      rw [rpaConfirmed_eq hq hc hopts htip hheights (by omega)]
      simp only [Bool.false_eq_true, if_false]
      by_cases hincl : includeMempool = true ∧ blocks.length ≤ first + n
      · rw [if_pos hincl] at hcount ⊢
        have hperm := rpaMempool_perm order hmp hcount
        rw [if_pos ⟨hincl.1, by omega⟩]
        exact ⟨_, rfl, hperm, hperm.nodup_iff.mpr hnodup⟩
      · rw [if_neg hincl]
        rw [if_neg (fun h => hincl ⟨h.1, by omega⟩)]
        exact ⟨[], by rw [List.append_nil], List.Perm.refl _, List.nodup_nil⟩

end Exact

section Coinbase

/-- The order by the value of the hash. -/
def hashOrder : HashSetOrder where
  toList s := s.sort fun a b => a ≤ b
  nodup _ := Finset.sort_nodup _ _
  mem_toList _ _ := Finset.mem_sort _

/-- A chain of one block, with its row in the `rpa` table. -/
def coveredState (b : CBlock) : State :=
  { index :=
      { txNums := b.vtx.map CTransaction.hash
        blkInfos := [⟨0, b.vtx.length⟩] }
    rpa :=
      { table := ({} : Std.ExtTreeMap Nat RpaRow).insert 0
          { shortBlockHash := 0
            ser := ((blockTable opTrueHashers b.vtx).1.serialize PrefixTable.noCache).1 } } }

theorem covered_coveredState {b : CBlock} (hlen : b.vtx.length ≤ maxTxIdx + 1) :
    RpaCovered opTrueHashers id 0 [b] (coveredState b) where
  length := rfl
  txids h := by
    cases h with
    | zero => simp [ChainIndex.blockTxids, coveredState]
    | succ h => rfl
  rows h b' _ hb := by
    cases h with
    | succ h => cases hb
    | zero =>
        cases hb
        exact ⟨PrefixTable.noCache, _, Std.ExtTreeMap.getElem?_insert_self,
          (rpaWork_eq_ok_iff _ _ _ _).mpr ⟨hlen, PrefixTable.serialize_fst _ _⟩⟩

theorem rpaMempool_empty : RpaMempool opTrueHashers [] {} :=
  ⟨⟨fun _ => none, rpaInv_of_reachable (.start ⟨false, rfl, rfl⟩)⟩, fun _ => rfl⟩

/-- The index starts at the genesis block. -/
def fromGenesis : RpaOptions where
  startHeight := 0

/-- A query that finds the two transactions after the coinbase. -/
theorem getRpaHistory_exact_two :
    ∃ items, getRpaHistory some hashOrder fromGenesis (coveredState (secondBlock 0))
        (Prefix.ofNum 0 4 (by decide) (by decide)) true true 0 none =
      .ok (({ hash := 2, height := 0 } : HistoryItem) :: { hash := 1, height := 0 } :: items) := by
  have hcovered : RpaCovered opTrueHashers id 0 [secondBlock 0] (coveredState (secondBlock 0)) :=
    covered_coveredState (by decide)
  have hanswer : RpaAnswer opTrueHashers 0 4 1 fromGenesis 0 [secondBlock 0] [] true true 0 none
      (getRpaHistory some hashOrder fromGenesis (coveredState (secondBlock 0)) _ true true 0
        none) :=
    getRpaHistory_exact (fun _ => rfl) hcovered rfl (by decide) rpaMempool_empty (by decide)
      (by decide) true true 0 none
  obtain ⟨items, hitems, -⟩ := hanswer (by decide)
  exact ⟨items, hitems⟩

/-- The coinbase of the block has the prefix and is not found. -/
theorem getRpaHistory_coinbase :
    RpaCovered opTrueHashers id 0 [firstBlock] (coveredState firstBlock) ∧
      RpaMempool opTrueHashers [] (coveredState firstBlock).mempool ∧
      getRpaHistory some hashOrder fromGenesis (coveredState firstBlock)
        (Prefix.ofNum 0 4 (by decide) (by decide)) true false 0 none = .ok [] ∧
      ¬RpaAnswer opTrueHashers 0 4 0 fromGenesis 0 [firstBlock] [] true false 0 none
        (getRpaHistory some hashOrder fromGenesis (coveredState firstBlock)
          (Prefix.ofNum 0 4 (by decide) (by decide)) true false 0 none) := by
  have hcovered : RpaCovered opTrueHashers id 0 [firstBlock] (coveredState firstBlock) :=
    covered_coveredState (by decide)
  have hscan : rpaConfirmed some fromGenesis (coveredState firstBlock)
      (Prefix.ofNum 0 4 (by decide) (by decide)) 0 0 none =
        { items := [], height := 1, ctr := 0 } :=
    rpaConfirmed_eq (fun _ => rfl) hcovered rfl rfl rfl (by decide)
  have hnone : getRpaHistory some hashOrder fromGenesis (coveredState firstBlock)
      (Prefix.ofNum 0 4 (by decide) (by decide)) true false 0 none = .ok [] := by
    have hlatest : latestHeight (coveredState firstBlock) = some 0 := rfl
    rw [getRpaHistory, hlatest]
    simp only [hscan]
    rfl
  refine ⟨hcovered, rpaMempool_empty, hnone, ?_⟩
  intro hanswer
  rw [hnone] at hanswer
  obtain ⟨items, hitems, -⟩ := hanswer (by decide)
  have hone : (Except.ok [] : Except Exception (List HistoryItem)) =
    .ok (({ hash := 9, height := 0 } : HistoryItem) :: items) := hitems
  cases hone

end Coinbase

end Storage
end Shulcrum
