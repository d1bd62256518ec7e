import Shulcrum.Storage.Utxos

/-!
# Histories of script hashes

The history of a script hash is a list of transaction numbers to which every
block appends.  Over a chain of valid blocks it names exactly the transactions
that fund the script hash or spend one of its outputs, and `getHistory` reads
off those in a range of heights.

**Results.**
* `HistoryExact.connect`: a valid block keeps the histories exact.
* `heightForTxNum_eq`: the block of a transaction is found by its number.
* `history_exact`: histories and queries in every run of valid blocks.
-/

namespace Shulcrum
namespace Storage

open Invariant TreeMap Flatten ChainIndex PreProcessedBlock

variable {H : Hashers} {opts : Options}

/-- The transaction with this number funds the script hash, or spends one of its outputs. -/
def Involves (H : Hashers) (blocks : List CBlock) (hx : HashX) (txNum : Nat) : Prop :=
  ∃ height tx, (chainTxs blocks)[txNum]? = some (height, tx) ∧
    ((∃ out ∈ tx.vout, out.LockedTo H hx) ∨
      ∃ input ∈ tx.vin, ∃ e ∈ chainTxs blocks, e.2.hash = input.prevout.txHash ∧
        ∃ out, e.2.vout[input.prevout.outN]? = some out ∧ out.LockedTo H hx)

/-- The history table describes the chain. -/
def HistoryExact (H : Hashers) (blocks : List CBlock) (ix : ChainIndex) : Prop :=
  ∀ (hx : HashX) (n : Nat), n ∈ ix.shist[hx]?.getD [] ↔ Involves H blocks hx n

/-- The ids of a chain are distinct. -/
def DistinctIds (blocks : List CBlock) : Prop :=
  ((chainTxs blocks).map fun e => e.2.hash).Nodup

section Block

variable {blocks : List CBlock} {ix : ChainIndex} {b : CBlock} {ppb : PreProcessedBlock}
  {ch : BlockChanges}

theorem DistinctIds.connect (h : DistinctIds blocks) (hv : ValidBlock blocks b) :
    DistinctIds (blocks ++ [b]) := by
  rw [DistinctIds, chainTxs_concat, List.map_append, List.map_map]
  refine List.Nodup.append h hv.ids ?_
  intro hash hold hnew
  obtain ⟨e, he, rfl⟩ := List.mem_map.mp hold
  obtain ⟨tx, htx, heq⟩ := List.mem_map.mp hnew
  exact hv.new tx htx e he heq.symm

theorem DistinctIds.eq_of_hash (h : DistinctIds blocks) {e e' : Nat × CTransaction}
    (he : e ∈ chainTxs blocks) (he' : e' ∈ chainTxs blocks) (heq : e.2.hash = e'.2.hash) :
    e = e' :=
  List.inj_on_of_nodup_map h he he' heq

/-- The transactions of the block that touch the script hash, in terms of the chain. -/
theorem touches_or_spends_iff (hnum : Numbered blocks ix) (hdist : DistinctIds blocks)
    (hex : UtxosExact H blocks ix) (hv : ValidBlock blocks b)
    (hc : Connected H opts ix b ppb ch) {hx : HashX} {i : Nat} :
    (Touches H b.vtx hx i ∨ ∃ sp ∈ ch.spends, sp.fromEarlierBlock ppb.height = true ∧
        sp.info.hashX = hx ∧ sp.txIdx = i) ↔
      ∃ tx, b.vtx[i]? = some tx ∧ ((∃ out ∈ tx.vout, out.LockedTo H hx) ∨
        ∃ input ∈ tx.vin, ∃ e ∈ chainTxs (blocks ++ [b]), e.2.hash = input.prevout.txHash ∧
          ∃ out, e.2.vout[input.prevout.outN]? = some out ∧ out.LockedTo H hx) := by
  constructor
  · rintro (⟨tx, htx, hout | ⟨input, hin, out, ⟨k, ptx, hk, hptx, hvout⟩, hlock⟩⟩ |
      ⟨sp, hsp, -, rfl, rfl⟩)
    · exact ⟨tx, htx, .inl hout⟩
    · refine ⟨tx, htx, .inr ⟨input, hin, (blocks.length, ptx), ?_, ?_, out, hvout, hlock⟩⟩
      · exact mem_chainTxs_concat.mpr (.inr ⟨ptx, List.mem_of_getElem? hptx, rfl⟩)
      · obtain ⟨ptx', hptx', hhash⟩ := get_of_lastIdx hk
        rw [hptx] at hptx'
        cases hptx'
        exact hhash
    · obtain ⟨input, ⟨-, ⟨tx, htx, hin⟩, -⟩, htxo, hget⟩ := hc.changes.mem_spends sp hsp
      obtain ⟨⟨txNum, height, ptx, out, hx, hptx, hhash, hvout, hlock, hinfo⟩, -⟩ :=
        (hex.utxo _ _).mp hget
      have hhx : sp.info.hashX = hx := by rw [hinfo]
      rw [htxo] at hhash hvout
      rw [hhx]
      refine ⟨tx, htx, .inr ⟨input, hin, (height, ptx), ?_, hhash, out, hvout, hlock⟩⟩
      exact mem_chainTxs_concat.mpr (.inl (List.mem_of_getElem? hptx))
  · rintro ⟨tx, htx, hout | ⟨input, hin, e, he, hhash, out, hvout, hlock⟩⟩
    · exact .inl ⟨tx, htx, .inl hout⟩
    rcases mem_chainTxs_concat.mp he with hold | ⟨ptx, hptx, rfl⟩
    · -- the spent output is of an earlier block, so the UTXO set has it
      right
      have hpos : 0 < i := by
        rw [Nat.pos_iff_ne_zero]
        rintro rfl
        rw [coinbase_prevout htx hin] at hhash
        exact chainTxs_hash_ne_null hold hhash
      have hext : ExternalInput b i input := by
        refine ⟨hpos, ⟨tx, htx, hin⟩, fun hmem => ?_⟩
        obtain ⟨ptx, hptx, hsame⟩ := mem_lastIdx.mp hmem
        exact hv.new ptx hptx e hold (hhash.trans hsame.symm)
      obtain ⟨sp, hsp, rfl, htxo⟩ := hc.changes.exists_spend i input hext
      obtain ⟨⟨txNum, height, ptx, out', hx', hptx, hhash', hvout', hlock', hinfo⟩, -⟩ :=
        (hex.utxo _ _).mp (hc.of_mem_spends hsp)
      have hmem := List.mem_of_getElem? hptx
      rw [htxo] at hhash' hvout'
      obtain rfl := hdist.eq_of_hash hold hmem (hhash.trans hhash'.symm)
      rw [hvout] at hvout'
      cases hvout'
      refine ⟨sp, hsp, ?_, ?_, rfl⟩
      · have hlt := chainTxs_height_lt hold
        rw [Spend.fromEarlierBlock, hinfo, hc.height, hnum.length]
        simp only [Option.any_some, bne_iff_ne, ne_eq]
        omega
      · rw [hinfo]
        exact hlock'.2.symm.trans hlock.2
    · left
      obtain ⟨k, hk⟩ := List.mem_iff_getElem?.mp hptx
      refine ⟨tx, htx, .inr ⟨input, hin, out, ⟨k, ptx, ?_, hk, hvout⟩, hlock⟩⟩
      exact (lastIdx_eq_some hv.ids).mpr ⟨ptx, hk, hhash⟩

/-- The transactions that involve a script hash after one more block. -/
theorem involves_concat (hsrc : Sourced blocks) (hv : ValidBlock blocks b) {hx : HashX} {n : Nat} :
    Involves H (blocks ++ [b]) hx n ↔
      Involves H blocks hx n ∨ ∃ i, n = (chainTxs blocks).length + i ∧
        ∃ tx, b.vtx[i]? = some tx ∧ ((∃ out ∈ tx.vout, out.LockedTo H hx) ∨
          ∃ input ∈ tx.vin, ∃ e ∈ chainTxs (blocks ++ [b]), e.2.hash = input.prevout.txHash ∧
            ∃ out, e.2.vout[input.prevout.outN]? = some out ∧ out.LockedTo H hx) := by
  constructor
  · rintro ⟨height, tx, hget, hcases⟩
    rcases get_chainTxs_concat.mp hget with hold | ⟨i, rfl, rfl, htx⟩
    · left
      refine ⟨height, tx, hold, hcases.imp id ?_⟩
      rintro ⟨input, hin, e, he, hhash, hout⟩
      rcases mem_chainTxs_concat.mp he with he | ⟨ptx, hptx, rfl⟩
      · exact ⟨input, hin, e, he, hhash, hout⟩
      · -- an earlier transaction cannot name one of the block
        rcases hsrc _ (List.mem_of_getElem? hold) input hin with h0 | ⟨e', he', hhash'⟩
        · exact absurd (hhash.trans h0) (b.hash_ne_null ptx hptx)
        · exact absurd (hhash'.trans hhash.symm) (hv.new ptx hptx e' he')
    · exact .inr ⟨i, rfl, tx, htx, hcases⟩
  · rintro (⟨height, tx, hget, hcases⟩ | ⟨i, rfl, tx, htx, hcases⟩)
    · refine ⟨height, tx, get_chainTxs_concat.mpr (.inl hget), hcases.imp id ?_⟩
      rintro ⟨input, hin, e, he, hrest⟩
      exact ⟨input, hin, e, mem_chainTxs_concat.mpr (.inl he), hrest⟩
    · exact ⟨blocks.length, tx, get_chainTxs_concat.mpr (.inr ⟨i, rfl, rfl, htx⟩), hcases⟩

/-- A valid block keeps the histories exact. -/
theorem HistoryExact.connect (h : HistoryExact H blocks ix) (hnum : Numbered blocks ix)
    (hsrc : Sourced blocks) (hdist : DistinctIds blocks) (hex : UtxosExact H blocks ix)
    (hv : ValidBlock blocks b) (hc : Connected H opts ix b ppb ch) :
    HistoryExact H (blocks ++ [b]) (nextIndex opts ix ppb ch) := by
  intro hx n
  have hnew : ∀ i, i ∈ (ch.hashXAggregated.agg hx).txNumsInvolvingHashX ↔ _ := fun i =>
    (hc.changes.agg.touched hx i).trans (touches_or_spends_iff hnum hdist hex hv hc)
  rw [hc.get_shist, involves_concat hsrc hv, ← h hx n]
  simp only [← hnew, ← hnum.txNumNext]
  cases ha : ch.hashXAggregated[hx]? with
  | none =>
      have hagg : (ch.hashXAggregated.agg hx).txNumsInvolvingHashX = [] := by
        rw [HashXAggregated.agg, ha]
        rfl
      simp [hagg]
  | some a =>
      rw [HashXAggregated.agg_of_get ha]
      simp only [Option.elim_some, Option.getD_some, List.mem_append, List.mem_map]
      refine or_congr_right ?_
      constructor
      · rintro ⟨i, hi, rfl⟩
        exact ⟨i, Nat.add_comm _ _, hi⟩
      · rintro ⟨i, rfl, hi⟩
        exact ⟨i, hi, Nat.add_comm _ _⟩

/-- The block of every transaction is the one whose numbers include its own. -/
def HeightsExact (blocks : List CBlock) (ix : ChainIndex) : Prop :=
  ∀ (n height : Nat) (tx : CTransaction), (chainTxs blocks)[n]? = some (height, tx) →
    ∃ bi, ix.blkInfos[height]? = some bi ∧ bi.txNum0 ≤ n ∧ n < bi.txNum0 + bi.nTx

theorem HeightsExact.connect (h : HeightsExact blocks ix) (hnum : Numbered blocks ix)
    (hc : Connected H opts ix b ppb ch) :
    HeightsExact (blocks ++ [b]) (nextIndex opts ix ppb ch) := by
  have hinfos : (nextIndex opts ix ppb ch).blkInfos =
      ix.blkInfos ++ [⟨ix.txNumNext, ppb.txInfos.length⟩] := rfl
  have hlen : ix.blkInfos.length = blocks.length := by
    rw [← hnum.wellFormed.headers_length, hnum.length]
  intro n height tx hget
  rw [hinfos]
  rcases get_chainTxs_concat.mp hget with hold | ⟨i, rfl, rfl, htx⟩
  · obtain ⟨bi, hbi, hrange⟩ := h n height tx hold
    refine ⟨bi, ?_, hrange⟩
    rw [List.getElem?_append_left (List.getElem?_eq_some_iff.mp hbi).1]
    exact hbi
  · have hi := (List.getElem?_eq_some_iff.mp htx).1
    refine ⟨⟨ix.txNumNext, ppb.txInfos.length⟩, ?_, ?_⟩
    · rw [get_concat, if_pos hlen.symm]
    · rw [hnum.txNumNext, hc.nTx]
      simp only
      omega

end Block

section Queries

variable {s : State} {blocks : List CBlock}

/-- The entries of a sorted list that are not past the last one that fits. -/
theorem getLast_filter_le {m : Std.ExtTreeMap Nat Nat compare} {n : Nat} {e e' : Nat × Nat}
    (hlast : (m.toList.filter fun e => decide (e.1 ≤ n)).getLast? = some e) (he' : e' ∈ m.toList)
    (hle : e'.1 ≤ n) : e ∈ m.toList ∧ e.1 ≤ n ∧ e'.1 ≤ e.1 := by
  obtain ⟨ys, hys⟩ := List.getLast?_eq_some_iff.mp hlast
  have hsorted : (m.toList.filter fun e => decide (e.1 ≤ n)).Pairwise
      fun a b => compare a.1 b.1 = .lt :=
    m.ordered_keys_toList.filter _
  have hmem : ∀ {d}, d ∈ m.toList → d.1 ≤ n →
      d ∈ m.toList.filter fun e => decide (e.1 ≤ n) :=
    fun hd hdn => List.mem_filter.mpr ⟨hd, by simpa using hdn⟩
  have hin : e ∈ m.toList.filter fun e => decide (e.1 ≤ n) := by rw [hys]; simp
  obtain ⟨hem, hen⟩ := List.mem_filter.mp hin
  refine ⟨hem, by simpa using hen, ?_⟩
  have hin' := hmem he' hle
  rw [hys] at hin' hsorted
  rcases List.mem_append.mp hin' with hys' | hys'
  · have hlt := (List.pairwise_append.mp hsorted).2.2 e' hys' e (by simp)
    rw [Nat.compare_eq_lt] at hlt
    exact hlt.le
  · rw [List.mem_singleton.mp hys']

/-- The block of a transaction is found by its number. -/
theorem heightForTxNum_eq (hw : WellFormed s.index) {n k : Nat} {bi : BlkInfo}
    (hget : s.index.blkInfos[k]? = some bi) (hlo : bi.txNum0 ≤ n)
    (hhi : n < bi.txNum0 + bi.nTx) : heightForTxNum s n = some k := by
  have hmem : (bi.txNum0, k) ∈ s.index.blkInfosByTxNum.toList :=
    Std.ExtTreeMap.mem_toList_iff_getElem?_eq_some.mpr ((hw.byTxNum _ _).mpr ⟨bi, hget, rfl⟩)
  cases hlast : (s.index.blkInfosByTxNum.toList.filter fun e => decide (e.1 ≤ n)).getLast? with
  | none =>
      rw [List.getLast?_eq_none_iff, List.filter_eq_nil_iff] at hlast
      exact absurd (by simpa using hlo) (hlast _ hmem)
  | some e =>
      obtain ⟨he, hle, hge⟩ := getLast_filter_le hlast hmem hlo
      obtain ⟨t, k'⟩ := e
      obtain ⟨bi', hget', rfl⟩ := (hw.byTxNum _ _).mp
        (Std.ExtTreeMap.mem_toList_iff_getElem?_eq_some.mp he)
      -- blocks before it end too early, blocks after it start too late
      have hk : k' = k := by
        rcases Nat.lt_trichotomy k' k with hlt | heq | hgt
        · have hend := hw.blkInfo_le_take hget' hlt
          rw [← (hw.blkInfos k bi hget).2] at hend
          have hpos := (hw.blkInfos k' bi' hget').1
          simp only at hge
          omega
        · exact heq
        · have hend := hw.blkInfo_le_take hget hgt
          rw [← (hw.blkInfos k' bi' hget').2] at hend
          simp only at hle
          omega
      subst hk
      rw [hget] at hget'
      cases hget'
      simp only [heightForTxNum, hlast, hget]
      rw [if_pos ⟨hlo, hhi⟩]

/-- The item of a transaction of the chain, if its block is in the range. -/
def historyItem (blocks : List CBlock) (fromHeight : Nat) (optToHeight : Option Nat)
    (txNum : Nat) : Option HistoryItem :=
  match (chainTxs blocks)[txNum]? with
  | none => none
  | some (height, tx) =>
      if fromHeight ≤ height ∧ optToHeight.all fun toHeight => decide (height < toHeight) then
        some { hash := tx.hash, height := height }
      else none

/-- What the queries about confirmed transactions rely on. -/
structure Answers (blocks : List CBlock) (s : State) : Prop where
  numbered : Numbered blocks s.index
  heights : HeightsExact blocks s.index

theorem Answers.height (h : Answers blocks s) {n height : Nat} {tx : CTransaction}
    (hget : (chainTxs blocks)[n]? = some (height, tx)) : heightForTxNum s n = some height := by
  obtain ⟨bi, hbi, hlo, hhi⟩ := h.heights n height tx hget
  exact heightForTxNum_eq h.numbered.wellFormed hbi hlo hhi

theorem Answers.hash (h : Answers blocks s) {n height : Nat} {tx : CTransaction}
    (hget : (chainTxs blocks)[n]? = some (height, tx)) : hashForTxNum s n = some tx.hash := by
  rw [hashForTxNum, h.numbered.txNums, List.getElem?_map, hget]
  rfl

/-- Later transactions are not in earlier blocks. -/
theorem Answers.height_le (h : Answers blocks s) {n n' height height' : Nat}
    {tx tx' : CTransaction} (hget : (chainTxs blocks)[n]? = some (height, tx))
    (hget' : (chainTxs blocks)[n']? = some (height', tx')) (hlt : n < n') :
    height ≤ height' := by
  obtain ⟨bi, hbi, hlo, hhi⟩ := h.heights n height tx hget
  obtain ⟨bi', hbi', hlo', hhi'⟩ := h.heights n' height' tx' hget'
  have hw := h.numbered.wellFormed
  by_contra hgt
  have hend := hw.blkInfo_le_take hbi' (not_le.mp hgt)
  rw [← (hw.blkInfos height bi hbi).2] at hend
  omega

/-- The loop over the confirmed numbers does not fail and yields the items in the range. -/
theorem Answers.confirmedHistory_eq (h : Answers blocks s) {fromHeight : Nat}
    {optToHeight : Option Nat} {nums : List Nat} (hsorted : nums.Pairwise (· < ·))
    (hnums : ∀ n ∈ nums, n < (chainTxs blocks).length) :
    confirmedHistory s fromHeight optToHeight nums =
      (nums.filterMap (historyItem blocks fromHeight optToHeight), true) := by
  induction nums with
  | nil => rfl
  | cons n nums ih =>
      obtain ⟨hfirst, hsorted⟩ := List.pairwise_cons.mp hsorted
      have hrest := ih hsorted fun m hm => hnums m (by simp [hm])
      obtain ⟨⟨height, tx⟩, hget⟩ : ∃ e, (chainTxs blocks)[n]? = some e :=
        ⟨_, List.getElem?_eq_getElem (hnums n (by simp))⟩
      rw [confirmedHistory, h.height hget]
      simp only
      by_cases hto : (optToHeight.any fun toHeight => decide (toHeight ≤ height)) = true
      · -- everything from here on is too late
        rw [if_pos hto]
        obtain ⟨toHeight, rfl, hle⟩ : ∃ toHeight, optToHeight = some toHeight ∧
            toHeight ≤ height := by
          cases optToHeight with
          | none => simp at hto
          | some toHeight => exact ⟨toHeight, rfl, by simpa using hto⟩
        have hnone : ∀ m ∈ n :: nums, historyItem blocks fromHeight (some toHeight) m = none := by
          intro m hm
          obtain ⟨⟨height', tx'⟩, hget'⟩ : ∃ e, (chainTxs blocks)[m]? = some e :=
            ⟨_, List.getElem?_eq_getElem (hnums m hm)⟩
          have hmono : height ≤ height' := by
            rcases List.mem_cons.mp hm with rfl | hm
            · rw [hget] at hget'
              cases hget'
              exact le_rfl
            · exact h.height_le hget hget' (hfirst m hm)
          simp only [historyItem, hget', Option.all_some, decide_eq_true_eq]
          rw [if_neg (by omega)]
        rw [List.filterMap_eq_nil_iff.mpr hnone]
      · rw [if_neg hto]
        have hbefore : (optToHeight.all fun toHeight => decide (height < toHeight)) = true := by
          cases optToHeight with
          | none => rfl
          | some toHeight => simpa using hto
        by_cases hfrom : height < fromHeight
        · have hitem : historyItem blocks fromHeight optToHeight n = none := by
            simp only [historyItem, hget]
            rw [if_neg (by omega)]
          rw [if_pos hfrom, List.filterMap_cons_none hitem, hrest]
        · have hitem : historyItem blocks fromHeight optToHeight n =
              some { hash := tx.hash, height := height } := by
            simp only [historyItem, hget]
            rw [if_pos ⟨not_lt.mp hfrom, hbefore⟩]
          rw [if_neg hfrom, h.hash hget, List.filterMap_cons_some hitem]
          simp only [hrest]

theorem Answers.getHistory_eq (h : Answers blocks s) {hx : HashX} {fromHeight : Nat}
    {optToHeight : Option Nat}
    (hnums : ∀ n ∈ s.index.shist[hx]?.getD [], n < (chainTxs blocks).length) :
    getHistory opts s hx true false fromHeight optToHeight =
      if (s.index.shist[hx]?.getD []).length ≤ opts.maxHistory then
        (s.index.shist[hx]?.getD []).filterMap (historyItem blocks fromHeight optToHeight)
      else [] := by
  have hsorted := (h.numbered.wellFormed.history hx).1
  simp only [getHistory, if_true, incrementCtr, Nat.zero_add]
  by_cases hlen : (s.index.shist[hx]?.getD []).length ≤ opts.maxHistory
  · rw [if_neg (not_lt.mpr hlen), if_pos hlen, h.confirmedHistory_eq hsorted hnums]
    simp
  · rw [if_pos (not_le.mp hlen), if_neg hlen]

end Queries

/-- What is known of a chain of valid blocks about histories. -/
theorem Chain.historyExact {st : List (CBlock × UndoInfo)} {ix : ChainIndex}
    (h : Chain H opts st ix) :
    HistoryExact H (st.map Prod.fst) ix ∧ HeightsExact (st.map Prod.fst) ix := by
  have hall := h.rec_on_blocks (P := fun blocks ix => DistinctIds blocks ∧ Sourced blocks ∧
    UtxosExact H blocks ix ∧ HistoryExact H blocks ix ∧ HeightsExact blocks ix) ?_ ?_
  · exact hall.2.2.2.2
  · refine ⟨by simp [DistinctIds, chainTxs], ?_, utxosExact_empty, ?_, ?_⟩
    · intro e he
      simp [chainTxs] at he
    · intro hx n
      simp [Involves, chainTxs]
    · intro n height tx hget
      simp [chainTxs] at hget
  · rintro blocks ix b ppb ch hnum ⟨hdist, hsrc, hex, hhist, hheights⟩ hv hc
    exact ⟨hdist.connect hv, hsrc.connect hnum hc, hex.connect hnum hsrc hv hc,
      hhist.connect hnum hsrc hdist hex hv hc, hheights.connect hnum hc⟩

theorem histories_of_reachable {r : ChainRun}
    (h : Reachable ChainRun.Start (ChainStep H opts ValidBlock) r) :
    Answers r.blocks r.state ∧ HistoryExact H r.blocks r.state.index := by
  obtain ⟨st, hchain, hblocks⟩ := chain_of_reachable h
  obtain ⟨hhist, hheights⟩ := hchain.historyExact
  have hnum := hchain.numbered
  rw [hblocks] at hhist hheights hnum
  exact ⟨⟨hnum, hheights⟩, hhist⟩

theorem distinctIds_of_reachable {r : ChainRun}
    (h : Reachable ChainRun.Start (ChainStep H opts ValidBlock) r) : DistinctIds r.blocks := by
  obtain ⟨st, hchain, hblocks⟩ := chain_of_reachable h
  have hall := hchain.rec_on_blocks (P := fun blocks _ => DistinctIds blocks)
    (by simp [DistinctIds, chainTxs]) fun _ hdist hv _ => hdist.connect hv
  rw [hblocks] at hall
  exact hall.2

theorem Answers.lt_length {blocks : List CBlock} {s : State} (h : Answers blocks s) (hx : HashX) :
    ∀ n ∈ s.index.shist[hx]?.getD [], n < (chainTxs blocks).length := by
  intro n hn
  rw [← h.numbered.txNumNext]
  exact (h.numbered.wellFormed.history hx).2 n hn

/--
In every run of valid blocks the history of a script hash is the increasing
list of the transactions that involve it.  If it is not longer than the limit, a
query lists those in blocks from `fromHeight` up to and without `optToHeight`;
otherwise it lists nothing.
-/
theorem history_exact {r : ChainRun}
    (h : Reachable ChainRun.Start (ChainStep H opts ValidBlock) r) (hx : HashX)
    (fromHeight : Nat) (optToHeight : Option Nat) :
    ∃ nums, r.state.index.shist[hx]?.getD [] = nums ∧ nums.Pairwise (· < ·) ∧
      (∀ n, n ∈ nums ↔ Involves H r.blocks hx n) ∧
      getHistory opts r.state hx true false fromHeight optToHeight =
        if nums.length ≤ opts.maxHistory then
          nums.filterMap (historyItem r.blocks fromHeight optToHeight)
        else [] := by
  obtain ⟨hans, hhist⟩ := histories_of_reachable h
  exact ⟨_, rfl, (hans.numbered.wellFormed.history hx).1, hhist hx,
    hans.getHistory_eq (hans.lt_length hx)⟩

section SmallChain

open Mempool

/-- The query about the second block finds its coinbase and both other transactions. -/
theorem history_exact_second : ∃ s : State,
    Reachable ChainRun.Start (ChainStep opTrueHashers {} ValidBlock)
        { state := s, blocks := [firstBlock, secondBlock 0] } ∧
      ∃ nums, s.index.shist[opTrueHashX]?.getD [] = nums ∧ nums.Pairwise (· < ·) ∧
        (∀ n, n ∈ nums ↔ Involves opTrueHashers [firstBlock, secondBlock 0] opTrueHashX n) ∧
        getHistory {} s opTrueHashX true false 1 none =
          if nums.length ≤ 125000 then
            nums.filterMap (historyItem [firstBlock, secondBlock 0] 1 none)
          else [] := by
  obtain ⟨s, hs⟩ := exists_secondState
  exact ⟨s, hs, history_exact hs opTrueHashX 1 none⟩

/-- A block with nothing but a coinbase. -/
def coinbaseBlock (hash : TxHash) (h : hash ≠ 0) : CBlock where
  header := plainHeader 0
  vtx := [coinbaseTx hash]
  coinbase := rfl
  hash_ne_null := by simpa [coinbaseTx] using h

theorem blockHeaderSize_default : ({} : Options).blockHeaderSize = 80 := rfl

/-- A block with nothing but a coinbase can always come next. -/
theorem addBlock_loneCoinbase {s : State} (hopts : opts.blockHeaderSize = 80)
    (hw : WellFormed s.index) {b : CBlock} {tx : CTransaction}
    (hheaderEq : b.header = plainHeader 0) (hvtx : b.vtx = [tx])
    (hout : tx.vout.length ≤ ioNumMax + 1)
    (hnull : ∀ input ∈ tx.vin, input.prevout.txHash = 0)
    (saveUndo notifySubs trackRecent : Bool) :
    ∃ ppb s' notify, fill opTrueHashers s.index.headers.length none 0 100 b = .ok ppb ∧
      addBlock opTrueHashers opts s ppb saveUndo notifySubs trackRecent = .ok s' notify := by
  have hfit : ∀ i tx', b.vtx[i]? = some tx' → OutNsFit i tx' := by
    intro i tx' htx
    rw [hvtx] at htx
    match i with
    | 0 =>
        obtain rfl : tx = tx' := Option.some.inj htx
        exact ⟨hout, fun hpos => absurd hpos (lt_irrefl 0)⟩
    | i + 1 => cases htx
  have hparent : ∀ tx ∈ b.vtx, ∀ input ∈ tx.vin, ∀ ptx ∈ b.vtx,
      ptx.hash = input.prevout.txHash → input.prevout.outN < ptx.vout.length := by
    intro tx' htx input hin ptx hptx hhash
    rw [hvtx] at htx
    obtain rfl := List.mem_singleton.mp htx
    rw [hnull input hin] at hhash
    exact absurd hhash (b.hash_ne_null ptx hptx)
  obtain ⟨ppb, hfill⟩ : ∃ ppb, fill opTrueHashers s.index.headers.length none 0 100 b = .ok ppb :=
    fill_ok hfit hparent (by simp)
  obtain ⟨hp, hheight⟩ := prepared_of_fill hfill
  obtain ⟨ch, hch⟩ : ∃ ch, blockChanges s.index ppb = .ok ch := by
    refine blockChanges_ok hp fun i input hext => ?_
    obtain ⟨hpos, ⟨tx', htx, -⟩, -⟩ := hext
    rw [hvtx] at htx
    match i, hpos with
    | i + 1, _ => cases htx
  have hheader : ppb.header = plainHeader 0 := hp.header.trans hheaderEq
  have hlen : ppb.header.serialize.length ≤ opts.blockHeaderSize := by
    rw [hheader, hopts]
    decide
  obtain ⟨s', notify, hadd⟩ : ∃ s' notify,
      addBlock opTrueHashers opts s ppb saveUndo notifySubs trackRecent = .ok s' notify :=
    addBlock_ok hw hch hheight hlen (by rw [hheader]; rfl) (.inr (by rw [hheader]; rfl))
  exact ⟨ppb, s', notify, hfill, hadd⟩

theorem addBlock_coinbaseBlock {s : State} (hopts : opts.blockHeaderSize = 80)
    (hw : WellFormed s.index) {hash : TxHash} (h : hash ≠ 0)
    (saveUndo notifySubs trackRecent : Bool) :
    ∃ ppb s' notify,
      fill opTrueHashers s.index.headers.length none 0 100 (coinbaseBlock hash h) = .ok ppb ∧
      addBlock opTrueHashers opts s ppb saveUndo notifySubs trackRecent = .ok s' notify :=
  addBlock_loneCoinbase hopts hw rfl rfl (by simp [coinbaseTx]) (by simp [coinbaseTx]) saveUndo
    notifySubs trackRecent

theorem step_coinbaseBlock {valid : List CBlock → CBlock → Prop} {r : ChainRun}
    (hopts : opts.blockHeaderSize = 80) (hw : WellFormed r.state.index)
    (hfits : r.state.index.txNumNext + 1 ≤ txNumMax + 1) {hash : TxHash} (h : hash ≠ 0)
    (hvalid : valid r.blocks (coinbaseBlock hash h)) :
    ∃ s, ChainStep opTrueHashers opts valid r
      { state := s, blocks := r.blocks ++ [coinbaseBlock hash h] } := by
  obtain ⟨ppb, s, notify, hfill, hadd⟩ := addBlock_coinbaseBlock hopts hw h true false false
  exact ⟨s, .add hfill hvalid hfits hadd⟩

/-- There are chains of any length up to the limit of the ids, all to one script hash. -/
theorem exists_coinbase_run (hopts : opts.blockHeaderSize = 80) (n : Nat) (hn : n ≤ 1000000) :
    ∃ r : ChainRun, Reachable ChainRun.Start (ChainStep opTrueHashers opts ValidBlock) r ∧
      (chainTxs r.blocks).length = n ∧
      ∀ e ∈ chainTxs r.blocks, ∃ k < n, e.2 = coinbaseTx (BitVec.ofNat 256 (k + 1)) := by
  have hinj : ∀ {k m : Nat}, k ≤ 1000000 → m ≤ 1000000 →
      (BitVec.ofNat 256 (k + 1) = BitVec.ofNat 256 (m + 1)) → k = m := by
    intro k m hk hm heq
    have hnat := congrArg BitVec.toNat heq
    simp only [BitVec.toNat_ofNat] at hnat
    omega
  induction n with
  | zero => exact ⟨_, .start rfl, rfl, by simp [chainTxs]⟩
  | succ n ih =>
      obtain ⟨r, hr, hlen, hall⟩ := ih (by omega)
      have hne : BitVec.ofNat 256 (n + 1) ≠ 0 := by
        intro heq
        have hnat := congrArg BitVec.toNat heq
        have hzero : (0 : BitVec 256).toNat = 0 := rfl
        rw [BitVec.toNat_ofNat, hzero] at hnat
        omega
      have hvalid : ValidBlock r.blocks (coinbaseBlock _ hne) := by
        refine ⟨by simp [coinbaseBlock], ?_, by simp [coinbaseBlock, coinbaseTx]⟩
        intro tx htx e he heq
        obtain ⟨k, hk, hek⟩ := hall e he
        rw [List.mem_singleton.mp htx, hek] at heq
        have hkn := hinj (by omega) (by omega) heq
        omega
      have hnum := (histories_of_reachable hr).1.numbered
      obtain ⟨s, hstep⟩ := step_coinbaseBlock hopts hnum.wellFormed
        (by rw [hnum.txNumNext, hlen]; simp only [txNumMax]; omega) hne hvalid
      refine ⟨_, hr.next hstep, ?_, ?_⟩
      · rw [chainTxs_concat]
        simp [hlen, coinbaseBlock]
      · intro e he
        rcases mem_chainTxs_concat.mp he with hold | ⟨tx, htx, rfl⟩
        · obtain ⟨k, hk, hek⟩ := hall e hold
          exact ⟨k, by omega, hek⟩
        · exact ⟨n, by omega, List.mem_singleton.mp htx⟩

/-- A history that is one longer than the limit is not listed at all. -/
theorem getHistory_over_limit : ∃ r : ChainRun,
    Reachable ChainRun.Start (ChainStep opTrueHashers { maxHistory := 1000 } ValidBlock) r ∧
      (∀ n < 1001, Involves opTrueHashers r.blocks opTrueHashX n) ∧
      getHistory { maxHistory := 1000 } r.state opTrueHashX true false 0 none = [] := by
  obtain ⟨r, hr, hlen, hall⟩ : ∃ r : ChainRun,
      Reachable ChainRun.Start (ChainStep opTrueHashers { maxHistory := 1000 } ValidBlock) r ∧
        (chainTxs r.blocks).length = 1001 ∧ ∀ e ∈ chainTxs r.blocks, ∃ k < 1001,
          e.2 = coinbaseTx (BitVec.ofNat 256 (k + 1)) := exists_coinbase_run rfl 1001 (by omega)
  obtain ⟨hans, hhist⟩ := histories_of_reachable hr
  have hinv : ∀ n < 1001, Involves opTrueHashers r.blocks opTrueHashX n := by
    intro n hn
    obtain ⟨⟨height, tx⟩, hget⟩ : ∃ e, (chainTxs r.blocks)[n]? = some e :=
      ⟨_, List.getElem?_eq_getElem (by omega)⟩
    obtain ⟨k, -, hek⟩ := hall _ (List.mem_of_getElem? hget)
    simp only at hek
    refine ⟨height, tx, hget, .inl ?_⟩
    rw [hek]
    exact ⟨_, List.mem_singleton_self _, rfl, rfl⟩
  refine ⟨r, hr, hinv, ?_⟩
  have hmany : 1001 ≤ (r.state.index.shist[opTrueHashX]?.getD []).length := by
    have hsub : List.range 1001 ⊆ r.state.index.shist[opTrueHashX]?.getD [] := by
      intro n hn
      exact (hhist opTrueHashX n).mpr (hinv n (List.mem_range.mp hn))
    have hle := (List.nodup_range.subperm hsub).length_le
    rwa [List.length_range] at hle
  rw [hans.getHistory_eq (hans.lt_length opTrueHashX), if_neg]
  simp only
  omega

end SmallChain

end Storage
end Shulcrum
