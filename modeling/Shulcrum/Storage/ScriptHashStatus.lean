import Shulcrum.Mempool.AddFrame
import Shulcrum.Mempool.ConfirmFrame
import Shulcrum.Mempool.DropFrame
import Shulcrum.Storage.TxStatus

/-!
# The status of a script hash

The status of a script hash is made of the ids and heights of its history.  A
call that changes it has to report the script hash.

Every operation on the mempool does, and so do `addBlock` and
`undoLatestBlock` when they succeed.  When `addBlock` rejects the header it has
already taken the block's transactions out of the mempool, and reports nothing.

**Results.**
* `getHistory_eq`: a history in terms of the index and the mempool.
* `rejected_scriptHashesNotified_iff`: when the rejection of a block is not seen.
* `scriptHashes_notified_iff`: when every script hash with another status is reported.
-/

namespace Shulcrum
namespace Storage

open Invariant TreeMap ChainIndex PreProcessedBlock Mempool

/-- The ids and heights of the history of a script hash, in order. -/
def statusItems (limits : Options) (s : State) (sh : HashX) : List (TxHash × Int) :=
  (getHistory limits s sh true true 0 none).map fun item => (item.hash, item.height)

/-- The set has every script hash whose history is another one in the second state. -/
def ScriptHashesNotified (limits : Options) (s s' : State) (scriptHashes : HashSet) : Prop :=
  ∀ sh, statusItems limits s' sh ≠ statusItems limits s sh → sh ∈ scriptHashes

/-- `scriptHashesAffected`, as it is enqueued. -/
def scriptHashesEnqueued (notify : Option NotifyData) : HashSet :=
  notify.elim ∅ NotifyData.scriptHashesAffected

/-! ## Histories -/

section Histories

variable {limits : Options} {s s' : State} {sh : HashX}

theorem confirmedHistory_congr {fromHeight : Nat} {optToHeight : Option Nat} {nums : List Nat}
    (hsame : ∀ n ∈ nums,
      heightForTxNum s' n = heightForTxNum s n ∧ hashForTxNum s' n = hashForTxNum s n) :
    confirmedHistory s' fromHeight optToHeight nums =
      confirmedHistory s fromHeight optToHeight nums := by
  induction nums with
  | nil => rfl
  | cons n nums ih =>
      obtain ⟨hheight, hhash⟩ := hsame n List.mem_cons_self
      have hrest := ih fun m hm => hsame m (List.mem_cons_of_mem _ hm)
      simp only [confirmedHistory, hheight, hhash, hrest]

/-- What the status of a script hash depends on. -/
theorem statusItems_congr
    (hnums : s'.index.shist[sh]?.getD [] = s.index.shist[sh]?.getD [])
    (hsame : ∀ n ∈ s.index.shist[sh]?.getD [],
      heightForTxNum s' n = heightForTxNum s n ∧ hashForTxNum s' n = hashForTxNum s n)
    (hlen : (s'.mempool.hashXTxs[sh]?.getD []).length =
      (s.mempool.hashXTxs[sh]?.getD []).length)
    (hhist : s'.mempool.history sh = s.mempool.history sh) :
    statusItems limits s' sh = statusItems limits s sh := by
  simp only [statusItems, getHistory, if_true, hnums, confirmedHistory_congr hsame, hlen,
    unconfirmedHistory_eq_history, hhist]

/-- The numbers of a history are all found. -/
theorem confirmedHistory_found (hw : WellFormed s.index) {nums : List Nat}
    (hnums : ∀ n ∈ nums, n < s.index.txNumNext) :
    (confirmedHistory s 0 none nums).2 = true := by
  induction nums with
  | nil => rfl
  | cons n nums ih =>
      have hn := hnums n List.mem_cons_self
      obtain ⟨k, bi, hget, hlo, hhi⟩ := hw.exists_blkInfo hn
      obtain ⟨hash, hhash⟩ : ∃ hash, hashForTxNum s n = some hash :=
        ⟨_, List.getElem?_eq_getElem (by rw [hw.txNums_length]; exact hn)⟩
      simp [confirmedHistory, heightForTxNum_eq hw hget hlo hhi, hhash,
        ih fun m hm => hnums m (List.mem_cons_of_mem _ hm)]

/-- The confirmed part of a history. -/
def confirmedItems (s : State) (sh : HashX) : List HistoryItem :=
  (confirmedHistory s 0 none (s.index.shist[sh]?.getD [])).1

/-- A history, below and above the limit. -/
theorem getHistory_eq (hw : WellFormed s.index) :
    getHistory limits s sh true true 0 none =
      if limits.maxHistory < (s.index.shist[sh]?.getD []).length then []
      else if limits.maxHistory < (s.index.shist[sh]?.getD []).length +
          (s.mempool.hashXTxs[sh]?.getD []).length then confirmedItems s sh
      else confirmedItems s sh ++ s.mempool.history sh := by
  have hfound := confirmedHistory_found hw (hw.history sh).2
  simp only [getHistory, if_true, incrementCtr, Nat.zero_add, gt_iff_lt]
  by_cases hc : limits.maxHistory < (s.index.shist[sh]?.getD []).length
  · rw [if_pos hc, if_pos hc]
  · rw [if_neg hc, if_neg hc]
    simp only [hfound, and_self, if_true]
    by_cases hu : limits.maxHistory < (s.index.shist[sh]?.getD []).length +
        (s.mempool.hashXTxs[sh]?.getD []).length
    · rw [if_pos hu, if_pos hu]
      rfl
    · rw [if_neg hu, if_neg hu]
      rfl

/-- The ids and heights of the confirmed part of a history. -/
def confirmedStanding (s : State) (sh : HashX) : List (TxHash × Int) :=
  (confirmedItems s sh).map fun item => (item.hash, item.height)

theorem statusItems_eq (hw : WellFormed s.index) :
    statusItems limits s sh =
      if limits.maxHistory < (s.index.shist[sh]?.getD []).length then []
      else if limits.maxHistory < (s.index.shist[sh]?.getD []).length +
          (s.mempool.hashXTxs[sh]?.getD []).length then confirmedStanding s sh
      else confirmedStanding s sh ++ s.mempool.standing sh := by
  rw [statusItems, getHistory_eq hw, apply_ite (List.map _), apply_ite (List.map _),
    List.map_append]
  rfl

theorem confirmedStanding_congr (hindex : s'.index = s.index) :
    confirmedStanding s' sh = confirmedStanding s sh := by
  have hheight : ∀ n, heightForTxNum s' n = heightForTxNum s n := by
    intro n
    rw [heightForTxNum, heightForTxNum, hindex]
  have hhash : ∀ n, hashForTxNum s' n = hashForTxNum s n := by
    intro n
    rw [hashForTxNum, hashForTxNum, hindex]
  rw [confirmedStanding, confirmedStanding, confirmedItems, confirmedItems, hindex,
    confirmedHistory_congr fun n _ => ⟨hheight n, hhash n⟩]

end Histories

/-! ## Operations on the mempool -/

section MempoolCalls

variable {limits : Options} {s : State}

/-- A call that covers its changes reports every history that it changes. -/
theorem notified_of_covers {mp' : Mempool} {scriptHashes txids dspTxs : HashSet}
    (hi : Indexed s.mempool) (hi' : Indexed mp')
    (hcovers : Covers scriptHashes txids dspTxs s.mempool mp') :
    ScriptHashesNotified limits s { s with mempool := mp' } scriptHashes := by
  intro sh hchanged
  by_contra hnot
  have hhist := hcovers.history sh hnot
  refine hchanged (statusItems_congr rfl (fun _ _ => ⟨rfl, rfl⟩) ?_ hhist)
  rw [← hi'.length_history, hhist, hi.length_history]

theorem addNewTxs_scriptHashesNotified {H : Hashers} {getTXOInfo : TXO → Option TXOInfo}
    (hi : Indexed s.mempool) {affected : HashSet} {news : List NewTx}
    (hnodup : (news.map NewTx.hash).Nodup) (hfresh : ∀ nt ∈ news, nt.hash ∉ s.mempool.txs)
    {res : Mempool × HashSet × MempoolStats}
    (hok : addNewTxs H getTXOInfo s.mempool affected news = .ok res) :
    ScriptHashesNotified limits s { s with mempool := res.1 } res.2.1 := by
  obtain ⟨hi', hcovers, -⟩ := addNewTxs_covers hi hnodup hfresh hok
    (T := (news.map NewTx.hash).foldl (·.insert ·) ∅) fun nt hnt =>
      mem_foldl_insert.mpr (.inr (List.mem_map_of_mem hnt))
  exact notified_of_covers hi hi' hcovers

theorem dropTxs_scriptHashesNotified (hi : Indexed s.mempool) (affected : HashSet)
    (txids : List TxHash) : ∃ res, dropTxs s.mempool affected txids = some res ∧
      ScriptHashesNotified limits s { s with mempool := res.1 } res.2.2.1 := by
  obtain ⟨res, hdrop⟩ : ∃ res, dropTxs s.mempool affected txids = some res := by
    obtain ⟨gone, hgone⟩ := descendants_total s.mempool.txs txids
    rw [dropTxs, hgone]
    exact ⟨_, rfl⟩
  obtain ⟨hi', hcovers⟩ := dropTxs_covers hi hdrop
  refine ⟨res, hdrop, notified_of_covers hi hi' (hcovers (res.2.1.foldl (·.insert ·) ∅) ?_)⟩
  exact fun t ht => mem_foldl_insert.mpr (.inr ht)

theorem confirmedInBlock_scriptHashesNotified (hc : Coherent s.mempool)
    (txidMap : Std.ExtTreeMap TxHash Nat compare) (height : Nat) (affected : HashSet) :
    ScriptHashesNotified limits s
      { s with mempool := (confirmedInBlock txidMap height s.mempool affected).1 }
      (confirmedInBlock txidMap height s.mempool affected).2.1 := by
  intro sh hchanged
  by_contra hnot
  rw [mem_affected_confirmedInBlock hc, not_or, not_exists] at hnot
  have hstill : ∀ h ∈ s.mempool.hashXTxs[sh]?.getD [], ¬ Moves s.mempool txidMap h :=
    fun h hh hmoves => hnot.2 h ⟨hh, hmoves⟩
  have hvec : (confirmedInBlock txidMap height s.mempool affected).1.hashXTxs[sh]? =
      s.mempool.hashXTxs[sh]? := get_hashXTxs_confirmedInBlock hc hstill
  have hhist : (confirmedInBlock txidMap height s.mempool affected).1.history sh =
      s.mempool.history sh := history_confirmedInBlock hc hstill
  exact hchanged (statusItems_congr rfl (fun _ _ => ⟨rfl, rfl⟩) (by rw [hvec]) hhist)

end MempoolCalls

/-! ## Blocks -/

/--
A client cannot see at a script hash that the block was rejected after its transactions had left
the mempool: no listed entry changes if all are in the history, and nothing is left that would
get below the limit.
-/
structure Unseen (limits : Options) (s : State) (ppb : PreProcessedBlock) (sh : HashX) : Prop where
  complete : (s.index.shist[sh]?.getD []).length + (s.mempool.hashXTxs[sh]?.getD []).length ≤
      limits.maxHistory →
    ∀ h ∈ s.mempool.hashXTxs[sh]?.getD [],
      ¬ Moves s.mempool (blockTxidMap s.index.txNumNext ppb) h
  part : (s.index.shist[sh]?.getD []).length ≤ limits.maxHistory →
    limits.maxHistory <
      (s.index.shist[sh]?.getD []).length + (s.mempool.hashXTxs[sh]?.getD []).length →
    (s.index.shist[sh]?.getD []).length + ((s.mempool.hashXTxs[sh]?.getD []).filter
      fun h => h ∉ blockTxidMap s.index.txNumNext ppb).length ≤ limits.maxHistory →
    ∀ h ∈ s.mempool.hashXTxs[sh]?.getD [], h ∈ blockTxidMap s.index.txNumNext ppb

section Blocks

variable {H : Hashers} {opts limits : Options} {s s' : State} {b : CBlock}
  {ppb : PreProcessedBlock} {saveUndo trackRecent : Bool} {notify : Option NotifyData}

/-- A block that is accepted reports every history that it changes. -/
theorem addBlock_scriptHashesNotified (hs : Sound s) (hc : Coherent s.mempool)
    {height blockSize : Nat} {blockHash : Hash}
    {rpaTask : Option (List CTransaction → Except Exception (List UInt8))}
    (hfill : fill H height rpaTask blockHash blockSize b = .ok ppb)
    (hfits : s.index.txNumNext + b.vtx.length ≤ txNumMax + 1)
    (hadd : addBlock H opts s ppb saveUndo true trackRecent = .ok s' notify) :
    ScriptHashesNotified limits s s' (scriptHashesEnqueued notify) := by
  have hw := hs.wellFormed
  obtain ⟨hp, -⟩ := prepared_of_fill hfill
  obtain ⟨ch, hch, hheight, hlen, hindex, -, -, hmempool, hnotify⟩ := addBlock_inv hadd
  rw [hp.header] at hlen
  have hconn : Connected H opts s.index b ppb ch :=
    ⟨hp, changes_of_blockChanges hp hch, hheight, hlen, hfits⟩
  intro sh hchanged
  by_contra hnot
  have henqueued : sh ∈ scriptHashesEnqueued notify ↔
      sh ∈ (s.mempool.confirmedInBlock (blockTxidMap s.index.txNumNext ppb) ppb.height ∅).2.1 ∨
        sh ∈ ch.hashXAggregated.keys := by
    rw [hnotify]
    exact mem_foldl_insert
  rw [henqueued, not_or, mem_affected_confirmedInBlock hc, not_or, not_exists] at hnot
  obtain ⟨⟨-, hnone⟩, hfresh⟩ := hnot
  have hstill : ∀ h ∈ s.mempool.hashXTxs[sh]?.getD [],
      ¬ Moves s.mempool (blockTxidMap s.index.txNumNext ppb) h :=
    fun h hh hmoves => hnone h ⟨hh, hmoves⟩
  have hnums : s'.index.shist[sh]? = s.index.shist[sh]? := by
    rw [Std.ExtTreeMap.mem_keys] at hfresh
    rw [hindex, hconn.get_shist, not_mem_iff_getElem?.mp hfresh]
    rfl
  have hmp : s'.mempool =
      (s.mempool.confirmedInBlock (blockTxidMap s.index.txNumNext ppb) ppb.height ∅).1 := hmempool
  refine hchanged (statusItems_congr ?_ ?_ ?_ ?_)
  · rw [hnums]
  · intro n hn
    have hlt := (hw.history sh).2 n hn
    refine ⟨heightForTxNum_connect hw hconn hindex hlt, ?_⟩
    rw [hashForTxNum, hindex]
    exact List.getElem?_append_left (by rw [hw.txNums_length]; exact hlt)
  · rw [hmp, get_hashXTxs_confirmedInBlock hc hstill]
  · rw [hmp]
    exact history_confirmedInBlock hc hstill

/-- A block that is rejected does not change a history iff that is not seen. -/
theorem rejected_statusItems_eq_iff (hw : WellFormed s.index) (hc : Coherent s.mempool)
    {errMsg : String} (hadd : addBlock H opts s ppb saveUndo true trackRecent =
      .headerVerificationFailure errMsg s') (sh : HashX) :
    statusItems limits s' sh = statusItems limits s sh ↔ Unseen limits s ppb sh := by
  obtain ⟨recent, hconf⟩ := confirmInMempool_eq s ppb true trackRecent
  have hstate := (state_of_rejected hadd).trans hconf
  have hindex : s'.index = s.index := by rw [hstate]
  have hmp : s'.mempool =
      (s.mempool.confirmedInBlock (blockTxidMap s.index.txNumNext ppb) ppb.height ∅).1 := by
    rw [hstate]
    rfl
  have hperm : (s'.mempool.hashXTxs[sh]?.getD []).Perm ((s.mempool.hashXTxs[sh]?.getD []).filter
      fun h => h ∉ blockTxidMap s.index.txNumNext ppb) := by
    rw [hmp]
    exact perm_confirmedInBlock hc
  have hle := List.length_filter_le (fun h => decide (h ∉ blockTxidMap s.index.txNumNext ppb))
    (s.mempool.hashXTxs[sh]?.getD [])
  rw [statusItems_eq hw, statusItems_eq (hindex.symm ▸ hw), hindex, hperm.length_eq,
    confirmedStanding_congr hindex]
  by_cases hconfirmed : limits.maxHistory < (s.index.shist[sh]?.getD []).length
  · rw [if_pos hconfirmed, if_pos hconfirmed]
    exact iff_of_true rfl ⟨fun _ => by omega, fun _ => by omega⟩
  rw [if_neg hconfirmed, if_neg hconfirmed]
  by_cases hboth : limits.maxHistory <
      (s.index.shist[sh]?.getD []).length + (s.mempool.hashXTxs[sh]?.getD []).length
  · rw [if_pos hboth]
    split_ifs with hleft
    · exact iff_of_true rfl ⟨fun _ => by omega, fun _ _ _ => by omega⟩
    · -- the list is cut off before the call, and complete after it
      have hlen : (s'.mempool.standing sh).length = ((s.mempool.hashXTxs[sh]?.getD []).filter
          fun h => h ∉ blockTxidMap s.index.txNumNext ppb).length := by
        rw [hmp]
        exact length_standing_confirmedInBlock hc
      rw [List.append_right_eq_self, ← List.length_eq_zero_iff, hlen, List.length_eq_zero_iff,
        List.filter_eq_nil_iff]
      constructor
      · intro hall
        refine ⟨fun _ => by omega, fun _ _ _ h hh => ?_⟩
        simpa using hall h hh
      · intro hunseen h hh
        simpa using hunseen.part (not_lt.mp hconfirmed) hboth (not_lt.mp hleft) h hh
  · rw [if_neg hboth, if_neg (by omega), List.append_cancel_left_eq, hmp,
      standing_confirmedInBlock_eq_iff hc]
    exact ⟨fun hall => ⟨fun _ => hall, fun _ => by omega⟩,
      fun hunseen => hunseen.complete (not_lt.mp hboth)⟩

/-- A rejected block with a transaction of a complete history changes the history. -/
theorem rejected_statusItems_ne (hw : WellFormed s.index) (hc : Coherent s.mempool)
    {errMsg : String} (hadd : addBlock H opts s ppb saveUndo true trackRecent =
      .headerVerificationFailure errMsg s') {sh : HashX} {h : TxHash}
    (hfits : (s.index.shist[sh]?.getD []).length + (s.mempool.hashXTxs[sh]?.getD []).length ≤
      limits.maxHistory) (hlisted : h ∈ s.mempool.hashXTxs[sh]?.getD [])
    (hin : ∃ info ∈ ppb.txInfos.drop 1, info.hash = h) :
    statusItems limits s' sh ≠ statusItems limits s sh := by
  rw [ne_eq, rejected_statusItems_eq_iff hw hc hadd]
  intro hunseen
  exact hunseen.complete hfits h hlisted (.inl (mem_blockTxidMap.mpr hin))

/-- A block that is rejected reports nothing, and then no history may have changed. -/
theorem rejected_scriptHashesNotified_iff (hw : WellFormed s.index) (hc : Coherent s.mempool)
    {errMsg : String} (hadd : addBlock H opts s ppb saveUndo true trackRecent =
      .headerVerificationFailure errMsg s') :
    ScriptHashesNotified limits s s' ∅ ↔ ∀ sh, Unseen limits s ppb sh := by
  refine forall_congr' fun sh => ?_
  rw [iff_false_intro (Std.ExtTreeSet.not_mem_empty : sh ∉ (∅ : HashSet)), imp_false, not_not]
  exact rejected_statusItems_eq_iff hw hc hadd sh

/-- An undo reports every history that it changes. -/
theorem undoLatestBlock_scriptHashesNotified (hs : Sound s) {u : Undone}
    (hundo : undoLatestBlock H s true = .ok u) :
    ScriptHashesNotified limits s u.state (scriptHashesEnqueued u.notify) := by
  obtain ⟨prevHeader, info, nd, hrec, htip, hd, hnotify, hmempool, hscriptHashes, -⟩ :=
    hs.undone hundo
  have hw := hs.wellFormed
  have hw' := (hs.undo hundo).wellFormed
  have hnext := hrec.next_eq hw htip
  obtain ⟨shist, table, hshist, -, hindex⟩ := disconnectBlock_eq_ok hd
  intro sh hchanged
  by_contra hnot
  rw [hnotify, scriptHashesEnqueued, Option.elim_some, hscriptHashes, mem_foldl_insert,
    mem_foldl_insert, not_or, not_or, Std.ExtTreeMap.mem_keys] at hnot
  obtain ⟨⟨-, hunlisted⟩, huntouched⟩ := hnot
  have hempty : s.mempool.hashXTxs[sh]? = none := not_mem_iff_getElem?.mp hunlisted
  have hcleared : u.state.mempool.hashXTxs[sh]? = none := by
    rw [hmempool]
    simp [Mempool.clear]
  have hnums : u.state.index.shist[sh]? = s.index.shist[sh]? := by
    rw [hindex]
    rw [get_undoHistories hshist (fun hx vec hvec => (hw.shist hx vec hvec).2.1) sh,
      if_neg huntouched]
  have hbefore : ∀ n ∈ s.index.shist[sh]?.getD [], n < info.blkInfo.txNum0 := by
    intro n hn
    have hlt := (hw.history sh).2 n hn
    by_contra hge
    cases hl : s.index.shist[sh]? with
    | none => simp [hl] at hn
    | some l =>
        rw [hl] at hn
        exact huntouched (hrec.shist sh l hl n hn ⟨not_lt.mp hge, by omega⟩)
  refine hchanged (statusItems_congr ?_ ?_ ?_ ?_)
  · rw [hnums]
  · intro n hn
    have hlt := hbefore n hn
    refine ⟨heightForTxNum_disconnect hw hw' hrec (by rw [hindex]) htip hlt, ?_⟩
    rw [hashForTxNum, hashForTxNum, hindex]
    exact List.getElem?_take_of_lt hlt
  · rw [hempty, hcleared]
  · rw [Mempool.history, Mempool.history, hempty, hcleared]
    rfl

/--
In every state of every run, an undo reports each script hash with another
history.  With the mempool of any run of the mempool, so do a block that is
accepted and every operation on the mempool; a block that is rejected reports
none, and changes none if and only if it is `Unseen` at every script hash.
-/
theorem scriptHashes_notified_iff {valid : List CBlock → CBlock → Prop} {r : ChainRun}
    (hr : Reachable ChainRun.Start (ChainStep H opts valid) r) (limits : Options) :
    (∀ u, undoLatestBlock H r.state true = .ok u →
      ScriptHashesNotified limits r.state u.state (scriptHashesEnqueued u.notify)) ∧
    ∀ (rpa : Bool) (m : RunState), Reachable (RunState.Start rpa) (DspStep H) m →
      r.state.mempool = m.mp →
      (∀ (b : CBlock) (height blockSize : Nat) (blockHash : Hash)
          (rpaTask : Option (List CTransaction → Except Exception (List UInt8)))
          (ppb : PreProcessedBlock) (saveUndo trackRecent : Bool) (s' : State)
          (notify : Option NotifyData),
        fill H height rpaTask blockHash blockSize b = .ok ppb →
        r.state.index.txNumNext + b.vtx.length ≤ txNumMax + 1 →
        addBlock H opts r.state ppb saveUndo true trackRecent = .ok s' notify →
        ScriptHashesNotified limits r.state s' (scriptHashesEnqueued notify)) ∧
      (∀ (ppb : PreProcessedBlock) (saveUndo trackRecent : Bool) (errMsg : String) (s' : State),
        addBlock H opts r.state ppb saveUndo true trackRecent =
          .headerVerificationFailure errMsg s' →
        (ScriptHashesNotified limits r.state s' ∅ ↔ ∀ sh, Unseen limits r.state ppb sh)) ∧
      (∀ (getTXOInfo : TXO → Option TXOInfo) (affected : HashSet) (news : List NewTx)
          (res : Mempool × HashSet × MempoolStats),
        (news.map NewTx.hash).Nodup → (∀ nt ∈ news, nt.hash ∉ r.state.mempool.txs) →
        addNewTxs H getTXOInfo r.state.mempool affected news = .ok res →
        ScriptHashesNotified limits r.state { r.state with mempool := res.1 } res.2.1) ∧
      (∀ (affected : HashSet) (txids : List TxHash),
        ∃ res, dropTxs r.state.mempool affected txids = some res ∧
          ScriptHashesNotified limits r.state { r.state with mempool := res.1 } res.2.2.1) ∧
      ∀ (txidMap : Std.ExtTreeMap TxHash Nat compare) (height : Nat) (affected : HashSet),
        ScriptHashesNotified limits r.state
          { r.state with mempool := (confirmedInBlock txidMap height r.state.mempool affected).1 }
          (confirmedInBlock txidMap height r.state.mempool affected).2.1 := by
  have hs := sound_of_reachable hr
  refine ⟨fun u hundo => undoLatestBlock_scriptHashesNotified hs hundo, ?_⟩
  intro rpa m hm hmempool
  have hc : Coherent r.state.mempool := hmempool ▸ coherent_of_reachable hm
  have hi : Indexed r.state.mempool := hmempool ▸ indexed_of_reachable hm
  refine ⟨?_, ?_, ?_, ?_, ?_⟩
  · intro b height blockSize blockHash rpaTask ppb saveUndo trackRecent s' notify hfill hfits hadd
    exact addBlock_scriptHashesNotified hs hc hfill hfits hadd
  · intro ppb saveUndo trackRecent errMsg s' hadd
    exact rejected_scriptHashesNotified_iff hs.wellFormed hc hadd
  · intro getTXOInfo affected news res hnodup hfresh hok
    exact addNewTxs_scriptHashesNotified hi hnodup hfresh hok
  · intro affected txids
    exact dropTxs_scriptHashesNotified hi affected txids
  · intro txidMap height affected
    exact confirmedInBlock_scriptHashesNotified hc txidMap height affected

end Blocks

section SmallChain

/-- The rejection of a block without a transaction of the mempool is not seen. -/
theorem scriptHashes_notified_iff_strange : ∃ m : RunState,
    Reachable (RunState.Start false) (Mempool.Step opTrueHashers) m ∧
      m.txs = [parentTx, childTx] ∧ ∃ (s' : State) (errMsg : String),
        addBlock opTrueHashers {} { firstState with mempool := m.mp } (prepared 1 strangeBlock)
            true true false = .headerVerificationFailure errMsg s' ∧
          ScriptHashesNotified {} { firstState with mempool := m.mp } s' ∅ := by
  obtain ⟨m, hrun, htxs, -⟩ := exists_parentChild_run
  obtain ⟨⟨errMsg, hrej⟩, hnew⟩ := rejected_strangeBlock hrun htxs
  have hm : Reachable (RunState.Start false) (DspStep opTrueHashers) m :=
    hrun.mono fun _ _ hstep => .base hstep
  have hr := (reachable_firstState ValidBlock validBlock_first).next (.mempool m.mp)
  have hnotified := (((scriptHashes_notified_iff hr {}).2 _ m hm rfl).2.1 _ _ _ _ _ hrej).mpr
  have hc := coherent_of_reachable hm
  have hout : ∀ h ∈ m.mp.txs, h ∉ blockTxidMap 1 (prepared 1 strangeBlock) := by
    intro h hmem hin
    obtain ⟨info, hinfo, rfl⟩ := mem_blockTxidMap.mp hin
    exact hnew info hinfo hmem
  have hlisted : ∀ (sh : HashX), ∀ h ∈ m.mp.hashXTxs[sh]?.getD [], h ∈ m.mp.txs := by
    intro sh h hh
    obtain ⟨tx, htx, -⟩ := (hc.mem_hashXTxs sh h).mp hh
    exact mem_iff_getElem?.mpr ⟨tx, htx⟩
  refine ⟨m, hrun, htxs, _, errMsg, hrej, hnotified fun sh => ⟨fun _ h hh => ?_, ?_⟩⟩
  · rintro (hin | ⟨tx, htx, hne, hall⟩)
    · exact hout h (hlisted sh h hh) hin
    · refine hne (Std.ExtTreeSet.eq_empty_iff_forall_not_mem.mpr fun p hp => ?_)
      exact hout p (hc.stored h tx htx p hp) (hall p hp)
  · -- none of its entries goes, so that the history stays over the limit
    intro _ hover hunder
    have hsame : (m.mp.hashXTxs[sh]?.getD []).filter
        (fun h => h ∉ blockTxidMap 1 (prepared 1 strangeBlock)) = m.mp.hashXTxs[sh]?.getD [] :=
      List.filter_eq_self.mpr fun h hh => decide_eq_true (hout h (hlisted sh h hh))
    exact absurd (hsame ▸ hunder) (not_le.mpr hover)

/-- A block on another branch takes two transactions out of a history, and nobody is told. -/
theorem rejected_block_not_notified : ∃ (r : ChainRun) (m : RunState) (s' : State)
    (errMsg : String),
    Reachable ChainRun.Start (ChainStep opTrueHashers {} ValidBlock) r ∧
      Reachable (RunState.Start false) (DspStep opTrueHashers) m ∧
      r.state.mempool = m.mp ∧ (∀ txo, m.db txo = r.state.index.utxos.utxoset[txo]?) ∧
      addBlock opTrueHashers {} r.state (prepared 1 (secondBlock 1)) true true false =
        .headerVerificationFailure errMsg s' ∧
      statusItems {} s' opTrueHashX ≠ statusItems {} r.state opTrueHashX ∧
      ¬ ScriptHashesNotified {} r.state s' ∅ := by
  obtain ⟨m, hrun, htxs, hdb⟩ := exists_parentChild_run_over
    (fun txo => firstState.index.utxos.utxoset[txo]?) ⟨_, rfl⟩
  have hm : Reachable (RunState.Start false) (DspStep opTrueHashers) m :=
    hrun.mono fun _ _ hstep => .base hstep
  have hr := (reachable_firstState ValidBlock validBlock_first).next (.mempool m.mp)
  obtain ⟨errMsg, s', hrej⟩ : ∃ (errMsg : String) (s' : State),
      addBlock opTrueHashers {} { firstState with mempool := m.mp } (prepared 1 (secondBlock 1))
        true true false = .headerVerificationFailure errMsg s' := by
    obtain ⟨errMsg, hrej⟩ := rejected_secondBlock m.mp true
    exact ⟨errMsg, _, hrej⟩
  have hrep := (runInv_of_reachable hrun).rep
  rw [htxs] at hrep
  have hlisted : (1 : TxHash) ∈ m.mp.hashXTxs[opTrueHashX]?.getD [] :=
    (hrep.mem_hashXTxs opTrueHashX 1).mpr ⟨parentTx, by decide, .inl ⟨0, _, rfl, rfl⟩⟩
  have hfew : (m.mp.hashXTxs[opTrueHashX]?.getD []).length ≤ 2 := by
    have hsub : m.mp.hashXTxs[opTrueHashX]?.getD [] ⊆ [1, 2] := by
      intro h hh
      obtain ⟨nt, hP, -⟩ := (hrep.mem_hashXTxs opTrueHashX h).mp hh
      obtain ⟨hin, rfl⟩ := (Pool.ofList_eq_some nodup_parentChild).mp hP
      exact List.mem_map_of_mem (f := NewTx.hash) hin
    exact ((hrep.nodup_listed opTrueHashX).subperm hsub).length_le
  have hfits : (firstState.index.shist[opTrueHashX]?.getD []).length +
      (m.mp.hashXTxs[opTrueHashX]?.getD []).length ≤ ({} : Options).maxHistory := by
    have hone : (firstState.index.shist[opTrueHashX]?.getD []).length = 1 := rfl
    have hlimit : 3 ≤ ({} : Options).maxHistory := by decide
    omega
  have hin : ∃ info ∈ (prepared 1 (secondBlock 1)).txInfos.drop 1, info.hash = 1 :=
    ⟨{ hash := 1, nInputs := 1, nOutputs := 1, input0Index := some 2, output0Index := some 2 },
      by decide, rfl⟩
  have hchanged := rejected_statusItems_ne (s := { firstState with mempool := m.mp })
    (sound_of_reachable hr).wellFormed (coherent_of_reachable hm) hrej hfits hlisted hin
  refine ⟨_, m, s', errMsg, hr, hm, rfl, fun txo => congrFun hdb txo, hrej, hchanged, ?_⟩
  exact fun hall => absurd (hall _ hchanged) (by simp)

end SmallChain

end Storage
end Shulcrum
