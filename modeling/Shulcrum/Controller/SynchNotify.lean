import Shulcrum.Controller.SynchRun
import Shulcrum.Mempool.Run

/-!
# What a mempool synch task notifies

The task collects the script hashes, txids and proofs that its passes change, and
its destructor enqueues them.  A `ConsistencyError` clears the mempool without
adding what it held, so the sets cover every change exactly in the runs where
that mempool was empty before the batch.

**Results.**
* `synch_notifies_iff`: the sets cover every change in all states of a run if and
  only if no `ConsistencyError` finds transactions in the mempool.
* `synch_loses_notification`: a run that loses a notification.
-/

namespace Shulcrum

open BTC TreeMap

namespace Mempool

variable {H : Hashers} {getTXOInfo : TXO → Option TXOInfo} {mp₀ : Mempool}
  {affected₀ : HashSet} {isNew : TxHash → Bool}

/-! ## A batch that is refused -/

theorem AddFrame.mem_affectedByInputs {s : AddState} (h : AddFrame mp₀ affected₀ isNew s)
    {hash : TxHash} (hfresh : hash ∉ mp₀.txs) (hash_mem : hash ∈ s.mp.txs) (inNum : Nat)
    (inputs : List CTxIn) {sh : HashX} (hsh : sh ∈ affected₀) :
    sh ∈ affectedByInputs H getTXOInfo isNew hash s inNum inputs := by
  induction inputs generalizing s inNum with
  | nil => exact h.affected sh hsh
  | cons input inputs ih =>
      rw [affectedByInputs]
      cases hadd : Mempool.addInput H getTXOInfo isNew hash s inNum input with
      | error e => exact h.affected sh hsh
      | ok s' =>
          obtain ⟨h', hmem⟩ := h.addInput hfresh hash_mem hadd
          exact ih h' ((hmem hash).mpr hash_mem) _

theorem AddFrame.mem_affectedByAllInputs {s : AddState} (h : AddFrame mp₀ affected₀ isNew s)
    {news : List NewTx} (hfresh : ∀ nt ∈ news, nt.hash ∉ mp₀.txs)
    (hmem : ∀ nt ∈ news, nt.hash ∈ s.mp.txs) {sh : HashX} (hsh : sh ∈ affected₀) :
    sh ∈ affectedByAllInputs H getTXOInfo isNew s news := by
  induction news generalizing s with
  | nil => exact h.affected sh hsh
  | cons nt news ih =>
      have hstart : AddFrame mp₀ affected₀ isNew { s with seenParents := ∅ } :=
        { h with }
      have hnt := hfresh nt List.mem_cons_self
      have hntmem := hmem nt List.mem_cons_self
      rw [affectedByAllInputs]
      cases hadd : Mempool.addInputs H getTXOInfo isNew nt.hash { s with seenParents := ∅ } 0
          nt.ctx.vin with
      | error e => exact hstart.mem_affectedByInputs hnt hntmem 0 _ hsh
      | ok s' =>
          obtain ⟨h', hmem'⟩ := hstart.addInputs hnt hntmem hadd
          refine ih h' (fun q hq => hfresh q (List.mem_cons_of_mem _ hq)) fun q hq => ?_
          exact (hmem' q.hash).mpr (hmem q (List.mem_cons_of_mem _ hq))

/-- A batch that is refused keeps the script hashes that were affected before it. -/
theorem mem_affectedAtThrow {mp : Mempool} (h : Indexed mp) {affected : HashSet}
    {news : List NewTx} (hnodup : (news.map NewTx.hash).Nodup)
    (hfresh : ∀ nt ∈ news, nt.hash ∉ mp.txs) {sh : HashX} (hsh : sh ∈ affected) :
    sh ∈ affectedAtThrow H getTXOInfo mp affected news := by
  have hnew : ∀ nt ∈ news, (news.any (·.hash == nt.hash)) = true := by
    intro nt hnt
    rw [List.any_eq_true]
    exact ⟨nt, hnt, by simp⟩
  have hstart := addFrame_start h affected fun g => news.any (·.hash == g)
  have hfirst := hstart.foldl_addTxOutputs (H := H) hnew hnodup hfresh
  refine hfirst.mem_affectedByAllInputs hfresh (fun nt hnt => ?_) hsh
  exact mem_txs_foldl_addTxOutputs.mpr (.inr (List.mem_map_of_mem hnt))

end Mempool

namespace SynchMempool

open Mempool

namespace SynchMempoolTask

variable {cfg : Config} {ord : Orders} {M : Mempool} {before : List Mempool}
  {t t' : SynchMempoolTask}

/-- The sets of the task cover its changes to the mempool. -/
abbrev CoversSince (M : Mempool) (t : SynchMempoolTask) : Prop :=
  Covers t.scriptHashesAffected t.txidsAffected t.dspTxsAffected M t.mempool

/--
What the sets of a task cover.  `before` are the mempools that were cleared up to
an earlier state.
-/
structure Noted (M : Mempool) (before : List Mempool) (t : SynchMempoolTask) : Prop where
  grows : before ⊆ t.cleared
  covers : (∀ mp ∈ t.cleared, mp.txs.isEmpty = true) → CoversSince M t
  /-- Until the batch is added, nothing is new in the mempool. -/
  old : t.state ≠ .processingResults → ∀ h ∈ t.mempool.txs, h ∈ M.txs ∧ h ∉ t.txidsAffected
  /-- The transactions of a mempool that was just cleared are lost. -/
  lost : ∀ mp ∈ t.cleared, mp ∈ before ∨ mp.txs.isEmpty = true ∨ ¬ CoversSince M t

theorem noted_start (M : Mempool) : Noted M [] { mempool := M } where
  grows := List.nil_subset _
  covers _ := .refl _ _ _ _
  old _ h hh := ⟨hh, by simp⟩
  lost mp hmp := by cases hmp

theorem Noted.self (h : Noted M before t) : Noted M t.cleared t :=
  ⟨List.Subset.refl _, h.covers, h.old, fun _ hmp => .inl hmp⟩

/-- The end of a pass. -/
theorem noted_finish (hi : Indexed t.mempool) (hd : Downloading t)
    (hstate : t.state = .processingResults)
    (hcovers : (∀ mp ∈ t.cleared, mp.txs.isEmpty = true) → CoversSince M t)
    (hold : ∀ h ∈ t.mempool.txs, h ∈ M.txs ∧ h ∉ t.txidsAffected) (h : Finish cfg t t') :
    Noted M t.cleared t' := by
  cases h with
  | errored =>
      exact ⟨List.Subset.refl _, hcovers, fun hs => absurd hstate hs, fun _ => .inl⟩
  | @success cache kept failed r hnodup hkept hadd =>
      have hfresh : ∀ nt ∈ kept, nt.hash ∉ t.mempool.txs := fun nt hnt =>
        hd.fresh nt.hash (.inr (.inr (List.mem_map_of_mem ((hkept nt).mp hnt).1)))
      obtain ⟨-, hcov, haff, -⟩ := addNewTxs_covers hi hnodup hfresh hadd
        (T := t.txidsAffected) fun nt hnt =>
          hd.noted nt.hash (List.mem_map_of_mem ((hkept nt).mp hnt).1)
      refine ⟨List.Subset.refl _, fun hall => ?_, fun hs => absurd hstate hs, fun _ => .inl⟩
      refine ((hcovers hall).mono ?_ ?_ ?_).trans (hcov.mono ?_ ?_ ?_)
      · exact haff
      · exact fun _ => id
      · exact fun a ha => Std.ExtTreeSet.mem_union_iff.mpr (.inl ha)
      · exact fun _ => id
      · exact fun _ => id
      · exact fun a ha => Std.ExtTreeSet.mem_union_iff.mpr (.inr ha)
  | @redo cache kept failed e hnodup hkept hadd =>
      have hfresh : ∀ nt ∈ kept, nt.hash ∉ t.mempool.txs := fun nt hnt =>
        hd.fresh nt.hash (.inr (.inr (List.mem_map_of_mem ((hkept nt).mp hnt).1)))
      obtain ⟨again, emitted, heq, -⟩ := redoFromStart_eq { t with
        cache := cache
        txsDownloaded := kept
        txsFailedDownload := failed
        mempool := t.mempool.clear
        scriptHashesAffected := t.mempool.affectedAtThrow cfg.hashers (fun txo => cache[txo]?)
          t.scriptHashesAffected kept
        cleared := t.cleared ++ [t.mempool] }
      rw [heq]
      refine ⟨List.subset_append_left _ _, fun hall => ?_, fun _ g hg => ?_, fun mp hmp => ?_⟩
      · have hempty : t.mempool.txs.isEmpty = true := hall _ (by simp [clear])
        have hbefore := hcovers fun mp hmp => hall mp (List.mem_append_left _ hmp)
        refine (hbefore.mono ?_ ?_ ?_).trans (hi.covers_clear_of_empty hempty _ _ _)
        · exact fun sh hsh => mem_affectedAtThrow hi hnodup hfresh hsh
        · exact fun _ => id
        · exact fun _ => id
      · simp [SynchMempoolTask.clear, Mempool.clear] at hg
      · rcases List.mem_append.mp hmp with hmp | hmp
        · exact .inl hmp
        · refine .inr ?_
          rw [List.mem_singleton.mp hmp]
          by_cases hempty : t.mempool.txs.isEmpty = true
          · exact .inl hempty
          · -- a transaction was there at the start and is gone, and no set says so
            rw [Std.ExtTreeMap.isEmpty_iff] at hempty
            obtain ⟨g, hg⟩ := ne_empty_iff.mp hempty
            obtain ⟨hM, hno⟩ := hold g hg
            refine .inr fun hcov => ?_
            have hin := (hcov.txids g hno).mpr hM
            simp [SynchMempoolTask.clear, Mempool.clear] at hin

/-- A call of `process`. -/
theorem Noted.process (h : Noted M t.cleared t) (hi : TaskInv t) :
    Noted M t.cleared (process cfg ord t) := by
  have hcases : Process cfg t (SynchMempoolTask.process cfg ord t) :=
    process_cases hi.state_ne fun hst => (hi.downloading hst).nodup
  generalize SynchMempoolTask.process cfg ord t = t' at hcases
  cases hcases with
  | start hst => exact ⟨h.grows, h.covers, fun _ => h.old (by simp [hst]), h.lost⟩
  | idle _ => exact h
  | request _ _ => exact ⟨h.grows, h.covers, h.old, h.lost⟩
  | finish hst _ _ hfinish =>
      have hd := hi.downloading hst
      refine noted_finish (t := { t with state := .processingResults }) hi.indexed ?_ rfl
        h.covers (h.old (by simp [hst])) hfinish
      exact ⟨hd.fresh, hd.nodup, hd.noted, hd.once, hd.inFlight, hd.requests⟩

/-- The downloads begin. -/
theorem Noted.startDownloads (hi : Indexed t.mempool) (hq : .success ∉ t.emitted)
    (hd : Downloading t)
    (hcovers : (∀ mp ∈ t.cleared, mp.txs.isEmpty = true) → CoversSince M t)
    (hold : ∀ h ∈ t.mempool.txs, h ∈ M.txs ∧ h ∉ t.txidsAffected) (scan : Scan) :
    Noted M t.cleared (startDownloads cfg ord t scan) := by
  refine Noted.process (t := { t with
    expectedNumTxsDownloaded := scan.newCt % 2 ^ 32
    state := .dlTxs
    tentativeMempoolTxHashes := if scan.newCt % 2 ^ 32 ≠ 0 then scan.tentativeMempoolTxHashes
      else t.tentativeMempoolTxHashes })
    ⟨List.Subset.refl _, hcovers, fun _ => hold, fun _ => .inl⟩ ⟨hi, fun _ => hq, ?_⟩
  exact ⟨hd.fresh, hd.nodup, hd.noted, hd.once, hd.inFlight, hd.requests⟩

/-- The transactions that are not listed any more are dropped. -/
theorem Noted.drop (h : Noted M t.cleared t) (hi : TaskInv t)
    (hst : t.state = .awaitingGrmp) {gone : List TxHash}
    {r : Mempool × List TxHash × HashSet × MempoolStats}
    (hdrop : t.mempool.dropTxs ∅ gone = some r) :
    ((∀ mp ∈ t.cleared, mp.txs.isEmpty = true) →
      Covers (t.scriptHashesAffected ∪ r.2.2.1) (r.2.1.foldl (·.insert ·) t.txidsAffected)
        (t.dspTxsAffected ∪ r.2.2.2.dspTxsAffected) M r.1) ∧
      ∀ g ∈ r.1.txs, g ∈ M.txs ∧ g ∉ r.2.1.foldl (·.insert ·) t.txidsAffected := by
  obtain ⟨-, hcov⟩ := dropTxs_covers hi.indexed hdrop
  obtain ⟨-, hleft⟩ := mem_txs_dropTxs hi.indexed.keyed hdrop
  constructor
  · intro hall
    have hcov' := hcov (r.2.1.foldl (·.insert ·) t.txidsAffected)
      fun a ha => mem_foldl_insert.mpr (.inr ha)
    refine ((h.covers hall).mono ?_ ?_ ?_).trans (hcov'.mono ?_ ?_ ?_)
    · exact fun a ha => Std.ExtTreeSet.mem_union_iff.mpr (.inl ha)
    · exact fun a ha => mem_foldl_insert.mpr (.inl ha)
    · exact fun a ha => Std.ExtTreeSet.mem_union_iff.mpr (.inl ha)
    · exact fun a ha => Std.ExtTreeSet.mem_union_iff.mpr (.inr ha)
    · exact fun _ => id
    · exact fun a ha => Std.ExtTreeSet.mem_union_iff.mpr (.inr ha)
  · intro g hg
    obtain ⟨hmem, hgone⟩ := (hleft g).mp hg
    obtain ⟨hM, hno⟩ := h.old (by simp [hst]) g hmem
    refine ⟨hM, fun hin => ?_⟩
    exact (mem_foldl_insert.mp hin).elim hno hgone

/-- The reply to `getrawmempool`. -/
theorem Noted.onRawMempool (h : Noted M t.cleared t) (hi : TaskInv t)
    (hreq : .getrawmempool ∈ t.inFlight) {txids : List (Option TxHash)}
    (hnodup : (txids.filterMap id).Nodup) :
    Noted M t.cleared (onRawMempool cfg ord
      { t with inFlight := t.inFlight.erase .getrawmempool } txids) := by
  obtain ⟨hst, hclean, hf⟩ := hi.awaiting hreq
  have hq := hi.quiet (by simp [hst])
  have hold := h.old (by simp [hst])
  have hnil : t.inFlight.erase .getrawmempool = [] := by simp [hf]
  rw [hnil]
  have hlisted : Listed cfg ord { t with inFlight := [] } txids
      (SynchMempoolTask.onRawMempool cfg ord { t with inFlight := [] } txids) :=
    listed_onRawMempool (t := { t with inFlight := [] }) hi.indexed hclean.needing hnodup
  generalize SynchMempoolTask.onRawMempool cfg ord { t with inFlight := [] } txids = t' at hlisted
  cases hlisted with
  | invalid _ => exact ⟨h.grows, h.covers, h.old, h.lost⟩
  | @same scan needing hn hneed _ =>
      refine Noted.startDownloads (t := { t with inFlight := [], txsNeedingDownload := needing })
        hi.indexed hq (downloading_of_clean ?_ ?_ rfl hn ?_) h.covers hold scan
      · exact hclean.waiting
      · exact hclean.downloaded
      · exact fun g hg => ((hneed g).mp hg).2.1
  | @dropped scan needing gone r hn hneed hdrop hmem =>
      obtain ⟨hcov, hleft⟩ := h.drop hi hst hdrop
      refine Noted.startDownloads (t := { t with
        inFlight := []
        txsNeedingDownload := needing
        mempool := r.1
        txidsAffected := r.2.1.foldl (·.insert ·) t.txidsAffected
        scriptHashesAffected := t.scriptHashesAffected ∪ r.2.2.1
        dspTxsAffected := t.dspTxsAffected ∪ r.2.2.2.dspTxsAffected })
        (dropTxs_covers hi.indexed hdrop).1 hq (downloading_of_clean ?_ ?_ rfl hn ?_) hcov hleft
        scan
      · exact hclean.waiting
      · exact hclean.downloaded
      · exact fun g hg hin => ((hneed g).mp hg).2.1 ((hmem g).mp hin).1
  | @redo needing gone r hdrop =>
      obtain ⟨hcov, hleft⟩ := h.drop hi hst hdrop
      obtain ⟨again, emitted, heq, -⟩ := redoFromStart_eq { t with
        inFlight := []
        txsNeedingDownload := needing
        mempool := r.1
        txidsAffected := r.2.1.foldl (·.insert ·) t.txidsAffected
        scriptHashesAffected := t.scriptHashesAffected ∪ r.2.2.1
        dspTxsAffected := t.dspTxsAffected ∪ r.2.2.2.dspTxsAffected }
      rw [heq]
      exact ⟨List.Subset.refl _, hcov, fun _ => hleft, fun _ => .inl⟩

/-- A reply to `getrawtransaction`. -/
theorem Noted.onRawTransaction (h : Noted M t.cleared t) (hi : TaskInv t) {hash : TxHash}
    (hreq : .getrawtransaction hash ∈ t.inFlight) (reply : TxReply) :
    Noted M t.cleared (onRawTransaction cfg ord
      { t with inFlight := t.inFlight.erase (.getrawtransaction hash) } hash reply) := by
  have hst := hi.loading hreq
  have hd := hi.downloading hst
  have hq := hi.quiet (by simp [hst])
  obtain ⟨g, hwait, he⟩ := hd.inFlight _ hreq
  cases he
  have hfresh : hash ∉ t.mempool.txs := hd.fresh hash (.inr (.inl hwait))
  have hreplied : Replied cfg ord
      { t with inFlight := t.inFlight.erase (.getrawtransaction hash) } hash reply
      (SynchMempoolTask.onRawTransaction cfg ord
        { t with inFlight := t.inFlight.erase (.getrawtransaction hash) } hash reply) :=
    replied_onRawTransaction _ hash reply
  generalize SynchMempoolTask.onRawTransaction cfg ord
    { t with inFlight := t.inFlight.erase (.getrawtransaction hash) } hash reply = t' at hreplied
  cases hreplied with
  | unreadable => exact ⟨h.grows, h.covers, h.old, h.lost⟩
  | refused _ => exact ⟨h.grows, h.covers, h.old, h.lost⟩
  | ignored _ =>
      refine Noted.process (t := { t with
        inFlight := t.inFlight.erase (.getrawtransaction hash)
        txsIgnored := t.txsIgnored.insert hash
        txsWaitingForResponse := t.txsWaitingForResponse.erase hash })
        ⟨h.grows, h.covers, h.old, h.lost⟩ ⟨hi.indexed, fun _ => hq, phase_dlTxs hst ?_⟩
      exact hd.reply hash t.txsFailedDownload (t.txsIgnored.insert hash)
  | @downloaded nt _ he hnew =>
      subst he
      refine Noted.process (t := { t with
        inFlight := t.inFlight.erase (.getrawtransaction nt.hash)
        txsDownloaded := t.txsDownloaded ++ [nt]
        txidsAffected := t.txidsAffected.insert nt.hash
        txsWaitingForResponse := t.txsWaitingForResponse.erase nt.hash })
        ⟨h.grows, fun hall => ?_, fun hs g hg => ?_, fun _ => .inl⟩
        ⟨hi.indexed, fun _ => hq, phase_dlTxs hst ?_⟩
      · refine (h.covers hall).mono (fun _ => id) ?_ fun _ => id
        exact fun a ha => mem_set_insert.mpr (.inr ha)
      · obtain ⟨hM, hno⟩ := h.old hs g hg
        refine ⟨hM, fun hin => ?_⟩
        rcases mem_set_insert.mp hin with rfl | hin
        · exact hfresh hg
        · exact hno hin
      · exact (hd.reply nt.hash t.txsFailedDownload t.txsIgnored).addTx hfresh hnew
  | failed =>
      refine Noted.process (t := { t with
        inFlight := t.inFlight.erase (.getrawtransaction hash)
        txsFailedDownload := t.txsFailedDownload.insert hash
        txsWaitingForResponse := t.txsWaitingForResponse.erase hash })
        ⟨h.grows, h.covers, h.old, h.lost⟩ ⟨hi.indexed, fun _ => hq, phase_dlTxs hst ?_⟩
      exact hd.reply hash (t.txsFailedDownload.insert hash) t.txsIgnored
  | tooMany => exact ⟨h.grows, h.covers, h.old, h.lost⟩

/-- Every event. -/
theorem Noted.handle (h : Noted M t.cleared t) (hi : TaskInv t) {e : Event}
    (he : Enabled t e) : Noted M t.cleared (handle cfg ord t e) := by
  cases e with
  | again =>
      exact Noted.process (t := { t with again := false }) ⟨h.grows, h.covers, h.old, h.lost⟩
        hi.setAgain
  | rawMempool txids => exact h.onRawMempool hi he.1 he.2
  | rawMempoolError => exact ⟨h.grows, h.covers, h.old, h.lost⟩
  | rawTransaction hash reply => exact h.onRawTransaction hi he reply

/-! ## Runs -/

/-- The sets cover every change in all states of a run. -/
def CoversAlong (cfg : Config) (M : Mempool) (es : List Event) (t : SynchMempoolTask) : Prop :=
  ∀ (es₁ es₂ : List Event) (u : SynchMempoolTask), es = es₁ ++ es₂ →
    Run cfg { mempool := M } es₁ u → Run cfg u es₂ t → CoversSince M u

theorem noted_of_run (hM : Indexed M) {es : List Event} (hrun : Run cfg { mempool := M } es t) :
    Noted M t.cleared t := by
  induction hrun with
  | nil => exact noted_start M
  | snoc ord hrun he ih => exact (ih.handle (taskInv_of_run (taskInv_start hM) hrun) he).self

/-- The mempools that were cleared are not forgotten. -/
theorem cleared_subset_of_run (hM : Indexed M) {es₁ es₂ : List Event}
    (h₁ : Run cfg { mempool := M } es₁ t) (h₂ : Run cfg t es₂ t') : t.cleared ⊆ t'.cleared := by
  have hinv : TaskInv t ∧ Noted M t.cleared t :=
    ⟨taskInv_of_run (taskInv_start hM) h₁, noted_of_run hM h₁⟩
  suffices hgen : TaskInv t' ∧ Noted M t'.cleared t' ∧ t.cleared ⊆ t'.cleared from hgen.2.2
  induction h₂ with
  | nil => exact ⟨hinv.1, hinv.2, List.Subset.refl _⟩
  | @snoc es u e ord _ he ih =>
      obtain ⟨hi, hn, hsub⟩ := ih
      have hstep : Noted M u.cleared (SynchMempoolTask.handle cfg ord u e) := hn.handle hi he
      exact ⟨hi.handle he, hstep.self, List.Subset.trans hsub hstep.grows⟩

/-- A run that cleared a mempool with transactions has lost a change. -/
theorem exists_lost (hM : Indexed M) {es : List Event} (hrun : Run cfg { mempool := M } es t)
    {mp : Mempool} (hmp : mp ∈ t.cleared) (hne : mp.txs.isEmpty = false) :
    ∃ (es₁ es₂ : List Event) (u : SynchMempoolTask), es = es₁ ++ es₂ ∧
      Run cfg { mempool := M } es₁ u ∧ Run cfg u es₂ t ∧ ¬ CoversSince M u := by
  induction hrun with
  | nil => cases hmp
  | @snoc es t e ord hrun he ih =>
      have hstep : Noted M t.cleared (SynchMempoolTask.handle cfg ord t e) :=
        (noted_of_run hM hrun).handle (taskInv_of_run (taskInv_start hM) hrun) he
      rcases hstep.lost mp hmp with hbefore | hempty | hlost
      · obtain ⟨es₁, es₂, u, rfl, h₁, h₂, hu⟩ := ih hbefore
        exact ⟨es₁, es₂ ++ [e], u, by simp, h₁, h₂.snoc ord he, hu⟩
      · rw [hne] at hempty
        cases hempty
      · exact ⟨es ++ [e], [], _, by simp, hrun.snoc ord he, .nil, hlost⟩

/--
The sets of the task cover every change in all states of a run if and only if no
`ConsistencyError` finds transactions in the mempool.
-/
theorem synch_notifies_iff (hM : Indexed M) {es : List Event}
    (hrun : Run cfg { mempool := M } es t) :
    CoversAlong cfg M es t ↔ ∀ mp ∈ t.cleared, mp.txs.isEmpty = true := by
  constructor
  · intro hall mp hmp
    by_contra hne
    rw [Bool.not_eq_true] at hne
    obtain ⟨es₁, es₂, u, hes, h₁, h₂, hu⟩ := exists_lost hM hrun hmp hne
    exact hu (hall es₁ es₂ u hes h₁ h₂)
  · rintro hempty es₁ es₂ u rfl h₁ h₂
    refine (noted_of_run hM h₁).covers fun mp hmp => ?_
    exact hempty mp (cleared_subset_of_run hM h₁ h₂ hmp)

/-! ## A notification that is lost -/

/-- The script hash of `OP_2`. -/
def opTwoHashX : HashX := 0xac41cf8c00321ed97e8352cd543e19a5c1467fe0bc56f7fd95f963208974258c

/-- Hash functions with the right values for `OP_TRUE` and `OP_2`. -/
def twoScriptHashers : Hashers :=
  { opTrueHashers with
    hashXFromCScript := fun script => if script = [0x52] then opTwoHashX else opTrueHashX }

/-- A transaction that spends a confirmed output of `OP_2`, and pays to `OP_2`. -/
def aloneTx : NewTx :=
  { ctx := { hash := 3, vin := [{ prevout := ⟨9, 1⟩ }]
             vout := [{ nValue := 4000, scriptPubKey := [0x52] }] }
    sizeBytes := 100
    vsizeBytes := 100 }

/-- A node with a confirmed output of each script. -/
def twoScriptConfig : Config where
  hashers := twoScriptHashers
  isMimble := false
  maxDLBacklogSize := 10
  txnIgnoreSet := ∅
  utxoGetFromDB txo :=
    if txo = ⟨9, 1⟩ then
      some { amount := 5000, hashX := opTwoHashX, confirmedHeight := some 3, txNum := 4,
             tokenDataPtr := none }
    else oneOutput txo

/-- A task that finds `parentTx` and `aloneTx`. -/
def firstSynch : List Event :=
  [.again, .rawMempool ([1, 3].map some), .rawTransaction 1 (.tx parentTx),
   .rawTransaction 3 (.tx aloneTx)]

/-- The mempool it leaves. -/
def twoTxMempool : Mempool := (runFrom twoScriptConfig { mempool := {} } firstSynch).mempool

/--
The next task finds `childTx` instead of its parent, clears the mempool, and finds
an empty mempool when it starts over.
-/
def secondSynch : List Event :=
  [.again, .rawMempool ([2, 3].map some), .rawTransaction 2 (.tx childTx), .again,
   .rawMempool []]

theorem indexed_twoTxMempool : Indexed twoTxMempool := by
  have hall : EnabledAll twoScriptConfig { mempool := {} } firstSynch := by decide
  exact (taskInv_of_run (taskInv_start (indexed_clear {})) (run_runFrom hall)).indexed

/-- `aloneTx` is gone, and neither its txid nor its script hash is notified. -/
theorem synch_loses_notification : ∃ t : SynchMempoolTask,
    Indexed twoTxMempool ∧ Run twoScriptConfig { mempool := twoTxMempool } secondSynch t ∧
      .success ∈ t.emitted ∧
      (3 ∈ twoTxMempool.txs ∧ 3 ∉ t.mempool.txs ∧ 3 ∉ t.txidsAffected) ∧
      (t.mempool.history opTwoHashX ≠ twoTxMempool.history opTwoHashX ∧
        opTwoHashX ∉ t.scriptHashesAffected) ∧
      ¬ CoversSince twoTxMempool t := by
  have hall : EnabledAll twoScriptConfig { mempool := twoTxMempool } secondSynch := by decide
  have hgone : (3 : TxHash) ∉ (runFrom twoScriptConfig { mempool := twoTxMempool }
      secondSynch).mempool.txs := by decide
  have hsilent : (3 : TxHash) ∉ (runFrom twoScriptConfig { mempool := twoTxMempool }
      secondSynch).txidsAffected := by decide
  have hwas : (3 : TxHash) ∈ twoTxMempool.txs := by decide
  refine ⟨_, indexed_twoTxMempool, run_runFrom hall, by decide, ⟨hwas, hgone, hsilent⟩,
    ⟨by decide, by decide⟩, fun hcov => ?_⟩
  exact hgone ((hcov.txids 3 hsilent).mpr hwas)

/-- The condition fails in this run, and holds in the run before it. -/
theorem synch_notifies_iff_twoTx :
    (CoversAlong twoScriptConfig {} firstSynch
        (runFrom twoScriptConfig { mempool := {} } firstSynch) ∧
      ¬ CoversAlong twoScriptConfig twoTxMempool secondSynch
        (runFrom twoScriptConfig { mempool := twoTxMempool } secondSynch)) := by
  have hfirst : EnabledAll twoScriptConfig { mempool := {} } firstSynch := by decide
  have hsecond : EnabledAll twoScriptConfig { mempool := twoTxMempool } secondSynch := by decide
  constructor
  · exact (synch_notifies_iff (indexed_clear {}) (run_runFrom hfirst)).mpr (by decide)
  · rw [synch_notifies_iff indexed_twoTxMempool (run_runFrom hsecond)]
    decide

end SynchMempoolTask
end SynchMempool
end Shulcrum
