import Shulcrum.Controller.SynchMempool
import Shulcrum.Mempool.AddFrame
import Shulcrum.Mempool.DropFrame

/-!
# Runs of the mempool synch task

What every handler does is said once: `process_cases` and `Finish` for the
scheduled calls and the end of a pass, `Scanned` for the loop over the listed
txids.  `TaskInv` ties the requests in flight and the downloads to the state of
the task, and holds in every run.

**Results.**
* `pruneFailedParents_spec`: the failed-parent loop ends with the transactions
  that have no failed or ignored ancestor among the downloaded ones.
* `taskInv_of_run`: the invariant of the runs.
-/

namespace Shulcrum
namespace SynchMempool

open BTC TreeMap Mempool Sweep

namespace SynchMempoolTask

variable {cfg : Config} {ord : Orders} {t : SynchMempoolTask}

/-! ## The failed-parent loop -/

/-- A downloaded transaction has a failed or ignored parent, through downloaded ones. -/
abbrev HasFailedParent (failed ignored : HashSet) (downloaded : List NewTx) : NewTx → Prop :=
  Tainted NewTx.hash prevTxIds (fun h => h ∈ failed ∨ h ∈ ignored) downloaded

/-- The loop ends for every order of the downloads, with the ones that have no failed parent. -/
theorem pruneFailedParents_spec (downloaded : List NewTx) (failed ignored : HashSet) :
    ∃ r, pruneFailedParents downloaded failed ignored = some r ∧ r.1.Sublist downloaded ∧
      ∀ nt, nt ∈ r.1 ↔ nt ∈ downloaded ∧ ¬ HasFailedParent failed ignored downloaded nt := by
  unfold pruneFailedParents
  split_ifs with hnone
  · obtain ⟨hfailed, hignored⟩ := hnone
    rw [Std.ExtTreeSet.isEmpty_iff] at hfailed hignored
    have hno : ∀ nt, ¬ HasFailedParent failed ignored downloaded nt := by
      intro nt htaint
      induction htaint with
      | start _ _ hs => simp [hfailed, hignored] at hs
      | through _ _ _ ih => exact ih
    exact ⟨_, rfl, List.Sublist.refl _, fun nt => (and_iff_left (hno nt)).symm⟩
  · obtain ⟨r, hr⟩ : ∃ r, sweeps NewTx.hash prevTxIds (fun h => decide (h ∈ ignored))
        (downloaded.length + 1) downloaded failed = some r :=
      sweeps_total (Nat.lt_succ_self downloaded.length)
    obtain ⟨hsub, hmem⟩ := mem_sweeps hr
    refine ⟨r, hr, hsub, fun nt => ?_⟩
    rw [hmem]
    simp only [decide_eq_true_eq]

/-! ## The end of a pass -/

/-- The ways a pass ends once all replies are there. -/
inductive Finish (cfg : Config) (t : SynchMempoolTask) : SynchMempoolTask → Prop
  | errored : Finish cfg t (t.emit .errored)
  | success {cache : Std.ExtTreeMap TXO TXOInfo compare} {kept : List NewTx} {failed : HashSet}
      {r : Mempool × HashSet × MempoolStats} :
      (kept.map NewTx.hash).Nodup →
      (∀ nt, nt ∈ kept ↔ nt ∈ t.txsDownloaded ∧
        ¬ HasFailedParent t.txsFailedDownload t.txsIgnored t.txsDownloaded nt) →
      addNewTxs cfg.hashers (fun txo => cache[txo]?) t.mempool t.scriptHashesAffected kept =
        .ok r →
      Finish cfg t ({ t with
        cache := cache
        txsDownloaded := kept
        txsFailedDownload := failed
        mempool := r.1
        scriptHashesAffected := r.2.1
        dspTxsAffected := t.dspTxsAffected ∪ r.2.2.dspTxsAffected }.emit .success)
  | redo {cache : Std.ExtTreeMap TXO TXOInfo compare} {kept : List NewTx} {failed : HashSet}
      {e : ConsistencyError} :
      (kept.map NewTx.hash).Nodup →
      (∀ nt, nt ∈ kept ↔ nt ∈ t.txsDownloaded ∧
        ¬ HasFailedParent t.txsFailedDownload t.txsIgnored t.txsDownloaded nt) →
      addNewTxs cfg.hashers (fun txo => cache[txo]?) t.mempool t.scriptHashesAffected kept =
        .error e →
      Finish cfg t { t with
        cache := cache
        txsDownloaded := kept
        txsFailedDownload := failed
        mempool := t.mempool.clear
        scriptHashesAffected := t.mempool.affectedAtThrow cfg.hashers (fun txo => cache[txo]?)
          t.scriptHashesAffected kept
        cleared := t.cleared ++ [t.mempool] }.redoFromStart

theorem HasFailedParent.mono {failed ignored : HashSet} {xs ys : List NewTx}
    (h : ∀ x, x ∈ xs → x ∈ ys) {nt : NewTx} (ht : HasFailedParent failed ignored xs nt) :
    HasFailedParent failed ignored ys nt := by
  induction ht with
  | start hx hk hs => exact .start (h _ hx) hk hs
  | through hx hk _ ih => exact .through (h _ hx) hk ih

theorem finish_processResults (hnodup : (t.txsDownloaded.map NewTx.hash).Nodup) :
    Finish cfg t (processResults cfg ord t) := by
  unfold processResults
  by_cases htotal : t.txsDownloaded.length + t.txsFailedDownload.size + t.txsIgnored.size ≠
      t.expectedNumTxsDownloaded
  · rw [if_pos htotal]
    exact .errored
  · rw [if_neg htotal]
    split
    · exact .errored
    · rename_i cache _
      have hperm := ord.txs_perm t.txsDownloaded
      obtain ⟨⟨kept, failed⟩, hprune, hsub, hmem⟩ := pruneFailedParents_spec
        (ord.txs t.txsDownloaded) t.txsFailedDownload t.txsIgnored
      rw [hprune]
      dsimp only at hsub hmem ⊢
      have hkept : (kept.map NewTx.hash).Nodup :=
        ((hperm.map NewTx.hash).nodup_iff.mpr hnodup).sublist (hsub.map NewTx.hash)
      have hmem' : ∀ nt, nt ∈ kept ↔ nt ∈ t.txsDownloaded ∧
          ¬ HasFailedParent t.txsFailedDownload t.txsIgnored t.txsDownloaded nt := by
        intro nt
        rw [hmem, hperm.mem_iff]
        refine and_congr_right fun _ => not_congr ⟨?_, ?_⟩
        · exact HasFailedParent.mono fun x hx => hperm.mem_iff.mp hx
        · exact HasFailedParent.mono fun x hx => hperm.mem_iff.mpr hx
      unfold addDownloaded
      dsimp only
      cases hadd : addNewTxs cfg.hashers (fun txo => cache[txo]?) t.mempool
          t.scriptHashesAffected kept with
      | error e => exact .redo hkept hmem' hadd
      | ok r => exact .success hkept hmem' hadd

/-- What a call of `process` does. -/
inductive Process (cfg : Config) (t : SynchMempoolTask) : SynchMempoolTask → Prop
  | start : t.state = .start →
      Process cfg t { t with state := .awaitingGrmp, inFlight := t.inFlight ++ [.getrawmempool] }
  | idle : t.state ≠ .start → Process cfg t t
  | request (n : Nat) : t.state = .dlTxs →
      Process cfg t { t with
        txsNeedingDownload := t.txsNeedingDownload.drop n
        txsWaitingForResponse := t.txsWaitingForResponse ++ t.txsNeedingDownload.take n
        inFlight := t.inFlight ++
          (t.txsNeedingDownload.take n).map Request.getrawtransaction }
  | finish {t' : SynchMempoolTask} : t.state = .dlTxs → t.txsNeedingDownload = [] →
      t.txsWaitingForResponse = [] →
      Finish cfg { t with state := .processingResults } t' → Process cfg t t'

theorem process_cases (hstate : t.state ≠ .finishedDlTxs)
    (hnodup : t.state = .dlTxs → (t.txsDownloaded.map NewTx.hash).Nodup) :
    Process cfg t (process cfg ord t) := by
  cases hs : t.state with
  | start =>
      simp only [process, hs]
      exact .start hs
  | awaitingGrmp =>
      simp only [process, hs]
      exact .idle (by simp [hs])
  | dlTxs =>
      simp only [process, hs]
      split_ifs with hneed hwait
      · unfold doDLNextTx
        split_ifs
        · exact .idle (by simp [hs])
        · exact .request _ hs
      · exact .finish hs (not_not.mp hneed) hwait (finish_processResults (hnodup hs))
      · exact .idle (by simp [hs])
  | finishedDlTxs => exact absurd hs hstate
  | processingResults =>
      simp only [process, hs]
      exact .idle (by simp [hs])

/-! ## The listed txids -/

/-- What the loop over the reply to `getrawmempool` does. -/
structure Scanned (cfg : Config) (s : Scan) (txids : List (Option TxHash)) (s' : Scan) : Prop where
  dropped : ∀ h, h ∈ s'.droppedTxs ↔ h ∈ s.droppedTxs ∧ some h ∉ txids
  needing : ∀ h, h ∈ s'.txsNeedingDownload ↔ h ∈ s.txsNeedingDownload ∨
    (some h ∈ txids ∧ h ∉ s.droppedTxs ∧ h ∉ cfg.txnIgnoreSet)
  nodup : s.txsNeedingDownload.Nodup → s'.txsNeedingDownload.Nodup

theorem scanned_scanTxid (s : Scan) (hash : TxHash) :
    Scanned cfg s [some hash] (scanTxid cfg s hash) := by
  unfold scanTxid
  split_ifs with hdrop hignore hold
  · refine ⟨fun h => ?_, fun h => ?_, id⟩
    · have hmem : h ∈ s.droppedTxs.erase hash ↔ h ≠ hash ∧ h ∈ s.droppedTxs := mem_set_erase
      rw [hmem]
      simp [and_comm]
    · simp only [List.mem_singleton, Option.some.injEq, iff_self_or]
      rintro ⟨rfl, hn, -⟩
      exact absurd hdrop hn
  · refine ⟨fun h => ?_, fun h => ?_, id⟩
    · simp only [List.mem_singleton, Option.some.injEq, iff_self_and]
      rintro hh rfl
      exact hdrop hh
    · simp only [List.mem_singleton, Option.some.injEq, iff_self_or]
      rintro ⟨rfl, -, hn⟩
      exact absurd hignore hn
  · refine ⟨fun h => ?_, fun h => ?_, id⟩
    · simp only [List.mem_singleton, Option.some.injEq, iff_self_and]
      rintro hh rfl
      exact hdrop hh
    · simp only [List.mem_singleton, Option.some.injEq, iff_self_or]
      rintro ⟨rfl, -⟩
      exact hold
  · refine ⟨fun h => ?_, fun h => ?_, fun hn => ?_⟩
    · simp only [List.mem_singleton, Option.some.injEq, iff_self_and]
      rintro hh rfl
      exact hdrop hh
    · simp only [List.mem_append, List.mem_singleton, Option.some.injEq]
      refine or_congr_right ⟨?_, fun hh => hh.1⟩
      rintro rfl
      exact ⟨rfl, hdrop, hignore⟩
    · exact hn.append (List.nodup_singleton hash) (by simpa using hold)

/-- The loop over a valid reply that lists every txid once. -/
theorem scanned_scanTxids {s s' : Scan} {txids : List (Option TxHash)}
    (hnodup : (txids.filterMap id).Nodup) (h : scanTxids cfg s txids = (s', true)) :
    Scanned cfg s txids s' := by
  induction txids generalizing s with
  | nil =>
      cases h
      exact ⟨fun h => by simp, fun h => by simp, id⟩
  | cons txid txids ih =>
      cases txid with
      | none => simp [scanTxids] at h
      | some hash =>
          rw [List.filterMap_cons_some (by rfl : id (some hash) = some hash),
            List.nodup_cons] at hnodup
          have hnot : some hash ∉ txids := by
            intro hmem
            exact hnodup.1 (List.mem_filterMap.mpr ⟨some hash, hmem, rfl⟩)
          have hone : Scanned cfg s [some hash] (scanTxid cfg s hash) := scanned_scanTxid s hash
          have hrest := ih hnodup.2 h
          refine ⟨fun g => ?_, fun g => ?_, fun hn => hrest.nodup (hone.nodup hn)⟩
          · rw [hrest.dropped, hone.dropped, List.mem_singleton, List.mem_cons, not_or, and_assoc]
          · rw [hrest.needing, hone.needing, hone.dropped, List.mem_singleton, List.mem_cons]
            constructor
            · rintro ((hg | ⟨hg, hrest⟩) | ⟨hg, hn, hi⟩)
              · exact .inl hg
              · exact .inr ⟨.inl hg, hrest⟩
              · refine .inr ⟨.inr hg, fun hd => hn ⟨hd, ?_⟩, hi⟩
                rintro he
                exact hnot (he ▸ hg)
            · rintro (hg | ⟨hg | hg, hn, hi⟩)
              · exact .inl (.inl hg)
              · exact .inl (.inr ⟨hg, hn, hi⟩)
              · exact .inr ⟨hg, fun hd => hn hd.1, hi⟩

/-- The loop ends early only at an item that is not a tx hash. -/
theorem none_mem_of_scanTxids {s s' : Scan} {txids : List (Option TxHash)}
    (h : scanTxids cfg s txids = (s', false)) : none ∈ txids := by
  induction txids generalizing s with
  | nil => cases h
  | cons txid txids ih =>
      cases txid with
      | none => exact List.mem_cons_self
      | some hash => exact List.mem_cons_of_mem _ (ih h)

/-! ## The invariant -/

/-- Nothing is left of an earlier pass. -/
structure Clean (t : SynchMempoolTask) : Prop where
  needing : t.txsNeedingDownload = []
  waiting : t.txsWaitingForResponse = []
  downloaded : t.txsDownloaded = []
  failed : t.txsFailedDownload = ∅
  ignored : t.txsIgnored = ∅

/-- The downloads of a pass. -/
structure Downloading (t : SynchMempoolTask) : Prop where
  fresh : ∀ h, h ∈ t.txsNeedingDownload ∨ h ∈ t.txsWaitingForResponse ∨
    h ∈ t.txsDownloaded.map NewTx.hash → h ∉ t.mempool.txs
  nodup : (t.txsDownloaded.map NewTx.hash).Nodup
  noted : ∀ h ∈ t.txsDownloaded.map NewTx.hash, h ∈ t.txidsAffected
  once : t.txsNeedingDownload.Nodup ∧ ∀ h ∈ t.txsNeedingDownload, h ∉ t.txsWaitingForResponse
  inFlight : ∀ r ∈ t.inFlight, ∃ h ∈ t.txsWaitingForResponse, r = .getrawtransaction h
  requests : t.inFlight.Nodup

/-- What the state of the task says. -/
def Phase (t : SynchMempoolTask) : Prop :=
  match t.state with
  | .start => Clean t ∧ t.inFlight = []
  | .awaitingGrmp => t.inFlight = [] ∨ (Clean t ∧ t.inFlight = [.getrawmempool])
  | .dlTxs => Downloading t
  | .finishedDlTxs => False
  | .processingResults => t.inFlight = []

/-- The invariant of the runs. -/
structure TaskInv (t : SynchMempoolTask) : Prop where
  indexed : Indexed t.mempool
  quiet : t.state ≠ .processingResults → .success ∉ t.emitted
  phase : Phase t

theorem phase_dlTxs {t : SynchMempoolTask} (hst : t.state = .dlTxs) (h : Downloading t) :
    Phase t := by
  simp only [Phase, hst]
  exact h

theorem phase_processingResults {t : SynchMempoolTask} (hst : t.state = .processingResults)
    (h : t.inFlight = []) : Phase t := by
  simp only [Phase, hst]
  exact h

theorem taskInv_start {M : Mempool} (hM : Indexed M) : TaskInv { mempool := M } :=
  ⟨hM, fun _ => by simp, ⟨rfl, rfl, rfl, rfl, rfl⟩, rfl⟩

theorem mem_emitted_emit {t : SynchMempoolTask} :
    .success ∈ (t.emit .errored).emitted ↔ .success ∈ t.emitted := by
  simp [emit]

/-- What `redoFromStart` leaves. -/
theorem redoFromStart_eq (t : SynchMempoolTask) : ∃ again emitted,
    t.redoFromStart =
      { t.clear with redoCt := t.redoCt + 1, again := again, emitted := emitted } ∧
      (.success ∈ emitted ↔ .success ∈ t.emitted) := by
  unfold redoFromStart
  dsimp only
  split_ifs
  · exact ⟨t.again, t.emitted ++ [.errored], rfl, by simp⟩
  · exact ⟨true, t.emitted, rfl, Iff.rfl⟩

theorem TaskInv.redoFromStart {t : SynchMempoolTask} (hi : Indexed t.mempool)
    (hq : .success ∉ t.emitted) (hf : t.inFlight = []) : TaskInv t.redoFromStart := by
  obtain ⟨again, emitted, heq, hem⟩ := redoFromStart_eq t
  rw [heq]
  exact ⟨hi, fun _ hs => hq (hem.mp hs), ⟨rfl, rfl, rfl, rfl, rfl⟩, hf⟩

theorem Downloading.inFlight_nil {t : SynchMempoolTask} (h : Downloading t)
    (hwait : t.txsWaitingForResponse = []) : t.inFlight = [] := by
  rw [List.eq_nil_iff_forall_not_mem]
  intro r hr
  obtain ⟨g, hg, -⟩ := h.inFlight r hr
  rw [hwait] at hg
  cases hg

theorem TaskInv.finish {t t' : SynchMempoolTask} (hi : Indexed t.mempool)
    (hq : .success ∉ t.emitted) (hd : Downloading t) (hwait : t.txsWaitingForResponse = [])
    (hstate : t.state = .processingResults) (h : Finish cfg t t') : TaskInv t' := by
  have hf := hd.inFlight_nil hwait
  cases h with
  | errored =>
      exact ⟨hi, fun hs => absurd hstate hs, phase_processingResults hstate hf⟩
  | @success cache kept failed r hnodup hkept hadd =>
      have hfresh : ∀ nt ∈ kept, nt.hash ∉ t.mempool.txs := fun nt hnt =>
        hd.fresh nt.hash (.inr (.inr (List.mem_map_of_mem ((hkept nt).mp hnt).1)))
      obtain ⟨hindexed, -⟩ := addNewTxs_covers hi hnodup hfresh hadd
        (T := t.txidsAffected) fun nt hnt =>
          hd.noted nt.hash (List.mem_map_of_mem ((hkept nt).mp hnt).1)
      exact ⟨hindexed, fun hs => absurd hstate hs, phase_processingResults hstate hf⟩
  | redo _ _ _ => exact .redoFromStart (indexed_clear _) hq hf

theorem TaskInv.downloading {t : SynchMempoolTask} (h : TaskInv t) (hst : t.state = .dlTxs) :
    Downloading t := by
  have hphase := h.phase
  simpa only [Phase, hst] using hphase

theorem TaskInv.state_ne {t : SynchMempoolTask} (h : TaskInv t) : t.state ≠ .finishedDlTxs := by
  intro hst
  have hphase := h.phase
  simp only [Phase, hst] at hphase

/-- The backlog is filled with txids that were still to be downloaded. -/
theorem Downloading.request {t : SynchMempoolTask} (h : Downloading t) (n : Nat) :
    Downloading { t with
      txsNeedingDownload := t.txsNeedingDownload.drop n
      txsWaitingForResponse := t.txsWaitingForResponse ++ t.txsNeedingDownload.take n
      inFlight := t.inFlight ++
        (t.txsNeedingDownload.take n).map Request.getrawtransaction } := by
  obtain ⟨hneed, hdisj⟩ := h.once
  rw [← List.take_append_drop n t.txsNeedingDownload, List.nodup_append'] at hneed
  obtain ⟨htake, hdrop, hboth⟩ := hneed
  refine ⟨?_, h.nodup, h.noted, ⟨hdrop, ?_⟩, ?_, ?_⟩
  · rintro g (hg | hg | hg)
    · exact h.fresh g (.inl (List.mem_of_mem_drop hg))
    · rcases List.mem_append.mp hg with hg | hg
      · exact h.fresh g (.inr (.inl hg))
      · exact h.fresh g (.inl (List.mem_of_mem_take hg))
    · exact h.fresh g (.inr (.inr hg))
  · intro g hg hmem
    rcases List.mem_append.mp hmem with hmem | hmem
    · exact hdisj g (List.mem_of_mem_drop hg) hmem
    · exact hboth hmem hg
  · intro r hr
    rcases List.mem_append.mp hr with hr | hr
    · obtain ⟨g, hg, rfl⟩ := h.inFlight r hr
      exact ⟨g, List.mem_append_left _ hg, rfl⟩
    · obtain ⟨g, hg, rfl⟩ := List.mem_map.mp hr
      exact ⟨g, List.mem_append_right _ hg, rfl⟩
  · refine h.requests.append (htake.map fun a b he => by cases he; rfl) ?_
    intro r hr hr'
    obtain ⟨g, hg, rfl⟩ := h.inFlight r hr
    obtain ⟨g', hg', he⟩ := List.mem_map.mp hr'
    cases he
    exact hdisj g (List.mem_of_mem_take hg') hg

/-- A call of `process` keeps the invariant. -/
theorem TaskInv.process {t : SynchMempoolTask} (h : TaskInv t) :
    TaskInv (process cfg ord t) := by
  have hcases : Process cfg t (SynchMempoolTask.process cfg ord t) :=
    process_cases h.state_ne fun hst => (h.downloading hst).nodup
  generalize SynchMempoolTask.process cfg ord t = t' at hcases
  cases hcases with
  | start hst =>
      have hphase := h.phase
      simp only [Phase, hst] at hphase
      obtain ⟨hclean, hf⟩ := hphase
      refine ⟨h.indexed, fun _ => h.quiet (by simp [hst]), .inr ⟨?_, ?_⟩⟩
      · exact ⟨hclean.needing, hclean.waiting, hclean.downloaded, hclean.failed, hclean.ignored⟩
      · simp [hf]
  | idle => exact h
  | request n hst =>
      have hreq := (h.downloading hst).request n
      exact ⟨h.indexed, fun _ => h.quiet (by simp [hst]), phase_dlTxs hst hreq⟩
  | finish hst hneed hwait hfinish =>
      have hd := h.downloading hst
      refine TaskInv.finish (t := { t with state := .processingResults }) h.indexed
        (h.quiet (by simp [hst])) ?_ hwait rfl hfinish
      exact ⟨hd.fresh, hd.nodup, hd.noted, hd.once, hd.inFlight, hd.requests⟩

/-- The downloads begin. -/
theorem taskInv_startDownloads {t : SynchMempoolTask} (hi : Indexed t.mempool)
    (hq : .success ∉ t.emitted) (hd : Downloading t) (scan : Scan) :
    TaskInv (startDownloads cfg ord t scan) :=
  TaskInv.process ⟨hi, fun _ => hq,
    hd.fresh, hd.nodup, hd.noted, hd.once, hd.inFlight, hd.requests⟩

/-- The set of the txids of the mempool. -/
theorem mem_keys {mp : Mempool} {h : TxHash} :
    h ∈ mp.txs.keys.foldl (·.insert ·) (∅ : HashSet) ↔ h ∈ mp.txs := by
  rw [mem_foldl_insert, Std.ExtTreeMap.mem_keys]
  simp

/-- What the handler of a reply to `getrawmempool` does with a clean task. -/
inductive Listed (cfg : Config) (ord : Orders) (t : SynchMempoolTask)
    (txids : List (Option TxHash)) : SynchMempoolTask → Prop
  | invalid {needing : List TxHash} :
      none ∈ txids →
      Listed cfg ord t txids ({ t with txsNeedingDownload := needing }.emit .errored)
  | same {scan : Scan} {needing : List TxHash} :
      needing.Nodup →
      (∀ h, h ∈ needing ↔ some h ∈ txids ∧ h ∉ t.mempool.txs ∧ h ∉ cfg.txnIgnoreSet) →
      (∀ h ∈ t.mempool.txs, some h ∈ txids) →
      Listed cfg ord t txids
        (startDownloads cfg ord { t with txsNeedingDownload := needing } scan)
  | dropped {scan : Scan} {needing gone : List TxHash}
      {r : Mempool × List TxHash × HashSet × MempoolStats} :
      needing.Nodup →
      (∀ h, h ∈ needing ↔ some h ∈ txids ∧ h ∉ t.mempool.txs ∧ h ∉ cfg.txnIgnoreSet) →
      t.mempool.dropTxs ∅ gone = some r →
      (∀ h, h ∈ r.1.txs ↔ h ∈ t.mempool.txs ∧ some h ∈ txids) →
      Listed cfg ord t txids (startDownloads cfg ord { t with
        txsNeedingDownload := needing
        mempool := r.1
        txidsAffected := r.2.1.foldl (·.insert ·) t.txidsAffected
        scriptHashesAffected := t.scriptHashesAffected ∪ r.2.2.1
        dspTxsAffected := t.dspTxsAffected ∪ r.2.2.2.dspTxsAffected } scan)
  | redo {needing gone : List TxHash} {r : Mempool × List TxHash × HashSet × MempoolStats} :
      t.mempool.dropTxs ∅ gone = some r →
      Listed cfg ord t txids { t with
        txsNeedingDownload := needing
        mempool := r.1
        txidsAffected := r.2.1.foldl (·.insert ·) t.txidsAffected
        scriptHashesAffected := t.scriptHashesAffected ∪ r.2.2.1
        dspTxsAffected := t.dspTxsAffected ∪ r.2.2.2.dspTxsAffected }.redoFromStart

/-- If as many transactions are gone as were to be dropped, no other one is gone. -/
theorem mem_of_exact_drop {txs txs' : TxMap} {D : HashSet} (hsub : ∀ h ∈ txs', h ∈ txs)
    (hD : ∀ h ∈ D, h ∈ txs ∧ h ∉ txs') (hsize : txs.size - txs'.size = D.size) (h : TxHash) :
    h ∈ txs' ↔ h ∈ txs ∧ h ∉ D := by
  let K : Finset TxHash := txs.keys.toFinset
  let K' : Finset TxHash := txs'.keys.toFinset
  have hK : ∀ g, g ∈ K ↔ g ∈ txs := fun g => by simp [K]
  have hK' : ∀ g, g ∈ K' ↔ g ∈ txs' := fun g => by simp [K']
  have hcard : ∀ m : TxMap, m.keys.toFinset.card = m.size := by
    intro m
    rw [List.toFinset_card_of_nodup, Std.ExtTreeMap.length_keys]
    exact m.distinct_keys.imp Std.ReflCmp.ne_of_cmp_ne_eq
  have hDcard : D.toList.toFinset.card = D.size := by
    rw [List.toFinset_card_of_nodup (nodup_set_toList D), Std.ExtTreeSet.length_toList]
  have hKK : K' ⊆ K := fun g hg => (hK g).mpr (hsub g ((hK' g).mp hg))
  have hDsub : D.toList.toFinset ⊆ K \ K' := by
    intro g hg
    rw [List.mem_toFinset, Std.ExtTreeSet.mem_toList] at hg
    rw [Finset.mem_sdiff, hK, hK']
    exact hD g hg
  have hDeq : D.toList.toFinset = K \ K' := by
    refine Finset.eq_of_subset_of_card_le hDsub ?_
    rw [Finset.card_sdiff_of_subset hKK, hDcard, hcard, hcard]
    exact hsize.le
  have hiff : h ∈ D ↔ h ∈ txs ∧ h ∉ txs' := by
    rw [← Std.ExtTreeSet.mem_toList, ← List.mem_toFinset, hDeq, Finset.mem_sdiff, hK, hK']
  have := hsub h
  tauto

theorem listed_onRawMempool {t : SynchMempoolTask} (hi : Indexed t.mempool)
    (hneed : t.txsNeedingDownload = []) {txids : List (Option TxHash)}
    (hnodup : (txids.filterMap id).Nodup) :
    Listed cfg ord t txids (onRawMempool cfg ord t txids) := by
  unfold onRawMempool
  generalize hkeys : t.mempool.txs.keys.foldl (·.insert ·) (∅ : HashSet) = keys
  have hmem : ∀ h, h ∈ keys ↔ h ∈ t.mempool.txs := fun h => by rw [← hkeys]; exact mem_keys
  dsimp only
  cases hscan : scanTxids cfg
      { droppedTxs := keys
        tentativeMempoolTxHashes := keys
        txsNeedingDownload := t.txsNeedingDownload } txids with
  | mk scan valid =>
      dsimp only
      cases valid with
      | false =>
          rw [Bool.not_false, if_pos rfl]
          exact .invalid (none_mem_of_scanTxids hscan)
      | true =>
          have h := scanned_scanTxids hnodup hscan
          rw [Bool.not_true, if_neg Bool.false_ne_true]
          have hperm := ord.txids_perm scan.txsNeedingDownload
          have hnd : (ord.txids scan.txsNeedingDownload).Nodup :=
            hperm.nodup_iff.mpr (h.nodup (by simp [hneed]))
          have hneeding : ∀ g, g ∈ ord.txids scan.txsNeedingDownload ↔
              some g ∈ txids ∧ g ∉ t.mempool.txs ∧ g ∉ cfg.txnIgnoreSet := by
            intro g
            rw [hperm.mem_iff, h.needing]
            simp [hneed, hmem]
          have hdropped : ∀ g, g ∈ scan.droppedTxs ↔ g ∈ t.mempool.txs ∧ some g ∉ txids := by
            intro g
            rw [h.dropped]
            simp [hmem]
          split_ifs with hempty
          · refine .same hnd hneeding ?_
            intro g hg
            by_contra hn
            have hin := (hdropped g).mpr ⟨hg, hn⟩
            rw [Std.ExtTreeSet.isEmpty_iff.mp hempty] at hin
            simp at hin
          · unfold dropUnlisted
            dsimp only
            cases hdrop : t.mempool.dropTxs ∅ (ord.txids scan.droppedTxs.toList) with
            | none =>
                obtain ⟨gone, hgone⟩ := descendants_total t.mempool.txs
                  (ord.txids scan.droppedTxs.toList)
                obtain ⟨r, hr, -⟩ := dropTxs_of_grow hgone ∅
                rw [hdrop] at hr
                cases hr
            | some r =>
                obtain ⟨mempool, droppedTxs, affected, res⟩ := r
                obtain ⟨s, -, -, -, -, -, hold, hnew⟩ := exists_of_dropTxs hdrop
                obtain ⟨hsub, hleft⟩ := mem_txs_dropTxs hi.keyed hdrop
                dsimp only at hold hnew hsub hleft ⊢
                split_ifs with hsize
                · exact .redo hdrop
                · refine .dropped hnd hneeding hdrop fun g => ?_
                  rw [not_not, hold, hnew] at hsize
                  dsimp only
                  rw [mem_of_exact_drop (fun g hg => ((hleft g).mp hg).1) ?_ hsize, hdropped]
                  · tauto
                  · intro g hg
                    refine ⟨((hdropped g).mp hg).1, fun hin => ((hleft g).mp hin).2 (hsub ?_)⟩
                    rw [(ord.txids_perm _).mem_iff, Std.ExtTreeSet.mem_toList]
                    exact hg

/-! ## Every event keeps the invariant -/

/-- Nothing is downloaded or waited for when the downloads begin. -/
theorem downloading_of_clean {t : SynchMempoolTask} (hwait : t.txsWaitingForResponse = [])
    (hdown : t.txsDownloaded = []) (hf : t.inFlight = []) (hnodup : t.txsNeedingDownload.Nodup)
    (hfresh : ∀ g ∈ t.txsNeedingDownload, g ∉ t.mempool.txs) : Downloading t := by
  refine ⟨?_, ?_, ?_, ⟨hnodup, ?_⟩, ?_, ?_⟩
  · rintro g (hg | hg | hg)
    · exact hfresh g hg
    · simp [hwait] at hg
    · simp [hdown] at hg
  · simp [hdown]
  · simp [hdown]
  · simp [hwait]
  · simp [hf]
  · simp [hf]

/-- A reply to `getrawmempool` finds a clean task. -/
theorem TaskInv.awaiting {t : SynchMempoolTask} (h : TaskInv t)
    (hreq : .getrawmempool ∈ t.inFlight) :
    t.state = .awaitingGrmp ∧ Clean t ∧ t.inFlight = [.getrawmempool] := by
  have hphase := h.phase
  unfold Phase at hphase
  split at hphase
  · rw [hphase.2] at hreq
    cases hreq
  · rename_i hst
    refine ⟨hst, hphase.resolve_left fun hnil => ?_⟩
    rw [hnil] at hreq
    cases hreq
  · obtain ⟨g, -, he⟩ := hphase.inFlight _ hreq
    cases he
  · exact hphase.elim
  · rw [hphase] at hreq
    cases hreq

/-- A reply to `getrawtransaction` finds a task that downloads. -/
theorem TaskInv.loading {t : SynchMempoolTask} (h : TaskInv t) {hash : TxHash}
    (hreq : .getrawtransaction hash ∈ t.inFlight) : t.state = .dlTxs := by
  have hphase := h.phase
  unfold Phase at hphase
  split at hphase
  · rw [hphase.2] at hreq
    cases hreq
  · rcases hphase with hnil | ⟨-, hone⟩
    · rw [hnil] at hreq
      cases hreq
    · rw [hone, List.mem_singleton] at hreq
      cases hreq
  · assumption
  · exact hphase.elim
  · rw [hphase] at hreq
    cases hreq

theorem TaskInv.onRawMempool {t : SynchMempoolTask} (h : TaskInv t)
    (hreq : .getrawmempool ∈ t.inFlight) {txids : List (Option TxHash)}
    (hnodup : (txids.filterMap id).Nodup) :
    TaskInv (onRawMempool cfg ord
      { t with inFlight := t.inFlight.erase .getrawmempool } txids) := by
  obtain ⟨hst, hclean, hf⟩ := h.awaiting hreq
  have hq := h.quiet (by simp [hst])
  have hnil : t.inFlight.erase .getrawmempool = [] := by simp [hf]
  rw [hnil]
  have hlisted : Listed cfg ord { t with inFlight := [] } txids
      (SynchMempoolTask.onRawMempool cfg ord { t with inFlight := [] } txids) :=
    listed_onRawMempool (t := { t with inFlight := [] }) h.indexed hclean.needing hnodup
  generalize SynchMempoolTask.onRawMempool cfg ord { t with inFlight := [] } txids = t' at hlisted
  cases hlisted with
  | invalid _ =>
      refine ⟨h.indexed, fun _ => mt mem_emitted_emit.mp hq, ?_⟩
      simp only [Phase, emit, hst]
      exact .inl trivial
  | same hn hneed _ =>
      refine taskInv_startDownloads ?_ ?_ (downloading_of_clean ?_ ?_ rfl hn ?_) _
      · exact h.indexed
      · exact hq
      · exact hclean.waiting
      · exact hclean.downloaded
      · exact fun g hg => ((hneed g).mp hg).2.1
  | @dropped scan needing gone r hn hneed hdrop hmem =>
      have hfresh : ∀ g ∈ needing, g ∉ r.1.txs :=
        fun g hg hin => ((hneed g).mp hg).2.1 ((hmem g).mp hin).1
      refine taskInv_startDownloads ?_ ?_ (downloading_of_clean ?_ ?_ rfl hn hfresh) _
      · exact (dropTxs_covers h.indexed hdrop).1
      · exact hq
      · exact hclean.waiting
      · exact hclean.downloaded
  | redo hdrop => exact .redoFromStart (dropTxs_covers h.indexed hdrop).1 hq rfl

/-- A reply to `getrawtransaction` is not waited for any more. -/
theorem Downloading.reply {t : SynchMempoolTask} (h : Downloading t) (hash : TxHash)
    (failed ignored : HashSet) :
    Downloading { t with
      txsFailedDownload := failed
      txsIgnored := ignored
      txsWaitingForResponse := t.txsWaitingForResponse.erase hash
      inFlight := t.inFlight.erase (.getrawtransaction hash) } := by
  refine ⟨?_, h.nodup, h.noted, ⟨h.once.1, ?_⟩, ?_, h.requests.erase _⟩
  · rintro g (hg | hg | hg)
    · exact h.fresh g (.inl hg)
    · exact h.fresh g (.inr (.inl (List.mem_of_mem_erase hg)))
    · exact h.fresh g (.inr (.inr hg))
  · exact fun g hg hmem => h.once.2 g hg (List.mem_of_mem_erase hmem)
  · intro r hr
    obtain ⟨hne, hr⟩ := (h.requests.mem_erase_iff).mp hr
    obtain ⟨g, hg, rfl⟩ := h.inFlight r hr
    refine ⟨g, (List.mem_erase_of_ne ?_).mpr hg, rfl⟩
    rintro rfl
    exact hne rfl

/-- A downloaded transaction is added. -/
theorem Downloading.addTx {t : SynchMempoolTask} (h : Downloading t) {nt : NewTx}
    (hfresh : nt.hash ∉ t.mempool.txs) (hnew : nt.hash ∉ t.txsDownloaded.map NewTx.hash) :
    Downloading { t with
      txsDownloaded := t.txsDownloaded ++ [nt]
      txidsAffected := t.txidsAffected.insert nt.hash } := by
  refine ⟨?_, ?_, ?_, h.once, h.inFlight, h.requests⟩
  · rintro g (hg | hg | hg)
    · exact h.fresh g (.inl hg)
    · exact h.fresh g (.inr (.inl hg))
    · rw [List.map_append, List.mem_append] at hg
      rcases hg with hg | hg
      · exact h.fresh g (.inr (.inr hg))
      · rw [List.map_singleton, List.mem_singleton] at hg
        exact hg ▸ hfresh
  · rw [List.map_append]
    refine h.nodup.append (List.nodup_singleton _) ?_
    intro g hg hg'
    rw [List.map_singleton, List.mem_singleton] at hg'
    exact hnew (hg' ▸ hg)
  · intro g hg
    rw [List.map_append, List.mem_append, List.map_singleton, List.mem_singleton] at hg
    rcases hg with hg | rfl
    · exact mem_set_insert.mpr (.inr (h.noted g hg))
    · exact mem_set_insert.mpr (.inl rfl)

/-- What the handlers of a reply to `getrawtransaction` do. -/
inductive Replied (cfg : Config) (ord : Orders) (t : SynchMempoolTask) (hash : TxHash) :
    TxReply → SynchMempoolTask → Prop
  | unreadable : Replied cfg ord t hash .unreadable (t.emit .errored)
  | refused {nt : NewTx} :
      mwebOnly cfg nt = false → Replied cfg ord t hash (.tx nt) (t.emit .errored)
  | ignored {nt : NewTx} : mwebOnly cfg nt = true →
      Replied cfg ord t hash (.tx nt) (process cfg ord { t with
        txsIgnored := t.txsIgnored.insert hash
        txsWaitingForResponse := t.txsWaitingForResponse.erase hash })
  | downloaded {nt : NewTx} : mwebOnly cfg nt = false → nt.hash = hash →
      nt.hash ∉ t.txsDownloaded.map NewTx.hash →
      Replied cfg ord t hash (.tx nt) (process cfg ord { t with
        txsDownloaded := t.txsDownloaded ++ [nt]
        txidsAffected := t.txidsAffected.insert nt.hash
        txsWaitingForResponse := t.txsWaitingForResponse.erase hash })
  | failed : Replied cfg ord t hash .error (process cfg ord { t with
      txsFailedDownload := t.txsFailedDownload.insert hash
      txsWaitingForResponse := t.txsWaitingForResponse.erase hash })
  | tooMany : Replied cfg ord t hash .error ({ t with
      txsFailedDownload := t.txsFailedDownload.insert hash
      txsWaitingForResponse := t.txsWaitingForResponse.erase hash }.emit .errored)

theorem replied_onRawTransaction (t : SynchMempoolTask) (hash : TxHash) (reply : TxReply) :
    Replied cfg ord t hash reply (onRawTransaction cfg ord t hash reply) := by
  cases reply with
  | unreadable => exact .unreadable
  | tx nt =>
      unfold onRawTransaction
      dsimp only
      split_ifs with hmweb hany hne
      · exact .ignored hmweb
      · exact .refused (Bool.not_eq_true _ ▸ hmweb)
      · exact .refused (Bool.not_eq_true _ ▸ hmweb)
      · rw [not_not] at hne
        subst hne
        refine .downloaded (Bool.not_eq_true _ ▸ hmweb) rfl fun hmem => hany ?_
        obtain ⟨d, hd, he⟩ := List.mem_map.mp hmem
        exact List.any_eq_true.mpr ⟨d, hd, decide_eq_true he⟩
  | error =>
      unfold onRawTransaction
      dsimp only
      split_ifs
      · exact .tooMany
      · exact .failed

theorem TaskInv.onRawTransaction {t : SynchMempoolTask} (h : TaskInv t) {hash : TxHash}
    (hreq : .getrawtransaction hash ∈ t.inFlight) (reply : TxReply) :
    TaskInv (onRawTransaction cfg ord
      { t with inFlight := t.inFlight.erase (.getrawtransaction hash) } hash reply) := by
  have hst := h.loading hreq
  have hd := h.downloading hst
  have hq := h.quiet (by simp [hst])
  obtain ⟨g, hwait, he⟩ := hd.inFlight _ hreq
  cases he
  have hfresh : hash ∉ t.mempool.txs := hd.fresh hash (.inr (.inl hwait))
  have hkept : TaskInv { t with inFlight := t.inFlight.erase (.getrawtransaction hash) } := by
    refine ⟨h.indexed, fun _ => hq, phase_dlTxs hst ?_⟩
    refine ⟨hd.fresh, hd.nodup, hd.noted, hd.once, ?_, hd.requests.erase _⟩
    exact fun r hr => hd.inFlight r (List.mem_of_mem_erase hr)
  have herrored : ∀ {u : SynchMempoolTask}, TaskInv u → u.state = .dlTxs →
      TaskInv (u.emit .errored) := by
    intro u hu hust
    have hud := hu.downloading hust
    refine ⟨hu.indexed, fun _ => mt mem_emitted_emit.mp (hu.quiet (by simp [hust])),
      phase_dlTxs hust ?_⟩
    exact ⟨hud.fresh, hud.nodup, hud.noted, hud.once, hud.inFlight, hud.requests⟩
  have hreplied : Replied cfg ord
      { t with inFlight := t.inFlight.erase (.getrawtransaction hash) } hash reply
      (SynchMempoolTask.onRawTransaction cfg ord
        { t with inFlight := t.inFlight.erase (.getrawtransaction hash) } hash reply) :=
    replied_onRawTransaction _ hash reply
  generalize SynchMempoolTask.onRawTransaction cfg ord
    { t with inFlight := t.inFlight.erase (.getrawtransaction hash) } hash reply = t' at hreplied
  cases hreplied with
  | unreadable => exact herrored hkept hst
  | refused _ => exact herrored hkept hst
  | ignored _ =>
      have hdl := hd.reply hash t.txsFailedDownload (t.txsIgnored.insert hash)
      exact TaskInv.process ⟨h.indexed, fun _ => hq, phase_dlTxs hst hdl⟩
  | @downloaded nt _ he hnew =>
      subst he
      have hdl := (hd.reply nt.hash t.txsFailedDownload t.txsIgnored).addTx hfresh hnew
      exact TaskInv.process ⟨h.indexed, fun _ => hq, phase_dlTxs hst hdl⟩
  | failed =>
      have hdl := hd.reply hash (t.txsFailedDownload.insert hash) t.txsIgnored
      exact TaskInv.process ⟨h.indexed, fun _ => hq, phase_dlTxs hst hdl⟩
  | tooMany =>
      have hdl := hd.reply hash (t.txsFailedDownload.insert hash) t.txsIgnored
      have hu : TaskInv { t with
          inFlight := t.inFlight.erase (.getrawtransaction hash)
          txsFailedDownload := t.txsFailedDownload.insert hash
          txsWaitingForResponse := t.txsWaitingForResponse.erase hash } :=
        ⟨h.indexed, fun _ => hq, phase_dlTxs hst hdl⟩
      exact herrored hu hst

/-- The scheduled call is made. -/
theorem TaskInv.setAgain {t : SynchMempoolTask} (h : TaskInv t) :
    TaskInv { t with again := false } := by
  refine ⟨h.indexed, h.quiet, ?_⟩
  have hphase := h.phase
  cases hst : t.state <;> simp only [Phase, hst] at hphase ⊢
  · obtain ⟨hc, hf⟩ := hphase
    exact ⟨⟨hc.needing, hc.waiting, hc.downloaded, hc.failed, hc.ignored⟩, hf⟩
  · refine hphase.imp_right fun ⟨hc, hf⟩ => ?_
    exact ⟨⟨hc.needing, hc.waiting, hc.downloaded, hc.failed, hc.ignored⟩, hf⟩
  · exact ⟨hphase.fresh, hphase.nodup, hphase.noted, hphase.once, hphase.inFlight,
      hphase.requests⟩
  · exact hphase

/-- Every event keeps the invariant. -/
theorem TaskInv.handle {t : SynchMempoolTask} (h : TaskInv t) {e : Event} (he : Enabled t e) :
    TaskInv (handle cfg ord t e) := by
  cases e with
  | again => exact h.setAgain.process
  | rawMempool txids => exact h.onRawMempool he.1 he.2
  | rawMempoolError =>
      obtain ⟨hst, hclean, hf⟩ := h.awaiting he
      refine ⟨h.indexed, fun _ => mt mem_emitted_emit.mp (h.quiet (by simp [hst])), ?_⟩
      simp only [Phase, SynchMempoolTask.handle, emit, hst, hf]
      exact .inl (by simp)
  | rawTransaction hash reply => exact h.onRawTransaction he reply

/-- The invariant of the runs. -/
theorem taskInv_of_run {t₀ t : SynchMempoolTask} {es : List Event} (h₀ : TaskInv t₀)
    (hrun : Run cfg t₀ es t) : TaskInv t := by
  induction hrun with
  | nil => exact h₀
  | snoc ord _ he ih => exact ih.handle he

/-! ## Runs that are computed -/

/-- The task after the events, with the hash maps in the order of the model's lists. -/
def runFrom (cfg : Config) (t : SynchMempoolTask) (es : List Event) : SynchMempoolTask :=
  es.foldl (handle cfg .asListed) t

/-- All events are enabled in their turn. -/
def EnabledAll (cfg : Config) (t : SynchMempoolTask) : List Event → Prop
  | [] => True
  | e :: es => Enabled t e ∧ EnabledAll cfg (handle cfg .asListed t e) es

theorem run_runFrom {t : SynchMempoolTask} {es : List Event} (h : EnabledAll cfg t es) :
    Run cfg t es (runFrom cfg t es) := by
  suffices hgen : ∀ (es₀ : List Event) (u : SynchMempoolTask), Run cfg t es₀ u →
      EnabledAll cfg u es → Run cfg t (es₀ ++ es) (runFrom cfg u es) by
    simpa using hgen [] t .nil h
  clear h
  induction es with
  | nil =>
      intro es₀ u hrun _
      simpa [runFrom] using hrun
  | cons e es ih =>
      intro es₀ u hrun hall
      have hone := ih (es₀ ++ [e]) _ (hrun.snoc .asListed hall.1) hall.2
      rw [List.append_assoc] at hone
      exact hone

instance (t : SynchMempoolTask) : (e : Event) → Decidable (Enabled t e)
  | .again => inferInstanceAs (Decidable (t.again = true))
  | .rawMempool txids =>
      inferInstanceAs (Decidable (.getrawmempool ∈ t.inFlight ∧ (txids.filterMap id).Nodup))
  | .rawMempoolError => inferInstanceAs (Decidable (.getrawmempool ∈ t.inFlight))
  | .rawTransaction hash _ =>
      inferInstanceAs (Decidable (.getrawtransaction hash ∈ t.inFlight))

instance decidableEnabledAll (cfg : Config) : (t : SynchMempoolTask) → (es : List Event) →
    Decidable (EnabledAll cfg t es)
  | _, [] => isTrue trivial
  | t, e :: es =>
      haveI := decidableEnabledAll cfg (handle cfg .asListed t e) es
      inferInstanceAs (Decidable (Enabled t e ∧ EnabledAll cfg (handle cfg .asListed t e) es))

end SynchMempoolTask
end SynchMempool
end Shulcrum
