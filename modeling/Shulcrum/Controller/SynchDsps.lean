import Shulcrum.Mempool.DspChanges
import Shulcrum.Mempool.DspRun
import Shulcrum.Storage.Run

/-!
# Downloaded proofs, and the completeness of the notifications

The last state of `SynchDSPsTask` files the downloaded proofs in the mempool.  A
proof about an unknown transaction is skipped, and unknown descendants are left
out; the known ones are collected in `txsAffected`, which the destructor of the
task enqueues.

**Results.**
* `reports_doProcessDownloads`: the collected transactions cover what changed.
* `dsp_notifications_complete`: all operations that change proofs report enough.
-/

namespace Shulcrum

open TreeMap DSPs

namespace SynchDSPs

/-- The proof without the descendants that the mempool does not have. -/
def withoutSkipped (mp : Mempool) (proof : DSProof) : DSProof :=
  { proof with descendants := proof.descendants.filter (decide <| · ∈ mp.txs) }

/-- `dsps.add` in `doProcessDownloads`: an exception, or a known proof, is only logged. -/
def addLogged (dsps : DSPs) (proof : DSProof) : DSPs :=
  match dsps.add proof with
  | .ok (_, dsps) => dsps
  | .error _ => dsps

/-- The loop body of `doProcessDownloads`, with the mempool and `txsAffected`. -/
def processDownload (acc : Mempool × HashSet) (entry : Hash × DSProof) : Mempool × HashSet :=
  if entry.2.txHash ∉ acc.1.txs then acc
  else
    let proof := withoutSkipped acc.1 entry.2
    ({ acc.1 with dsps := addLogged acc.1.dsps proof },
      proof.descendants.toList.foldl (·.insert ·) acc.2)

/-- `SynchDSPsTask::doProcessDownloads`; `dspsDownloaded` is given in the order of its
iteration. -/
def doProcessDownloads (mp : Mempool) (txsAffected : HashSet)
    (dspsDownloaded : List (Hash × DSProof)) : Mempool × HashSet :=
  dspsDownloaded.foldl processDownload (mp, txsAffected)

section Downloads

variable {d : DSPs} {acc : Mempool × HashSet}

theorem linked_addLogged (hd : Linked d) (proof : DSProof) : Linked (addLogged d proof) := by
  unfold addLogged
  cases hadd : d.add proof with
  | error e => exact hd
  | ok r => exact (linked_add hd hadd).1

theorem reports_addLogged (hd : Linked d) {proof : DSProof} {D : HashSet}
    (hD : ∀ t ∈ proof.descendants, t ∈ D) : Reports D d (addLogged d proof) := by
  unfold addLogged
  cases hadd : d.add proof with
  | error e => exact reports_refl D d
  | ok r => exact reports_add hd hadd hD

theorem linked_processDownload (hd : Linked acc.1.dsps) (entry : Hash × DSProof) :
    Linked (processDownload acc entry).1.dsps := by
  unfold processDownload
  split_ifs
  · exact linked_addLogged hd _
  · exact hd

/-- One proof: its known descendants are noted, and no noted transaction is lost. -/
theorem reports_processDownload (hd : Linked acc.1.dsps) (entry : Hash × DSProof) :
    Reports (processDownload acc entry).2 acc.1.dsps (processDownload acc entry).1.dsps ∧
      ∀ t ∈ acc.2, t ∈ (processDownload acc entry).2 := by
  unfold processDownload
  split_ifs
  · constructor
    · refine reports_addLogged hd fun t ht => ?_
      exact mem_foldl_insert.mpr (.inr (Std.ExtTreeSet.mem_toList.mpr ht))
    · exact fun t ht => mem_foldl_insert.mpr (.inl ht)
  · exact ⟨reports_refl _ _, fun t ht => ht⟩

/-- The downloaded proofs, in any order: `txsAffected` covers what changed. -/
theorem reports_doProcessDownloads {mp : Mempool} (hd : Linked mp.dsps) (affected : HashSet)
    (downloaded : List (Hash × DSProof)) :
    Reports (doProcessDownloads mp affected downloaded).2 mp.dsps
      (doProcessDownloads mp affected downloaded).1.dsps := by
  have hrun : ∀ acc : Mempool × HashSet, Linked acc.1.dsps →
      Linked (downloaded.foldl processDownload acc).1.dsps ∧
      Reports (downloaded.foldl processDownload acc).2 acc.1.dsps
        (downloaded.foldl processDownload acc).1.dsps ∧
      ∀ t ∈ acc.2, t ∈ (downloaded.foldl processDownload acc).2 := by
    induction downloaded with
    | nil => exact fun acc hacc => ⟨hacc, reports_refl _ _, fun t ht => ht⟩
    | cons entry entries ih =>
        intro acc hacc
        have hlinked := linked_processDownload hacc entry
        obtain ⟨hone, hkeeps⟩ := reports_processDownload hacc entry
        obtain ⟨hlinked', hrest, hkeeps'⟩ := ih (processDownload acc entry) hlinked
        rw [List.foldl_cons]
        exact ⟨hlinked', (hone.mono hkeeps').trans hacc hlinked hlinked' hrest,
          fun t ht => hkeeps' t (hkeeps t ht)⟩
  exact (hrun (mp, affected) hd).2.1

end Downloads

/-- The clear of `undoLatestBlock` reports all transactions with a proof. -/
theorem reports_undoLatestBlock {H : Hashers} {s : Storage.State} (hd : Linked s.mempool.dsps)
    {u : Storage.Undone} (hundo : Storage.undoLatestBlock H s true = .ok u) :
    ∃ nd, u.notify = some nd ∧
      Reports nd.dspTxsAffected s.mempool.dsps u.state.mempool.dsps := by
  obtain ⟨_, u', -, -, -, -, -, -, -, hmempool, hnotify⟩ := Storage.undoLatestBlock_inv hundo
  rw [if_pos rfl] at hnotify
  refine ⟨_, hnotify, ?_⟩
  rw [hmempool]
  refine reports_empty hd fun t k hl => ?_
  have hne : ¬ s.mempool.dsps.isEmpty = true := by
    intro hempty
    have hmem := hd.mem_dsproofs hl
    rw [Std.ExtTreeMap.isEmpty_iff.mp hempty] at hmem
    simp at hmem
  obtain ⟨hashes, hget, -⟩ := hl
  dsimp only [Storage.notifyClearedMempool]
  rw [if_neg hne, mem_foldl_insert, Std.ExtTreeMap.mem_keys]
  exact .inr (mem_iff_getElem?.mpr ⟨hashes, hget⟩)

/--
The notifications about proofs are complete.  If the two tables of the proofs agree, then each
operation reports all transactions with a linked proof that it adds, removes or changes, and all
whose status it changes.
-/
theorem dsp_notifications_complete (H : Hashers) {mp : Mempool} (hd : Linked mp.dsps) :
    (∀ (db : TXO → Option TXOInfo) (affected : HashSet) (news : List NewTx)
        (r : Mempool × HashSet × MempoolStats),
      mp.addNewTxs H db affected news = .ok r →
        Reports r.2.2.dspTxsAffected mp.dsps r.1.dsps) ∧
    (∀ (affected : HashSet) (txids : List TxHash),
      ∃ r, mp.dropTxs affected txids = some r ∧
        Reports r.2.2.2.dspTxsAffected mp.dsps r.1.dsps) ∧
    (∀ (txidMap : Std.ExtTreeMap TxHash Nat compare) (height : Nat) (affected : HashSet),
      Reports (mp.confirmedInBlock txidMap height affected).2.2.dspTxsAffected mp.dsps
        (mp.confirmedInBlock txidMap height affected).1.dsps) ∧
    (∀ (s : Storage.State) (u : Storage.Undone), s.mempool = mp →
      Storage.undoLatestBlock H s true = .ok u →
        ∃ nd, u.notify = some nd ∧
          Reports nd.dspTxsAffected mp.dsps u.state.mempool.dsps) ∧
    (∀ (affected : HashSet) (downloaded : List (Hash × DSProof)),
      Reports (doProcessDownloads mp affected downloaded).2 mp.dsps
        (doProcessDownloads mp affected downloaded).1.dsps) := by
  refine ⟨fun db affected news r hok => Mempool.reports_addNewTxs hd hok, ?_,
    fun txidMap height affected => Mempool.reports_confirmedInBlock hd txidMap height affected,
    ?_, reports_doProcessDownloads hd⟩
  · intro affected txids
    obtain ⟨gone, hgrow⟩ := Mempool.descendants_total mp.txs txids
    obtain ⟨r, hr, -⟩ := Mempool.dropTxs_of_grow hgrow affected
    exact ⟨r, hr, Mempool.reports_dropTxs hd hr⟩
  · rintro s u rfl hundo
    exact reports_undoLatestBlock hd hundo

/-- A mempool with one transaction and a proof about it. -/
def provenMempool : Mempool where
  txs := (∅ : TxMap).insert 1 { hash := 1, sizeBytes := 10, vsizeBytes := 10 }
  dsps := addLogged {} Mempool.parentProof

theorem get_provenMempool : provenMempool.dsps.dsproofs[(70 : Hash)]? =
    some Mempool.parentProof := by
  simp [provenMempool, addLogged, DSPs.add, Mempool.parentProof]

/-- The transaction is dropped together with its proof. -/
theorem dsp_notifications_complete_oneProof : ∃ mp : Mempool,
    mp.dsps.dsproofs[(70 : Hash)]? = some Mempool.parentProof ∧
      ∃ r, mp.dropTxs ∅ [1] = some r ∧
        Reports r.2.2.2.dspTxsAffected mp.dsps r.1.dsps :=
  ⟨provenMempool, get_provenMempool,
    (dsp_notifications_complete Mempool.opTrueHashers
      (linked_addLogged linked_empty Mempool.parentProof)).2.1 ∅ [1]⟩

end SynchDSPs
end Shulcrum
