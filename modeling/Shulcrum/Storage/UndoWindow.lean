import Shulcrum.Storage.UndoCheck
import Shulcrum.Storage.UndoSize

/-!
# The undo window

The heights with an undo record are the last ones of the chain, at most as many
as the configured depth, and the earliest of them is kept in memory.  Every
block that is added with its record extends the window at the tip and may cut
it at its lower end; every undo takes the record of the tip.

**Results.**
* `UndoWindow.add`, `UndoWindow.undo`: the steps of a run.
* `undoWindow_of_start`: a database after the check at startup.
* `UndoWindow.record_of_undone`: the record of the tip during a rollback.
-/

namespace Shulcrum
namespace Storage

open Invariant TreeMap ChainIndex

variable {H : Hashers} {opts : Options}

/-- The heights that have an undo record. -/
def State.undoHeights (s : State) : Set Nat := {h | h ∈ s.undo}

/-! ## Runs -/

/-- The storage after the check at startup passed.  Heights are 32-bit `int`s. -/
structure Restarted (opts : Options) (s : State) : Prop where
  verifier : s.index.headerVerifier.prevHeight = (s.index.headers.length : Int) - 1
  fits : s.index.headers.length ≤ intMax + 1
  loaded : ∃ cf cf', cf.size < 2 ^ 32 ∧
    loadCheckEarliestUndo opts cf = .ok (cf', s.earliestUndoHeight) ∧
    (∀ h ∈ s.undo, h < 2 ^ 32) ∧ ∀ h < 2 ^ 32, cf'[heightKey h]? = s.undo[h]?.map some

/-- The undo records, if there are any, reach up to the tip. -/
def ReachesTip (s : State) : Prop :=
  ∀ m, IsGreatest s.undoHeights m → m + 1 = s.index.headers.length

def UndoStart (opts : Options) (s : State) : Prop := Restarted opts s ∧ ReachesTip s

/-- The calls of a run in which every block is added with its undo record. -/
inductive UndoStep (H : Hashers) (opts : Options) : State → State → Prop
  | add {s s' : State} {ppb : PreProcessedBlock} {notifySubs trackRecent : Bool}
      {notify : Option NotifyData} :
      ppb.height ≤ intMax →
      addBlock H opts s ppb true notifySubs trackRecent = .ok s' notify → UndoStep H opts s s'
  | reject {s s' : State} {ppb : PreProcessedBlock} {saveUndo notifySubs trackRecent : Bool}
      {errMsg : String} :
      addBlock H opts s ppb saveUndo notifySubs trackRecent =
        .headerVerificationFailure errMsg s' → UndoStep H opts s s'
  | undo {s : State} {notifySubs : Bool} {u : Undone} :
      undoLatestBlock H s notifySubs = .ok u → UndoStep H opts s u.state
  | mempool {s : State} (mp : Mempool) : UndoStep H opts s { s with mempool := mp }

/-- So many blocks were undone, one after the other. -/
def UndoneTimes (H : Hashers) : Nat → State → State → Prop
  | 0, s, s' => s' = s
  | n + 1, s, s' => ∃ notifySubs u, undoLatestBlock H s notifySubs = .ok u ∧
      UndoneTimes H n u.state s'

/-! ## The invariant -/

/-- The window of a state in a run. -/
structure UndoWindow (opts : Options) (s : State) : Prop where
  verifier : s.index.headerVerifier.prevHeight = (s.index.headers.length : Int) - 1
  fits : s.index.headers.length ≤ intMax + 1
  mem : ∀ h, h ∈ s.undo ↔ s.earliestUndoHeight ≤ h ∧ h < s.index.headers.length
  depth : s.index.headers.length ≤ s.earliestUndoHeight + opts.maxReorg
  invalid : s.index.headers.length ≤ s.earliestUndoHeight → s.earliestUndoHeight = invalidUndoHeight

section Steps

variable {s s' : State}

theorem UndoWindow.congr (h : UndoWindow opts s) (hindex : s'.index = s.index)
    (hwin : s'.undoWindow = s.undoWindow) : UndoWindow opts s' := by
  obtain ⟨hundo, hearliest⟩ := Prod.mk.inj hwin
  constructor
  · rw [hindex]
    exact h.verifier
  · rw [hindex]
    exact h.fits
  · rw [hindex, hundo, hearliest]
    exact h.mem
  · rw [hindex, hearliest]
    exact h.depth
  · rw [hindex, hearliest]
    exact h.invalid

/-- A record of the next height is saved, and the one that falls out of the window is deleted. -/
theorem UndoWindow.saved (h : UndoWindow opts s) (u : UndoInfo)
    (hfits : s.index.headers.length ≤ intMax) :
    (∀ x, x ∈ (saveUndoInfo opts s s.index.headers.length (some u)).undo ↔
      (saveUndoInfo opts s s.index.headers.length (some u)).earliestUndoHeight ≤ x ∧
        x < s.index.headers.length + 1) ∧
    s.index.headers.length + 1 ≤
      (saveUndoInfo opts s s.index.headers.length (some u)).earliestUndoHeight + opts.maxReorg ∧
    (saveUndoInfo opts s s.index.headers.length (some u)).earliestUndoHeight ≤
      s.index.headers.length := by
  have hmem := h.mem
  have hdepth := h.depth
  have hinvalid := h.invalid
  have hreorg := opts.maxReorg_inRange.1
  simp only [saveUndoInfo]
  generalize s.index.headers.length = n at *
  generalize he : (if n < s.earliestUndoHeight then n else s.earliestUndoHeight) = e
  -- the window with the new record in it
  obtain ⟨hle, hcut, hsaved⟩ : e ≤ n ∧ n ≤ e + opts.maxReorg ∧
      ∀ x, x ∈ s.undo.insert n u ↔ e ≤ x ∧ x < n + 1 := by
    by_cases hempty : n ≤ s.earliestUndoHeight
    · have hnone := hinvalid hempty
      have hfirst : e = n := by
        rw [← he, if_pos]
        rw [hnone]
        simp only [invalidUndoHeight, intMax] at hfits ⊢
        omega
      refine ⟨le_of_eq hfirst, by omega, fun x => ?_⟩
      rw [Std.ExtTreeMap.mem_insert, Nat.compare_eq_eq, hmem]
      omega
    · have hsame : e = s.earliestUndoHeight := by
        rw [← he, if_neg (by omega)]
      refine ⟨by omega, by omega, fun x => ?_⟩
      rw [Std.ExtTreeMap.mem_insert, Nat.compare_eq_eq, hmem]
      omega
  by_cases hold : opts.maxReorg ≤ n ∧ e ≤ n - opts.maxReorg
  · simp only [if_pos hold]
    refine ⟨fun x => ?_, by omega, by omega⟩
    rw [Std.ExtTreeMap.mem_erase, ne_eq, Nat.compare_eq_eq, hsaved]
    omega
  · simp only [if_neg hold]
    refine ⟨hsaved, ?_, hle⟩
    omega

theorem UndoWindow.add {ppb : PreProcessedBlock} {notifySubs trackRecent : Bool}
    {notify : Option NotifyData} (h : UndoWindow opts s) (hheight : ppb.height ≤ intMax)
    (hadd : addBlock H opts s ppb true notifySubs trackRecent = .ok s' notify) :
    UndoWindow opts s' := by
  obtain ⟨ch, -, hlen, -, hindex, hwin, -⟩ := addBlock_eq_ok hadd
  rw [hlen] at hheight
  rw [if_pos rfl, hlen] at hwin
  obtain ⟨hundo, hearliest⟩ := Prod.mk.inj hwin
  obtain ⟨hmem, hdepth, hle⟩ := h.saved (undoOf H s.index ppb ch) hheight
  have hheaders : s'.index.headers.length = s.index.headers.length + 1 := by
    rw [hindex]
    simp [nextIndex, writeBlock]
  constructor
  · rw [hheaders, hindex]
    simp only [nextIndex, writeBlock, h.verifier]
    omega
  · omega
  · rw [hheaders, hundo, hearliest]
    exact hmem
  · rw [hheaders, hearliest]
    exact hdepth
  · rw [hheaders, hearliest]
    intro hge
    omega

theorem UndoWindow.undo {notifySubs : Bool} {u : Undone} (h : UndoWindow opts s)
    (hundo : undoLatestBlock H s notifySubs = .ok u) :
    UndoWindow opts u.state ∧ u.state.undo.size + 1 = s.undo.size := by
  obtain ⟨prevHeader, info, hv, hheader, hget, hd, hearliest, htable⟩ := undoLatestBlock_eq_ok hundo
  obtain ⟨shist, m, -, -, hindex⟩ := disconnectBlock_eq_ok hd
  have htip : s.index.headers.length = u.prevHeight + 2 := by
    have := h.verifier
    omega
  have hheaders : u.state.index.headers.length = u.prevHeight + 1 := by
    rw [hindex]
    simp only [List.length_take]
    omega
  have hin : u.prevHeight + 1 ∈ s.undo := mem_iff_getElem?.mpr ⟨info, hget⟩
  have hle := ((h.mem _).mp hin).1
  have hfits := h.fits
  have hdepth := h.depth
  refine ⟨⟨?_, by omega, ?_, ?_, ?_⟩, ?_⟩
  · rw [hheaders, hindex]
    simp [BTC.HeaderVerifier.reset]
  · intro x
    rw [hheaders, htable, hearliest, Std.ExtTreeMap.mem_erase, ne_eq, Nat.compare_eq_eq, h.mem]
    split_ifs with hlast
    · simp only [invalidUndoHeight, intMax] at hfits ⊢
      omega
    · omega
  · rw [hheaders, hearliest]
    split_ifs with hlast
    · simp only [invalidUndoHeight, intMax] at hfits ⊢
      omega
    · omega
  · rw [hheaders, hearliest]
    split_ifs with hlast
    · exact fun _ => rfl
    · omega
  · have hcontains : s.undo.contains (u.prevHeight + 1) = true := hin
    have hpos : 0 < s.undo.size := by
      rw [Nat.pos_iff_ne_zero]
      intro hzero
      rw [Std.ExtTreeMap.eq_empty_iff_size_eq_zero.mpr hzero] at hin
      simp at hin
    rw [htable, Std.ExtTreeMap.size_erase, if_pos hcontains]
    omega

/-- After the check at startup there is a window, if it reaches the tip. -/
theorem undoWindow_of_start (h : UndoStart opts s) : UndoWindow opts s := by
  obtain ⟨⟨hverifier, hfits, cf, cf', hsize, hload, hbound, hrecs⟩, htip⟩ := h
  have hchecked := (loadCheckEarliestUndo_ok opts hsize).2 cf' _ hload
  have hheights : cf'.heights = s.undoHeights := by
    ext x
    constructor
    · rintro ⟨hlt, hin⟩
      obtain ⟨v, hv⟩ := mem_iff_getElem?.mp hin
      rw [hrecs x hlt] at hv
      obtain ⟨u, hu, -⟩ := Option.map_eq_some_iff.mp hv
      exact mem_iff_getElem?.mpr ⟨u, hu⟩
    · intro hin
      have hlt := hbound x hin
      obtain ⟨u, hu⟩ := mem_iff_getElem?.mp (show x ∈ s.undo from hin)
      exact ⟨hlt, mem_iff_getElem?.mpr ⟨some u, by rw [hrecs x hlt, hu]; rfl⟩⟩
  have hleast := hchecked.least
  have hinvalid := hchecked.invalid
  rw [hheights] at hleast hinvalid
  rcases Set.eq_empty_or_nonempty s.undoHeights with hempty | hne
  · have hnone := hinvalid hempty
    have hbig : s.index.headers.length ≤ s.earliestUndoHeight := by
      rw [hnone]
      simp only [invalidUndoHeight, intMax] at hfits ⊢
      omega
    refine ⟨hverifier, hfits, fun x => ?_, by omega, fun _ => hnone⟩
    constructor
    · intro hin
      have hin' : x ∈ s.undoHeights := hin
      rw [hempty] at hin'
      cases hin'
    · intro hx
      omega
  · have hmin := hleast hne
    have hkept := hheights.symm.trans hchecked.heights
    rw [hkept] at hmin
    obtain ⟨m, hIcc, hle, hlt⟩ := newest_topRun hmin
    rw [← hkept] at hIcc
    have hlast : m + 1 = s.index.headers.length := by
      refine htip m ?_
      rw [hIcc]
      exact isGreatest_Icc hle
    refine ⟨hverifier, hfits, fun x => ?_, by omega, fun _ => by omega⟩
    have hx : x ∈ s.undo ↔ x ∈ Set.Icc s.earliestUndoHeight m := by
      rw [← hIcc]
      rfl
    rw [hx, Set.mem_Icc]
    omega

theorem UndoWindow.step (h : UndoWindow opts s) (hstep : UndoStep H opts s s') :
    UndoWindow opts s' := by
  cases hstep with
  | add hheight hadd => exact h.add hheight hadd
  | reject hadd =>
      obtain ⟨recent, hconf⟩ := confirmInMempool_eq s _ _ _
      rw [state_of_rejected hadd, hconf]
      exact h.congr rfl rfl
  | undo hundo => exact (h.undo hundo).1
  | mempool mp => exact h.congr rfl rfl

theorem undoWindow_of_reachable (h : Reachable (UndoStart opts) (UndoStep H opts) s) :
    UndoWindow opts s :=
  Reachable.invariant (I := UndoWindow opts) (fun _ h => undoWindow_of_start h)
    (fun _ _ h hstep => h.step hstep) h

end Steps

/-! ## What the window gives -/

section Window

variable {s s' : State}

theorem UndoWindow.undoHeights_eq (h : UndoWindow opts s) :
    s.undoHeights = Set.Ico s.earliestUndoHeight s.index.headers.length := by
  ext x
  exact h.mem x

theorem UndoWindow.size_le (h : UndoWindow opts s) : s.undo.size ≤ opts.maxReorg := by
  have hsub : s.undo.keys.toFinset ⊆
      Finset.Ico s.earliestUndoHeight s.index.headers.length := by
    intro x hx
    rw [List.mem_toFinset, Std.ExtTreeMap.mem_keys, h.mem] at hx
    exact Finset.mem_Ico.mpr hx
  have hcard := Finset.card_le_card hsub
  rw [List.toFinset_card_of_nodup Std.ExtTreeMap.nodup_keys, Std.ExtTreeMap.length_keys,
    Nat.card_Ico] at hcard
  have hdepth := h.depth
  omega

theorem UndoWindow.isLeast (h : UndoWindow opts s) (hne : s.undoHeights.Nonempty) :
    IsLeast s.undoHeights s.earliestUndoHeight := by
  obtain ⟨x, hx⟩ := hne
  rw [h.undoHeights_eq] at hx ⊢
  exact isLeast_Ico (lt_of_le_of_lt hx.1 hx.2)

theorem UndoWindow.earliest_of_empty (h : UndoWindow opts s) (hempty : s.undoHeights = ∅) :
    s.earliestUndoHeight = invalidUndoHeight := by
  apply h.invalid
  rw [h.undoHeights_eq, Set.Ico_eq_empty_iff] at hempty
  exact not_lt.mp hempty

/-- The record of the tip is there for as many undos as the window has records. -/
theorem UndoWindow.record_of_undone {n : Nat} :
    ∀ {s : State}, UndoWindow opts s → UndoneTimes H n s s' → n < s.undo.size →
      ∃ u, s'.undo[s'.index.headers.length - 1]? = some u := by
  induction n with
  | zero =>
      rintro s h rfl hpos
      rw [← Std.ExtTreeMap.length_keys] at hpos
      obtain ⟨x, hx⟩ := List.exists_mem_of_length_pos hpos
      have hx' := (h.mem x).mp (Std.ExtTreeMap.mem_keys.mp hx)
      exact mem_iff_getElem?.mp ((h.mem _).mpr ⟨by omega, by omega⟩)
  | succ n ih =>
      rintro s h ⟨notifySubs, u, hundo, hrest⟩ hlt
      obtain ⟨hwin, hsize⟩ := h.undo hundo
      exact ih hwin hrest (by omega)

/--
In every run from a database that passed the check and whose records reach the
tip, the records are those of the last heights, at most as many as the depth,
with the earliest of them in memory.  And what the check leaves of any table.
-/
theorem undo_window_of_runs (H : Hashers) (opts : Options) :
    (∀ s, Reachable (UndoStart opts) (UndoStep H opts) s →
      s.undoHeights = Set.Ico s.earliestUndoHeight s.index.headers.length ∧
      s.undo.size ≤ opts.maxReorg ∧
      (s.undoHeights.Nonempty → IsLeast s.undoHeights s.earliestUndoHeight) ∧
      (s.undoHeights = ∅ → s.earliestUndoHeight = invalidUndoHeight) ∧
      ∀ n s', UndoneTimes H n s s' → n < s.undo.size →
        ∃ u, s'.undo[s'.index.headers.length - 1]? = some u) ∧
    ∀ cf : UndoTable, cf.size < 2 ^ 32 →
      (cf.Readable ↔ ∃ r, loadCheckEarliestUndo opts cf = .ok r) ∧
      ∀ cf' earliest, loadCheckEarliestUndo opts cf = .ok (cf', earliest) →
        Checked opts cf cf' earliest := by
  refine ⟨fun s hs => ?_, fun cf hsize => loadCheckEarliestUndo_ok opts hsize⟩
  have h := undoWindow_of_reachable hs
  exact ⟨h.undoHeights_eq, h.size_le, h.isLeast, h.earliest_of_empty,
    fun n s' hn hlt => h.record_of_undone hn hlt⟩

end Window

section SmallChain

open Mempool

/-- The storage after two blocks, the second one added without its undo record. -/
def unsavedState : State :=
  match addBlock opTrueHashers {} firstState (prepared 1 (secondBlock 0)) false false false with
  | .ok s _ => s
  | _ => {}

/--
The records end below the tip when a block was added without one.  The check at
startup passes.
-/
theorem undo_window_below_tip :
    addBlock opTrueHashers {} firstState (prepared 1 (secondBlock 0)) false false false =
        .ok unsavedState none ∧
      Restarted {} unsavedState ∧
      ¬ ∃ a, unsavedState.undoHeights = Set.Ico a unsavedState.index.headers.length := by
  obtain ⟨u, hu⟩ : ∃ u, unsavedState.undo = (∅ : Std.ExtTreeMap Nat UndoInfo compare).insert 0 u :=
    ⟨_, rfl⟩
  have hlen : unsavedState.index.headers.length = 2 := rfl
  refine ⟨rfl, ⟨rfl, by decide, ?_⟩, ?_⟩
  · have hload : loadCheckEarliestUndo {} ((∅ : UndoTable).insert (heightKey 0) (some u)) =
        .ok ((∅ : UndoTable).insert (heightKey 0) (some u), 0) := rfl
    refine ⟨_, _, ?_, hload, ?_, ?_⟩
    · rw [Std.ExtTreeMap.size_insert]
      simp
    · intro h hh
      rw [hu, Std.ExtTreeMap.mem_insert, Nat.compare_eq_eq] at hh
      simp at hh
      omega
    · intro h hh
      rw [hu, get_insert, get_insert]
      by_cases hzero : 0 = h
      · rw [if_pos hzero, if_pos (congrArg heightKey hzero)]
        rfl
      · rw [if_neg hzero, if_neg fun heq => hzero (heightKey_injective (by decide) hh heq)]
        simp
  · rintro ⟨a, ha⟩
    have hmem : ∀ x, x ∈ unsavedState.undoHeights ↔ x = 0 := by
      intro x
      have hx : x ∈ unsavedState.undoHeights ↔ x ∈ unsavedState.undo := Iff.rfl
      rw [hx, hu, Std.ExtTreeMap.mem_insert, Nat.compare_eq_eq]
      simp [eq_comm]
    have hzero := (hmem 0).mpr rfl
    rw [ha, hlen] at hzero
    have hone : 1 ∈ unsavedState.undoHeights := by
      rw [ha, hlen]
      exact ⟨hzero.1.trans (Nat.zero_le 1), by decide⟩
    exact absurd ((hmem 1).mp hone) (by decide)

theorem undoStart_empty : UndoStart {} ({} : State) := by
  have hload : loadCheckEarliestUndo {} ∅ = .ok (∅, invalidUndoHeight) := rfl
  refine ⟨⟨rfl, by decide, ∅, ∅, by decide, hload, ?_, ?_⟩, ?_⟩
  · intro h hh
    simp at hh
  · intro h _
    simp
  · intro m hm
    have hnot := hm.1
    simp [State.undoHeights] at hnot

/-- Coinbases follow each other, all of them saved with their records. -/
theorem exists_saved {s : State} (hs : Sound s)
    (hrun : Reachable (UndoStart {}) (UndoStep opTrueHashers {}) s)
    (hlen : s.index.headers.length = 1) (htx : s.index.txNumNext = 1) (n : Nat) (hn : n ≤ 1000) :
    ∃ s', Reachable (UndoStart {}) (UndoStep opTrueHashers {}) s' ∧ Sound s' ∧
      s'.index.headers.length = n + 1 ∧ s'.index.txNumNext = n + 1 := by
  induction n with
  | zero => exact ⟨s, hrun, hs, hlen, htx⟩
  | succ n ih =>
      obtain ⟨s', hrun', hs', hlen', htx'⟩ := ih (by omega)
      have hone : (1 : TxHash) ≠ 0 := by decide
      obtain ⟨ppb, s'', notify, hfill, hadd⟩ :=
        addBlock_coinbaseBlock blockHeaderSize_default hs'.wellFormed hone true false false
      have hfits : s'.index.txNumNext + (coinbaseBlock 1 hone).vtx.length ≤ txNumMax + 1 := by
        simp only [htx', coinbaseBlock, List.length_singleton, txNumMax]
        omega
      obtain ⟨ch, hc, hindex, hundo⟩ := connected_of_addBlock hfill hfits hadd
      have hheight : ppb.height ≤ intMax := by
        rw [hc.height, hlen', intMax]
        omega
      have hsingle : ppb.txInfos.length = 1 := by
        have hhashes := congrArg List.length hc.prepared.hashes
        rwa [List.length_map, List.length_map] at hhashes
      refine ⟨s'', hrun'.next (.add hheight hadd), hs'.add hc hindex hundo, ?_, ?_⟩
      · rw [hindex]
        simp [nextIndex, writeBlock, hlen']
      · rw [hindex]
        simp [nextIndex, writeBlock, htx', hsingle]

/-- The second block is undone; the record of the first one falls out of the window later. -/
theorem undo_window_expired : ∃ s : State,
    Reachable (UndoStart {}) (UndoStep opTrueHashers {}) s ∧ s.index.headers.length = 101 ∧
      0 ∉ s.undoHeights ∧ s.undoHeights = Set.Ico s.earliestUndoHeight 101 := by
  obtain ⟨s, notify, u, hadd, hundo, -, hsame⟩ := exists_undone_second
  have hfirst : addBlock opTrueHashers {} {} (prepared 0 firstBlock) true false false =
      .ok firstState none := rfl
  have hadded : Reachable (UndoStart {}) (UndoStep opTrueHashers {}) s :=
    .next (.next (.start undoStart_empty) (.add (by decide) hfirst)) (.add (by decide) hadd)
  have hfill : PreProcessedBlock.fill opTrueHashers 1 none 0 100 (secondBlock 0) =
      .ok (prepared 1 (secondBlock 0)) := rfl
  obtain ⟨ch, hc, hindex, hrecord⟩ := connected_of_addBlock hfill (by decide) hadd
  have hsound : Sound u.state :=
    ((sound_of_reachable (reachable_firstState (fun _ _ => True) trivial)).add hc hindex
      hrecord).undo hundo
  obtain ⟨s', hrun, -, hlen, -⟩ := exists_saved hsound (hadded.next (.undo hundo))
    (congrArg (·.headers.length) hsame) (congrArg (·.txNumNext) hsame) 100 (by omega)
  have hdepth : s'.index.headers.length ≤ s'.earliestUndoHeight + 100 :=
    (undoWindow_of_reachable hrun).depth
  have hwindow := ((undo_window_of_runs opTrueHashers {}).1 s' hrun).1
  rw [hlen] at hwindow
  refine ⟨s', hrun, hlen, fun hzero => ?_, hwindow⟩
  rw [hwindow, Set.mem_Ico] at hzero
  omega

end SmallChain

end Storage
end Shulcrum
