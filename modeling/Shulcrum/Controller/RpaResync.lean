import Shulcrum.Controller.Model
import Shulcrum.Storage.RpaCheck

/-!
# Bringing the RPA index to the configured range

Before it synchs blocks the controller compares the height range of the RPA index
with the range it should cover.  What is missing before or after the range is
downloaded; what is left over is cut off.  Filling up before the range leaves a
wrong cached range and a raised flag, so that the next round checks all of the
table.

**Results.**
* `reaches_void`, `reaches_covers`: what follows from each kind of table.
* `rpaResync_reaches`: rounds of checks and downloads end with the configured
  range.
-/

namespace Shulcrum
namespace Controller

open Storage RpaIndex

/-- What `checkRpaIndexNeedsSync` decides. -/
inductive RpaCheckResult where
  /-- Nothing is to be done; it returns false. -/
  | upToDate
  /-- The state machine is to start again. -/
  | retry
  /-- The data of the heights is to be downloaded. -/
  | download (fromHeight toHeight : Nat)
  deriving DecidableEq, Repr

/-- The RPA index and the flag of the controller that disables the check. -/
structure RpaSync where
  rpa : RpaIndex
  skipRpaSanityCheck : Bool := false

section Model

variable (env : RpaCheckEnv)

/-- The check at the start of `setupDownload`. -/
def setupDownload (fromHeight toHeight : Nat) : Except Exception RpaCheckResult :=
  if toHeight < fromHeight then .error (.internalError "Cannot download <= 0 blocks! FIXME!")
  else .ok (.download fromHeight toHeight)

/-- The end of `checkRpaIndexNeedsSync`: rows outside of the range are deleted. -/
def clampIfNeeded (rpa : RpaIndex) (cf tipHeight : Int) : Except Exception RpaIndex :=
  if rpa.firstHeight ≠ cf ∨ rpa.lastHeight ≠ tipHeight then
    rpa.clampRpaEntries cf.toNat tipHeight.toNat
  else .ok rpa

/-- `Controller::checkRpaIndexNeedsSync`, with the configured start height, which is negative
if the index is disabled. -/
def checkRpaIndexNeedsSync (cf tipHeight : Int) (s : RpaSync) :
    Except Exception (RpaCheckResult × RpaSync) :=
  if s.skipRpaSanityCheck ∨ tipHeight < 0 then .ok (.upToDate, s)
  else if cf < 0 ∨ cf > tipHeight then .ok (.upToDate, { s with skipRpaSanityCheck := true })
  else do
    let (ran, rpa) ← s.rpa.runRpaSlowCheck env cf.toNat tipHeight.toNat
    let s := { s with rpa := rpa }
    if ran then return (.retry, s)
    else
      let noData := rpa.firstHeight < 0 ∨ rpa.lastHeight < 0
      let f := rpa.firstHeight
      let l := rpa.lastHeight
      if noData then return (← setupDownload cf.toNat tipHeight.toNat, s)
      else if cf < f then return (← setupDownload cf.toNat (min (f - 1) tipHeight).toNat, s)
      else if l < tipHeight then return (← setupDownload (max cf (l + 1)).toNat tipHeight.toNat, s)
      else
        let rpa ← clampIfNeeded rpa cf tipHeight
        return (.upToDate, { rpa := rpa, skipRpaSanityCheck := true })

variable (node : Nat → Hash × List UInt8)

/-- The data of some blocks is added in their order. -/
def addAll (s : RpaIndex) (heights : List Nat) : RpaIndex :=
  heights.foldl (fun s height => s.addRpaDataForHeight height (node height).1 (node height).2) s

/-- A complete download. -/
def downloadRpa (s : RpaIndex) (fromHeight toHeight : Nat) : RpaIndex :=
  addAll node s (List.range' fromHeight (toHeight + 1 - fromHeight))

/-- The check, followed by the download it sets up; whether there is to be another round. -/
def rpaRound (cf tipHeight : Int) (s : RpaSync) : Except Exception (Bool × RpaSync) :=
  match checkRpaIndexNeedsSync env cf tipHeight s with
  | .error e => .error e
  | .ok (.upToDate, s) => .ok (false, s)
  | .ok (.retry, s) => .ok (true, s)
  | .ok (.download fromHeight toHeight, s) =>
      .ok (true, { s with rpa := downloadRpa node s.rpa fromHeight toHeight })

/-- Rounds until the check returns false; nothing if there are more than the given number. -/
def rpaResync (cf tipHeight : Int) : Nat → RpaSync → Except Exception (Option RpaSync)
  | 0, _ => .ok none
  | n + 1, s =>
      match rpaRound env node cf tipHeight s with
      | .error e => .error e
      | .ok (false, s) => .ok (some s)
      | .ok (true, s) => rpaResync cf tipHeight n s

end Model

section Download

variable (node : Nat → Hash × List UInt8)

/-- The heights after a range are added to it. -/
theorem addAll_next {s : RpaIndex} {a b : Nat} (hc : s.Covers a b) (n : Nat)
    (hb : b + n ≤ intMax) :
    (addAll node s (List.range' (b + 1) n)).Covers a (b + n) ∧
      (addAll node s (List.range' (b + 1) n)).needsFullCheck = s.needsFullCheck := by
  induction n generalizing s b with
  | zero => exact ⟨hc, rfl⟩
  | succ n ih =>
      obtain ⟨hc', hflag⟩ := hc.addNext (by omega) (node (b + 1)).1 (node (b + 1)).2
      obtain ⟨hrest, hflag'⟩ := ih hc' (by omega)
      rw [show b + 1 + n = b + (n + 1) by omega] at hrest
      rw [List.range'_succ]
      exact ⟨hrest, hflag'.trans hflag⟩

/-- What the downloads add, and that a raised flag stays raised. -/
theorem addAll_spec {heights : List Nat} {s : RpaIndex}
    (hs : 0 ≤ s.firstHeight ∧ 0 ≤ s.lastHeight) (hle : ∀ h ∈ heights, h ≤ intMax) :
    (0 ≤ (addAll node s heights).firstHeight ∧ 0 ≤ (addAll node s heights).lastHeight) ∧
      (s.needsFullCheck = true → (addAll node s heights).needsFullCheck = true) ∧
      ∀ x, x ∈ (addAll node s heights).table ↔ x ∈ s.table ∨ x ∈ heights := by
  induction heights generalizing s with
  | nil => exact ⟨hs, id, by simp [addAll]⟩
  | cons h heights ih =>
      rw [List.forall_mem_cons] at hle
      have hstep : 0 ≤ (s.addRpaDataForHeight h (node h).1 (node h).2).firstHeight ∧
          0 ≤ (s.addRpaDataForHeight h (node h).1 (node h).2).lastHeight := by
        unfold addRpaDataForHeight
        simp only [toInt_of_le hle.1]
        constructor
        · split_ifs <;> omega
        · omega
      obtain ⟨hrange, hflag, hmem⟩ := ih hstep hle.2
      refine ⟨hrange, fun hs => hflag (by simp [addRpaDataForHeight, hs]), fun x => ?_⟩
      have hmem' := hmem x
      simp only [addRpaDataForHeight, Std.ExtTreeMap.mem_insert, Nat.compare_eq_eq] at hmem'
      rw [show addAll node s (h :: heights) =
        addAll node (s.addRpaDataForHeight h (node h).1 (node h).2) heights from rfl]
      simp only [addRpaDataForHeight] at hmem' ⊢
      rw [hmem', List.mem_cons]
      constructor
      · rintro ((h1 | h1) | h1) <;> simp [h1]
      · rintro (h1 | h1 | h1) <;> simp [h1]

/-- A download that does not start at the end of the range raises the flag. -/
theorem downloadRpa_flag {s : RpaIndex} {a b fromHeight toHeight : Nat}
    (hc : s.Covers a b) (hft : fromHeight ≤ toHeight) (hle : toHeight ≤ intMax)
    (hne : fromHeight ≠ b + 1) :
    (downloadRpa node s fromHeight toHeight).Usable ∧
      (downloadRpa node s fromHeight toHeight).needsFullCheck = true ∧
      ∀ x, x ∈ (downloadRpa node s fromHeight toHeight).table ↔
        (a ≤ x ∧ x ≤ b) ∨ (fromHeight ≤ x ∧ x ≤ toHeight) := by
  have hstart : 0 ≤ s.firstHeight ∧ 0 ≤ s.lastHeight := by
    rw [hc.first, hc.last]
    omega
  have hheights : ∀ h ∈ List.range' fromHeight (toHeight + 1 - fromHeight), h ≤ intMax := by
    intro h hh
    rw [List.mem_range'_1] at hh
    omega
  obtain ⟨hrange, -, hmem⟩ := addAll_spec node hstart hheights
  refine ⟨.inr hrange, ?_, fun x => ?_⟩
  · unfold downloadRpa
    rw [show toHeight + 1 - fromHeight = toHeight - fromHeight + 1 by omega, List.range'_succ]
    rw [show toHeight + 1 - fromHeight = toHeight - fromHeight + 1 by omega, List.range'_succ,
      List.forall_mem_cons] at hheights
    have hflag : (s.addRpaDataForHeight fromHeight (node fromHeight).1
        (node fromHeight).2).needsFullCheck = true := by
      unfold addRpaDataForHeight
      simp only [toInt_of_le hheights.1, hc.last, Bool.or_eq_true, decide_eq_true_eq]
      omega
    have hstart' : 0 ≤ (s.addRpaDataForHeight fromHeight (node fromHeight).1
          (node fromHeight).2).firstHeight ∧
        0 ≤ (s.addRpaDataForHeight fromHeight (node fromHeight).1
          (node fromHeight).2).lastHeight :=
      (addAll_spec node hstart (List.forall_mem_singleton.mpr hheights.1)).1
    exact (addAll_spec node hstart' hheights.2).2.1 hflag
  · rw [downloadRpa, hmem, hc.mem_iff, List.mem_range'_1]
    omega

end Download

section Rounds

variable (env : RpaCheckEnv) (node : Nat → Hash × List UInt8) (cf tip : Nat)

/-- Rounds from the state end with the configured range. -/
def Reaches (s : RpaSync) : Prop :=
  ∃ n t, rpaResync env node cf tip n s = .ok (some t) ∧ t.skipRpaSanityCheck = true ∧
    t.rpa.Covers cf tip

variable {env node cf tip}

theorem Reaches.of_round {s t : RpaSync} (h : rpaRound env node cf tip s = .ok (true, t))
    (ht : Reaches env node cf tip t) : Reaches env node cf tip s := by
  obtain ⟨n, u, hrun, hu⟩ := ht
  refine ⟨n + 1, u, ?_, hu⟩
  rw [rpaResync, h]
  exact hrun

/-- A state that is not up to date as far as the controller knows. -/
def Unchecked (s : RpaSync) : Prop := s.skipRpaSanityCheck = false

/-- What the check does when the flag is not raised. -/
theorem check_unflagged (env : RpaCheckEnv) (hcf : cf ≤ tip) {s : RpaSync} (hs : Unchecked s)
    (hflag : s.rpa.needsFullCheck = false) :
    checkRpaIndexNeedsSync env cf tip s =
      if s.rpa.firstHeight < 0 ∨ s.rpa.lastHeight < 0 then .ok (.download cf tip, s)
      else if (cf : Int) < s.rpa.firstHeight then do
        return (← setupDownload cf (min (s.rpa.firstHeight - 1) tip).toNat, s)
      else if s.rpa.lastHeight < tip then do
        return (← setupDownload (max (cf : Int) (s.rpa.lastHeight + 1)).toNat tip, s)
      else do
        let rpa ← clampIfNeeded s.rpa cf tip
        return (.upToDate, { rpa := rpa, skipRpaSanityCheck := true }) := by
  have hskip : ¬(s.skipRpaSanityCheck = true ∨ (tip : Int) < 0) := by
    rw [hs]
    simp
  have hslow : s.rpa.runRpaSlowCheck env cf tip = .ok (false, s.rpa) := by
    rw [runRpaSlowCheck, hflag]
    rfl
  have hsetup : setupDownload cf tip = .ok (.download cf tip) := if_neg (by omega)
  unfold checkRpaIndexNeedsSync
  rw [if_neg hskip, if_neg (by omega)]
  simp only [Int.toNat_natCast, hslow, hsetup, bind, Except.bind, Bool.false_eq_true, if_false]
  rfl

/-- A raised flag leads to the slow check. -/
theorem round_flagged (hcf : cf ≤ tip) {s : RpaSync} {t : RpaIndex} (hs : Unchecked s)
    (hslow : s.rpa.runRpaSlowCheck env cf tip = .ok (true, t)) :
    rpaRound env node cf tip s = .ok (true, { s with rpa := t }) := by
  have hskip : ¬(s.skipRpaSanityCheck = true ∨ (tip : Int) < 0) := by
    rw [hs]
    simp
  unfold rpaRound checkRpaIndexNeedsSync
  rw [if_neg hskip, if_neg (by omega)]
  simp only [Int.toNat_natCast, hslow, bind, Except.bind, if_true]
  rfl

/-- A range that reaches the tip and starts low enough is cut to size. -/
theorem reaches_covers_tip (hcf : cf ≤ tip) (htip : tip < intMax) {s : RpaSync}
    (hs : Unchecked s) (hflag : s.rpa.needsFullCheck = false) {a : Nat}
    (hc : s.rpa.Covers a tip) (ha : a ≤ cf) : Reaches env node cf tip s := by
  have hclamp : ∃ t, clampIfNeeded s.rpa cf tip = .ok t ∧ t.Covers cf tip := by
    unfold clampIfNeeded
    rw [Int.toNat_natCast, Int.toNat_natCast]
    split_ifs with hne
    · have husable : s.rpa.Usable := .inr (by rw [hc.first, hc.last]; omega)
      obtain ⟨t, ht, -, -⟩ := clamp_usable husable hcf htip
      have hpos : cf > 0 := by
        rw [hc.first, hc.last] at hne
        omega
      obtain ⟨m, hm, htop⟩ := clampRpaEntries_ok ht
      rw [if_pos hpos] at hm
      rw [if_pos (by unfold intMax at htip; omega)] at htop
      have hm' := hc.deleteTo (by omega) hm
      have ht' := hm'.deleteFrom (by omega) htop
      rw [show max a (cf - 1 + 1) = cf by omega, show min tip (tip + 1 - 1) = tip by omega] at ht'
      exact ⟨t, ht, ht'⟩
    · refine ⟨s.rpa, rfl, ?_⟩
      have hcfa : a = cf := by
        rw [hc.first, hc.last] at hne
        omega
      rw [← hcfa]
      exact hc
  obtain ⟨t, ht, hcover⟩ := hclamp
  refine ⟨1, { rpa := t, skipRpaSanityCheck := true }, ?_, rfl, hcover⟩
  have hcheck := check_unflagged env hcf hs hflag
  rw [if_neg (by rw [hc.first, hc.last]; omega), if_neg (by rw [hc.first]; omega),
    if_neg (by rw [hc.last]; omega), ht] at hcheck
  rw [rpaResync, rpaRound, hcheck]
  rfl

/-- A round that downloads. -/
theorem resync_round_download {s : RpaSync} {fromHeight toHeight : Nat}
    (h : checkRpaIndexNeedsSync env cf tip s = .ok (.download fromHeight toHeight, s)) :
    rpaRound env node cf tip s =
      .ok (true, { s with rpa := downloadRpa node s.rpa fromHeight toHeight }) := by
  rw [rpaRound, h]

/-- An empty table is filled. -/
theorem reaches_void (hcf : cf ≤ tip) (htip : tip < intMax) {s : RpaSync} (hs : Unchecked s)
    (hflag : s.rpa.needsFullCheck = false) (hv : s.rpa.IsVoid) : Reaches env node cf tip s := by
  have hcheck := check_unflagged env hcf hs hflag
  rw [if_pos (by rw [hv.first]; omega)] at hcheck
  refine .of_round (resync_round_download hcheck) ?_
  obtain ⟨hfirst, hflag'⟩ :=
    hv.addFirst (by omega : cf ≤ intMax) (node cf).1 (node cf).2
  obtain ⟨hcover, hflag''⟩ := addAll_next node hfirst (tip - cf) (by omega)
  have hdownload : downloadRpa node s.rpa cf tip =
      addAll node (s.rpa.addRpaDataForHeight cf (node cf).1 (node cf).2)
        (List.range' (cf + 1) (tip - cf)) := by
    rw [downloadRpa, show tip + 1 - cf = tip - cf + 1 by omega, List.range'_succ]
    rfl
  rw [← hdownload] at hcover hflag''
  rw [show cf + (tip - cf) = tip by omega] at hcover
  exact reaches_covers_tip hcf htip hs (hflag''.trans (hflag'.trans hflag)) hcover le_rfl

/-- A range that starts low enough is extended to the tip; if it ends too low for that, it
is replaced. -/
theorem reaches_covers_low (hcf : cf ≤ tip) (htip : tip < intMax)
    (henv : env.currentHeight = tip) {s : RpaSync} (hs : Unchecked s)
    (hflag : s.rpa.needsFullCheck = false) {a b : Nat} (hc : s.rpa.Covers a b) (hb : b ≤ tip)
    (ha : a ≤ cf) : Reaches env node cf tip s := by
  rcases Nat.eq_or_lt_of_le hb with rfl | hlt
  · exact reaches_covers_tip hcf htip hs hflag hc ha
  have hcheck := check_unflagged env hcf hs hflag
  have hsetup : setupDownload (max cf (b + 1)) tip = .ok (.download (max cf (b + 1)) tip) :=
    if_neg (by omega)
  rw [if_neg (by rw [hc.first, hc.last]; omega), if_neg (by rw [hc.first]; omega),
    if_pos (by rw [hc.last]; omega), hc.last,
    show (max (cf : Int) ((b : Int) + 1)).toNat = max cf (b + 1) by omega, hsetup] at hcheck
  refine .of_round (resync_round_download hcheck) ?_
  by_cases hgap : cf ≤ b + 1
  · obtain ⟨hcover, hflag'⟩ := addAll_next node hc (tip - b) (by omega)
    have hdownload : downloadRpa node s.rpa (max cf (b + 1)) tip =
        addAll node s.rpa (List.range' (b + 1) (tip - b)) := by
      rw [downloadRpa, Nat.max_eq_right hgap, show tip + 1 - (b + 1) = tip - b by omega]
    rw [← hdownload] at hcover hflag'
    rw [show b + (tip - b) = tip by omega] at hcover
    exact reaches_covers_tip hcf htip hs (hflag'.trans hflag) hcover ha
  · -- the gap between the range and the download is found by the slow check
    rw [Nat.max_eq_left (by omega)]
    obtain ⟨husable, hflag', hmem⟩ :=
      downloadRpa_flag node hc hcf (by omega : tip ≤ intMax) (by omega : cf ≠ b + 1)
    obtain ⟨t, ht, htflag, hcase⟩ := runRpaSlowCheck_clamps husable hflag' hcf htip
      henv hcf le_rfl (fun x => by rw [hmem]; omega)
    refine .of_round (round_flagged hcf hs ht) ?_
    rcases hcase with hvoid | hcover
    · exact reaches_void hcf htip hs htflag hvoid
    · exact reaches_covers_tip hcf htip hs htflag hcover le_rfl

/-- A range that starts too high is first filled up before it. -/
theorem reaches_covers (hcf : cf ≤ tip) (htip : tip < intMax) (henv : env.currentHeight = tip)
    {s : RpaSync} (hs : Unchecked s) (hflag : s.rpa.needsFullCheck = false) {a b : Nat}
    (hc : s.rpa.Covers a b) (hb : b ≤ tip) : Reaches env node cf tip s := by
  by_cases ha : a ≤ cf
  · exact reaches_covers_low hcf htip henv hs hflag hc hb ha
  have hab := hc.le
  have hcheck := check_unflagged env hcf hs hflag
  have hsetup : setupDownload cf (a - 1) = .ok (.download cf (a - 1)) := if_neg (by omega)
  rw [if_neg (by rw [hc.first, hc.last]; omega), if_pos (by rw [hc.first]; omega), hc.first,
    show (min ((a : Int) - 1) (tip : Int)).toNat = a - 1 by omega, hsetup] at hcheck
  refine .of_round (resync_round_download hcheck) ?_
  obtain ⟨husable, hflag', hmem⟩ := downloadRpa_flag node hc (by omega : cf ≤ a - 1)
    (by omega : a - 1 ≤ intMax) (by omega : cf ≠ b + 1)
  obtain ⟨t, ht, htflag, hcase⟩ := runRpaSlowCheck_clamps husable hflag' hcf htip
    henv (by omega : cf ≤ b) hb (fun x => by rw [hmem]; omega)
  refine .of_round (round_flagged hcf hs ht) ?_
  rcases hcase with hvoid | hcover
  · exact reaches_void hcf htip hs htflag hvoid
  · exact reaches_covers_low hcf htip henv hs htflag hcover hb le_rfl

/-- Rounds of checks and downloads from any table without gaps and with a correct range end
with the configured range, whatever the flag says and whatever the rows hold. -/
theorem rpaResync_reaches {env : RpaCheckEnv} {node : Nat → Hash × List UInt8} {cf tip : Nat}
    (hcf : cf ≤ tip) (htip : tip < intMax) (henv : env.currentHeight = tip) {s : RpaSync}
    (hskip : s.skipRpaSanityCheck = false)
    (hs : s.rpa.IsVoid ∨ ∃ a b, s.rpa.Covers a b ∧ b ≤ tip) :
    ∃ n t, rpaResync env node cf tip n s = .ok (some t) ∧ t.skipRpaSanityCheck = true ∧
      t.rpa.firstHeight = cf ∧ t.rpa.lastHeight = tip ∧
      ∀ h, h ∈ t.rpa.table ↔ cf ≤ h ∧ h ≤ tip := by
  have hreaches : Reaches env node cf tip s := by
    cases hflag : s.rpa.needsFullCheck with
    | false =>
        rcases hs with hvoid | ⟨a, b, hc, hb⟩
        · exact reaches_void hcf htip hskip hflag hvoid
        · exact reaches_covers hcf htip henv hskip hflag hc hb
    | true =>
        -- the slow check comes first
        rcases hs with hvoid | ⟨a, b, hc, hb⟩
        · obtain ⟨t, ht, htflag, htvoid⟩ := runRpaSlowCheck_none env (.inl hvoid) hflag
            hcf htip (fun x hx => by simp [hvoid.table] at hx)
          exact .of_round (round_flagged hcf hskip ht) (reaches_void hcf htip hskip htflag htvoid)
        · have husable : s.rpa.Usable := .inr (by rw [hc.first, hc.last]; omega)
          by_cases hbelow : b < cf
          · obtain ⟨t, ht, htflag, htvoid⟩ := runRpaSlowCheck_none env husable hflag
              hcf htip (fun x hx => by rw [hc.mem_iff] at hx; omega)
            exact .of_round (round_flagged hcf hskip ht)
              (reaches_void hcf htip hskip htflag htvoid)
          · have hab := hc.le
            obtain ⟨t, ht, htflag, hcase⟩ := runRpaSlowCheck_clamps husable hflag
              hcf htip henv (by omega : max a cf ≤ b) hb (fun x => by rw [hc.mem_iff]; omega)
            refine .of_round (round_flagged hcf hskip ht) ?_
            rcases hcase with hvoid | hcover
            · exact reaches_void hcf htip hskip htflag hvoid
            · exact reaches_covers hcf htip henv hskip htflag hcover hb
  obtain ⟨n, t, hrun, hdone, hcover⟩ := hreaches
  exact ⟨n, t, hrun, hdone, hcover.first, hcover.last, hcover.mem_iff⟩

/-- A chain up to height twelve, with data that is not compressed. -/
def heightTwelve : RpaCheckEnv where
  qUncompress := some
  doSlowDbChecks := false
  currentHeight := 12
  hashForHeight := fun h => if h ≤ 12 then some 0 else none

theorem covers_tenEleven : tenEleven.Covers 10 11 := by
  have hvoid : ({} : RpaIndex).IsVoid := ⟨rfl, rfl, rfl⟩
  have hten := (hvoid.addFirst (by decide : 10 ≤ intMax) 0 []).1
  exact (hten.addNext (by decide : 10 + 1 ≤ intMax) 0 []).1

/-- Data for heights ten and eleven, where five to twelve are needed. -/
theorem rpaResync_reaches_twelve :
    ∃ n t, rpaResync heightTwelve (fun _ => (0, [])) (5 : Nat) (12 : Nat) n
        { rpa := tenEleven } = .ok (some t) ∧
      t.skipRpaSanityCheck = true ∧ t.rpa.firstHeight = (5 : Nat) ∧
      t.rpa.lastHeight = (12 : Nat) ∧ ∀ h, h ∈ t.rpa.table ↔ 5 ≤ h ∧ h ≤ 12 :=
  rpaResync_reaches (by decide) (by decide) rfl rfl
    (.inr ⟨10, 11, covers_tenEleven, by decide⟩)

end Rounds

end Controller
end Shulcrum
