import Shulcrum.Rpa.ReadOnly
import Shulcrum.Storage.RpaRange

/-!
# The check of the RPA index

`loadCheckRpaDB` reads the `rpa` table and computes the height range it covers.
A full check reads every row: it cuts the table off at the first gap and at the
tip, and empties it when a row cannot be read or when its ends do not belong to
the active chain.  The controller asks for a full check when the index is flagged
as potentially inconsistent.

**Results.**
* `checkTable_interval`: the full check of a table without gaps computes its range
  or fails with a database error, upon which the table is emptied.
* `runRpaSlowCheck_clamps`: the slow check of a table whose rows in the range that is
  needed have no gap.
-/

namespace Shulcrum

/-- `DatabaseError` and the exceptions derived from it. -/
def Exception.isDatabaseError : Exception → Bool
  | .databaseError _ => true
  | .databaseFormatError _ => true
  | .databaseSerializationError _ => true
  | _ => false

namespace Storage

open TreeMap

/-- What the check reads besides the table. -/
structure RpaCheckEnv where
  qUncompress : List UInt8 → Option (List UInt8)
  doSlowDbChecks : Bool
  /-- `latestTip().first`. -/
  currentHeight : Int
  hashForHeight : Nat → Option Hash

namespace RpaIndex

section Model

variable (env : RpaCheckEnv)

/-- `ThrowIfNegativeIfCastedToSigned`. -/
def throwIfNegative (height : Nat) : Except Exception Unit :=
  if height > intMax then
    .error (.databaseFormatError (s!"Encountered a height ({height}) in the RPA db that is " ++
      "> INT_MAX; this indicates corruption or an incompatible DB format."))
  else .ok ()

/-- `TryDeserializePFTAndUpdateCounts`: the short block hash of a row whose prefix table can
be read. -/
def tryDeserializePFT (height : Nat) (row : RpaRow) : Except Exception (BitVec 32) :=
  match Rpa.ReadOnly.deserialize env.qUncompress row.ser with
  | .error (.failure msg) =>
      .error (.databaseError s!"Error deserializing Rpa::PrefixTable for height {height}: {msg}")
  | .error .outOfBounds =>
      .error (.databaseError s!"Error deserializing Rpa::PrefixTable for height {height}")
  | .ok _ => .ok row.shortBlockHash

/-- The range from the first and the last row, as at a normal startup. -/
def loadRange (rows : List (Nat × RpaRow)) : Except Exception (Int × Int) :=
  match rows.head?, rows.getLast? with
  | some (first, firstRow), some (last, lastRow) => do
      throwIfNegative first
      let _ ← tryDeserializePFT env first firstRow
      throwIfNegative last
      let _ ← tryDeserializePFT env last lastRow
      if toInt last < toInt first then
        .error (.databaseError ("The last record has height less than the first record in " ++
          s!"the RPA db: first = {first}, last = {last}"))
      else return (toInt first, toInt last)
  | _, _ => .ok (-1, -1)

/-- The loop of the full check: the range up to the first gap, and the height after which
entries must be deleted if there is a gap. -/
def scanRows : List (Nat × RpaRow) → (firstHeight lastHeight : Int) →
    Except Exception (Int × Int × Int)
  | [], firstHeight, lastHeight => .ok (firstHeight, lastHeight, -1)
  | (height, row) :: rows, firstHeight, lastHeight => do
      throwIfNegative height
      let _ ← tryDeserializePFT env height row
      let firstHeight := if firstHeight < 0 then toInt height else firstHeight
      if lastHeight > -1 ∧ (toBlockHeight lastHeight + 1) % 4294967296 ≠ height then
        return (firstHeight, lastHeight, lastHeight)
      else scanRows rows firstHeight (toInt height)

/-- `GetShortHashForHeightFromRpa`. -/
def shortHashFromRpa (s : RpaIndex) (height : Nat) : Except Exception (Option (BitVec 32)) :=
  match s.table[height]? with
  | none => .ok none
  | some row =>
      match tryDeserializePFT env height row with
      | .error e => .error e
      | .ok h => .ok (some h)

/-- `GetShortHashForHeightFromHeaders`. -/
def shortHashFromHeaders (height : Nat) : Option (BitVec 32) :=
  (env.hashForHeight height).map fun h => h.setWidth 32

/-- The check that the ends of the table belong to the active chain. -/
def checkActiveChain (s : RpaIndex) : Except Exception Unit := do
  if s.firstHeight > -1 then
    let firstHeight := toBlockHeight s.firstHeight
    let lastHeight := toBlockHeight s.lastHeight
    let firstShortHash ← shortHashFromRpa env s firstHeight
    let lastShortHash ← shortHashFromRpa env s lastHeight
    if shortHashFromHeaders env firstHeight ≠ firstShortHash ∨
        shortHashFromHeaders env lastHeight ≠ lastShortHash then
      .error (.databaseError "RPA db doesn't appear to cover the active chain")

/-- Deletion of the entries after a gap and of those above the tip. -/
def deleteUnneeded (s : RpaIndex) (forceDeleteAfterHeight : Int) : Except Exception RpaIndex :=
  if s.firstHeight > -1 ∧
      (env.currentHeight < s.lastHeight ∨ forceDeleteAfterHeight > -1) then
    let delheight :=
      if forceDeleteAfterHeight > -1 then min forceDeleteAfterHeight env.currentHeight
      else env.currentHeight
    s.deleteRpaEntriesFromHeight (toBlockHeight (max delheight (-1) + 1)) true
  else .ok s

/-- The `try` block of `loadCheckRpaDB`. -/
def checkTable (s : RpaIndex) (fullCheck : Bool) : Except Exception RpaIndex := do
  let rows := s.table.toList
  let (firstHeight, lastHeight, forceDeleteAfterHeight) ←
    if fullCheck then scanRows env rows (-1) (-1)
    else
      match loadRange env rows with
      | .error e => .error e
      | .ok (firstHeight, lastHeight) => .ok (firstHeight, lastHeight, -1)
  if lastHeight < firstHeight ∨
      ((lastHeight ≤ -1 ∨ firstHeight ≤ -1) ∧ lastHeight ≠ firstHeight) then
    .error (.internalError "Programming error in loadCheckRpaDB. FIXME!")
  else
    let s ← deleteUnneeded env { s with firstHeight := firstHeight, lastHeight := lastHeight }
      forceDeleteAfterHeight
    checkActiveChain env s
    return s

/-- What is left when the whole table is deleted. -/
def blowAway (s : RpaIndex) : Except Exception RpaIndex :=
  match s.deleteRpaEntriesFromHeight 0 true with
  | .error e => .error e
  | .ok s => .ok { s with firstHeight := -1, lastHeight := -1 }

/-- `Storage::loadCheckRpaDB`. -/
def loadCheckRpaDB (s : RpaIndex) : Except Exception RpaIndex := do
  let fullCheck := env.doSlowDbChecks || s.needsFullCheck
  let s ←
    match checkTable env s fullCheck with
    | .ok s => .ok s
    | .error e => if e.isDatabaseError then s.blowAway else .error e
  return { s with needsFullCheck := if fullCheck then false else s.needsFullCheck }

/-- `Storage::runRpaSlowCheckIfDBIsPotentiallyInconsistent`.  An exception is reported as
fatal, which ends the program. -/
def runRpaSlowCheck (s : RpaIndex) (configuredStartHeight tipHeight : Nat) :
    Except Exception (Bool × RpaIndex) :=
  if s.needsFullCheck then do
    let s ← s.clampRpaEntries configuredStartHeight tipHeight
    let s ← loadCheckRpaDB env s
    return (true, s)
  else .ok (false, s)

end Model

section Scan

variable {env : RpaCheckEnv}

theorem tryDeserializePFT_error {height : Nat} {row : RpaRow} {e : Exception}
    (h : tryDeserializePFT env height row = .error e) : e.isDatabaseError = true := by
  unfold tryDeserializePFT at h
  split at h <;> cases h <;> rfl

variable (env)

/-- The keys of a table without gaps. -/
theorem keys_eq_range {m : Std.ExtTreeMap Nat RpaRow compare} {a n : Nat}
    (h : ∀ x, x ∈ m ↔ a ≤ x ∧ x < a + n) : m.toList.map Prod.fst = List.range' a n := by
  rw [Std.ExtTreeMap.map_fst_toList_eq_keys]
  have hsorted : m.keys.Pairwise (· < ·) := by
    refine m.ordered_keys.imp ?_
    intro x y hxy
    exact Nat.compare_eq_lt.mp hxy
  have hmem : ∀ x, x ∈ m.keys ↔ x ∈ List.range' a n := by
    intro x
    rw [Std.ExtTreeMap.mem_keys, h, List.mem_range'_1]
  have hperm : m.keys.Perm (List.range' a n) :=
    (List.perm_ext_iff_of_nodup (hsorted.imp (fun h => Nat.ne_of_lt h)) List.nodup_range').mpr hmem
  exact hperm.eq_of_pairwise' hsorted (List.pairwise_lt_range')

/-- What the scan of a row without a gap before it does. -/
theorem scanRows_cons {height : Nat} (row : RpaRow) (rows : List (Nat × RpaRow))
    (firstHeight : Int) {lastHeight : Int} (hle : height ≤ intMax)
    (hnext : lastHeight = -1 ∨ lastHeight = height - 1) :
    (∃ e, scanRows env ((height, row) :: rows) firstHeight lastHeight = .error e ∧
      e.isDatabaseError = true) ∨
    scanRows env ((height, row) :: rows) firstHeight lastHeight =
      scanRows env rows (if firstHeight < 0 then (height : Int) else firstHeight) height := by
  have hthrow : throwIfNegative height = .ok () := if_neg (by omega)
  have hgap : ¬(lastHeight > -1 ∧ (toBlockHeight lastHeight + 1) % 4294967296 ≠ height) := by
    rintro ⟨hlast, hne⟩
    apply hne
    have hlast' : lastHeight = ((height - 1 : Nat) : Int) := by omega
    rw [hlast', toBlockHeight_natCast (by omega)]
    unfold intMax at hle
    omega
  rw [scanRows]
  simp only [hthrow, bind, Except.bind, if_neg hgap, toInt_of_le hle]
  cases hrow : tryDeserializePFT env height row with
  | error e => exact .inl ⟨e, rfl, tryDeserializePFT_error hrow⟩
  | ok short => exact .inr rfl

/-- The scan of rows without a gap. -/
theorem scanRows_range {rows : List (Nat × RpaRow)} :
    ∀ {a n : Nat} {firstHeight : Int}, rows.map Prod.fst = List.range' a n →
      a + n ≤ intMax + 1 → 0 < a → 0 ≤ firstHeight →
      (∃ e, scanRows env rows firstHeight ((a : Int) - 1) = .error e ∧ e.isDatabaseError = true) ∨
      scanRows env rows firstHeight ((a : Int) - 1) = .ok (firstHeight, (a : Int) + n - 1, -1) := by
  induction rows with
  | nil =>
      intro a n firstHeight hkeys _ _ _
      have hn : n = 0 := by
        have hlen := congrArg List.length hkeys
        simpa using hlen.symm
      subst hn
      right
      simp [scanRows]
  | cons r rows ih =>
      intro a n firstHeight hkeys hle ha hfirst
      obtain ⟨height, row⟩ := r
      cases n with
      | zero => simp at hkeys
      | succ n =>
          rw [List.map_cons, List.range'_succ, List.cons.injEq] at hkeys
          obtain ⟨rfl, hkeys⟩ := hkeys
          rcases scanRows_cons env row rows firstHeight (by omega : height ≤ intMax)
            (.inr rfl : (height : Int) - 1 = -1 ∨ _) with herr | heq
          · exact .inl herr
          · rw [heq, if_neg (by omega)]
            have ih' := ih hkeys (by omega) (by omega) hfirst
            rw [show ((height + 1 : Nat) : Int) - 1 = height by push_cast; omega] at ih'
            rcases ih' with herr | hok
            · exact .inl herr
            · right
              rw [hok]
              congr 3
              push_cast
              omega

/-- The scan of a table without gaps. -/
theorem scanRows_interval {s : RpaIndex} {a b : Nat} (hab : a ≤ b) (hb : b ≤ intMax)
    (hkeys : ∀ x, x ∈ s.table ↔ a ≤ x ∧ x ≤ b) :
    (∃ e, scanRows env s.table.toList (-1) (-1) = .error e ∧ e.isDatabaseError = true) ∨
      scanRows env s.table.toList (-1) (-1) = .ok ((a : Int), (b : Int), -1) := by
  have hrange : s.table.toList.map Prod.fst = List.range' a (b + 1 - a) :=
    keys_eq_range (fun x => by rw [hkeys]; omega)
  cases hrows : s.table.toList with
  | nil =>
      rw [hrows] at hrange
      have hlen := congrArg List.length hrange
      simp only [List.map_nil, List.length_nil, List.length_range'] at hlen
      omega
  | cons r rows =>
      obtain ⟨height, row⟩ := r
      rw [hrows, show b + 1 - a = b - a + 1 by omega, List.map_cons, List.range'_succ,
        List.cons.injEq] at hrange
      obtain ⟨rfl, hrange⟩ := hrange
      rcases scanRows_cons env row rows (-1) (by omega : height ≤ intMax)
        (.inl rfl : (-1 : Int) = -1 ∨ _) with herr | heq
      · exact .inl herr
      · have hrest := scanRows_range env hrange (by omega) (by omega)
          (by omega : (0 : Int) ≤ (height : Int))
        rw [show ((height + 1 : Nat) : Int) - 1 = height by push_cast; omega] at hrest
        rw [heq, if_pos (by omega)]
        rcases hrest with herr | hok
        · exact .inl herr
        · right
          rw [hok]
          congr 3
          push_cast
          omega

end Scan

section Check

variable {env : RpaCheckEnv}

/-- Everything is deleted. -/
theorem blowAway_isVoid (s : RpaIndex) :
    ∃ t, s.blowAway = .ok t ∧ t.IsVoid ∧ t.needsFullCheck = s.needsFullCheck := by
  unfold blowAway deleteRpaEntriesFromHeight
  rw [if_neg (by simp), if_neg (by unfold intMax; omega)]
  refine ⟨_, rfl, ⟨rfl, rfl, ?_⟩, rfl⟩
  rw [Std.ExtTreeMap.eq_empty_iff_forall_not_mem]
  intro x hx
  rw [mem_filter_key] at hx
  simp at hx

theorem shortHashFromRpa_error {s : RpaIndex} {height : Nat} {e : Exception}
    (h : shortHashFromRpa env s height = .error e) : e.isDatabaseError = true := by
  unfold shortHashFromRpa at h
  split at h
  · cases h
  · split at h
    · rename_i heq
      cases h
      exact tryDeserializePFT_error heq
    · cases h

/-- The check of the ends of the table fails with a database error only. -/
theorem checkActiveChain_error {s : RpaIndex} {e : Exception}
    (h : checkActiveChain env s = .error e) : e.isDatabaseError = true := by
  unfold checkActiveChain at h
  split_ifs at h with hfirst
  · dsimp only at h
    cases h1 : shortHashFromRpa env s (toBlockHeight s.firstHeight) with
    | error e' =>
        rw [h1] at h
        cases h
        exact shortHashFromRpa_error h1
    | ok a =>
        cases h2 : shortHashFromRpa env s (toBlockHeight s.lastHeight) with
        | error e' =>
            rw [h1, h2] at h
            cases h
            exact shortHashFromRpa_error h2
        | ok b =>
            rw [h1, h2] at h
            simp only [bind, Except.bind] at h
            split_ifs at h
            · cases h
              rfl
            · cases h
  · cases h

/-- The full check of a table without gaps that does not go past the tip. -/
theorem checkTable_interval {s : RpaIndex} {a b : Nat} (hab : a ≤ b) (hb : b ≤ intMax)
    (htip : (b : Int) ≤ env.currentHeight) (hkeys : ∀ x, x ∈ s.table ↔ a ≤ x ∧ x ≤ b) :
    (∃ e, checkTable env s true = .error e ∧ e.isDatabaseError = true) ∨
      ∃ t, checkTable env s true = .ok t ∧ t.Covers a b := by
  unfold checkTable
  rcases scanRows_interval env hab hb hkeys with ⟨e, herr, hdb⟩ | hok
  · left
    exact ⟨e, by simp [herr, bind, Except.bind], hdb⟩
  · simp only [if_true, hok, bind, Except.bind]
    rw [if_neg (by omega)]
    have hkeep : deleteUnneeded env { s with firstHeight := (a : Int), lastHeight := (b : Int) }
        (-1) = .ok { s with firstHeight := (a : Int), lastHeight := (b : Int) } := by
      unfold deleteUnneeded
      rw [if_neg]
      rintro ⟨-, h | h⟩
      · simp only at h
        omega
      · omega
    rw [hkeep]
    simp only
    cases hcheck : checkActiveChain env
        { s with firstHeight := (a : Int), lastHeight := (b : Int) } with
    | error e => exact .inl ⟨e, rfl, checkActiveChain_error hcheck⟩
    | ok u => exact .inr ⟨_, rfl, ⟨hab, hb, rfl, rfl, hkeys⟩⟩

/-- The full check of an empty table. -/
theorem checkTable_empty {s : RpaIndex} (hempty : s.table = ∅) :
    ∃ t, checkTable env s true = .ok t ∧ t.IsVoid := by
  have hscan : scanRows env s.table.toList (-1) (-1) = .ok (-1, -1, -1) := by
    rw [hempty, toList_empty]
    rfl
  unfold checkTable
  simp only [if_true, hscan, bind, Except.bind]
  rw [if_neg (by omega)]
  refine ⟨{ s with firstHeight := -1, lastHeight := -1 }, ?_, rfl, rfl, hempty⟩
  unfold deleteUnneeded checkActiveChain
  simp
  rfl

/-- The full check leaves what is there or nothing, and the flag is cleared. -/
theorem loadCheckRpaDB_of_checkTable (env : RpaCheckEnv) {s : RpaIndex} {P : RpaIndex → Prop}
    (hflag : s.needsFullCheck = true)
    (hP : ∀ t : RpaIndex, ∀ f, P t → P { t with needsFullCheck := f })
    (h : (∃ e, checkTable env s true = .error e ∧ e.isDatabaseError = true) ∨
      ∃ t, checkTable env s true = .ok t ∧ P t) :
    ∃ t, loadCheckRpaDB env s = .ok t ∧ t.needsFullCheck = false ∧ (t.IsVoid ∨ P t) := by
  unfold loadCheckRpaDB
  rw [hflag, Bool.or_true]
  rcases h with ⟨e, herr, hdb⟩ | ⟨t, hok, ht⟩
  · obtain ⟨t, hblow, hvoid, -⟩ := blowAway_isVoid s
    refine ⟨{ t with needsFullCheck := false }, ?_, rfl,
      .inl ⟨hvoid.first, hvoid.last, hvoid.table⟩⟩
    simp [herr, hdb, hblow, bind, Except.bind]
    rfl
  · refine ⟨{ t with needsFullCheck := false }, ?_, rfl, .inr (hP t false ht)⟩
    simp [hok, bind, Except.bind]
    rfl

/-- A range that is not marked as empty, or an empty table. -/
def Usable (s : RpaIndex) : Prop := s.IsVoid ∨ (0 ≤ s.firstHeight ∧ 0 ≤ s.lastHeight)

theorem deleteTo_usable {s : RpaIndex} (hs : s.Usable) {height : Nat} (hle : height < intMax) :
    ∃ t, s.deleteRpaEntriesToHeight height false = .ok t ∧ t.Usable ∧
      t.needsFullCheck = s.needsFullCheck ∧ ∀ x, x ∈ t.table ↔ x ∈ s.table ∧ height < x := by
  rcases hs with hvoid | ⟨hfirst, hlast⟩
  · refine ⟨s, ?_, .inl hvoid, rfl, by simp [hvoid.table]⟩
    rw [deleteRpaEntriesToHeight, if_pos ⟨rfl, by rw [hvoid.last]⟩]
  · rw [deleteRpaEntriesToHeight, if_neg (by omega), if_neg (by omega)]
    refine ⟨_, rfl, .inr ⟨?_, hlast⟩, rfl, ?_⟩
    · dsimp only
      rw [toInt_of_le (by omega)]
      split_ifs <;> omega
    · intro x
      rw [mem_filter_key, decide_eq_true_iff]
      exact and_congr_right fun _ => by omega

theorem deleteFrom_usable {s : RpaIndex} (hs : s.Usable) {height : Nat} (hle : height ≤ intMax) :
    ∃ t, s.deleteRpaEntriesFromHeight height false = .ok t ∧
      t.needsFullCheck = s.needsFullCheck ∧ ∀ x, x ∈ t.table ↔ x ∈ s.table ∧ x < height := by
  rcases hs with hvoid | ⟨hfirst, -⟩
  · refine ⟨s, ?_, rfl, by simp [hvoid.table]⟩
    rw [deleteRpaEntriesFromHeight, if_pos ⟨rfl, by rw [hvoid.first]⟩]
  · rw [deleteRpaEntriesFromHeight, if_neg (by omega), if_neg (by omega)]
    refine ⟨_, rfl, rfl, ?_⟩
    intro x
    rw [mem_filter_key, decide_eq_true_iff]

/-- Clamping leaves the rows inside the range. -/
theorem clamp_usable {s : RpaIndex} (hs : s.Usable) {cf tip : Nat} (hcf : cf ≤ tip)
    (htip : tip < intMax) :
    ∃ t, s.clampRpaEntries cf tip = .ok t ∧ t.needsFullCheck = s.needsFullCheck ∧
      ∀ x, x ∈ t.table ↔ x ∈ s.table ∧ cf ≤ x ∧ x ≤ tip := by
  have hlower : ∃ m, (if cf > 0 then s.deleteRpaEntriesToHeight (cf - 1) false else .ok s) =
      .ok m ∧ m.Usable ∧ m.needsFullCheck = s.needsFullCheck ∧
      ∀ x, x ∈ m.table ↔ x ∈ s.table ∧ cf ≤ x := by
    split_ifs with hpos
    · obtain ⟨m, hm, husable, hflag, hmem⟩ := deleteTo_usable hs (by omega : cf - 1 < intMax)
      refine ⟨m, hm, husable, hflag, fun x => ?_⟩
      rw [hmem]
      exact and_congr_right fun _ => by omega
    · refine ⟨s, rfl, hs, rfl, fun x => ?_⟩
      simp only [iff_self_and]
      omega
  obtain ⟨m, hm, husable, hflag, hmem⟩ := hlower
  obtain ⟨t, ht, hflag', hmem'⟩ := deleteFrom_usable husable (by omega : tip + 1 ≤ intMax)
  refine ⟨t, ?_, hflag'.trans hflag, fun x => ?_⟩
  · unfold clampRpaEntries
    rw [hm]
    unfold intMax at htip
    simp only [if_pos (by omega : tip < 4294967295), ht]
  · rw [hmem', hmem, and_assoc]
    exact and_congr_right fun _ => by omega

/-- The slow check of a flagged table whose rows in the range have no gap. -/
theorem runRpaSlowCheck_clamps {s : RpaIndex} (hs : s.Usable) (hflag : s.needsFullCheck = true)
    {cf tip a b : Nat} (hcf : cf ≤ tip) (htip : tip < intMax) (henv : env.currentHeight = tip)
    (hab : a ≤ b) (hb : b ≤ tip)
    (hkeys : ∀ x, x ∈ s.table ∧ cf ≤ x ∧ x ≤ tip ↔ a ≤ x ∧ x ≤ b) :
    ∃ t, runRpaSlowCheck env s cf tip = .ok (true, t) ∧ t.needsFullCheck = false ∧
      (t.IsVoid ∨ t.Covers a b) := by
  obtain ⟨m, hm, hmflag, hmem⟩ := clamp_usable hs hcf htip
  obtain ⟨t, ht, htflag, hcase⟩ := loadCheckRpaDB_of_checkTable env
    (P := fun t => t.Covers a b) (hmflag.trans hflag)
    (fun t f h => ⟨h.le, h.le_intMax, h.first, h.last, h.mem_iff⟩)
    (checkTable_interval hab (by omega) (by rw [henv]; omega)
      (fun x => (hmem x).trans (hkeys x)))
  refine ⟨t, ?_, htflag, hcase⟩
  rw [runRpaSlowCheck, if_pos hflag]
  simp [hm, ht, bind, Except.bind]
  rfl

/-- The slow check of a flagged table without rows in the range. -/
theorem runRpaSlowCheck_none (env : RpaCheckEnv) {s : RpaIndex} (hs : s.Usable)
    (hflag : s.needsFullCheck = true) {cf tip : Nat} (hcf : cf ≤ tip) (htip : tip < intMax)
    (hkeys : ∀ x, ¬(x ∈ s.table ∧ cf ≤ x ∧ x ≤ tip)) :
    ∃ t, runRpaSlowCheck env s cf tip = .ok (true, t) ∧ t.needsFullCheck = false ∧
      t.IsVoid := by
  obtain ⟨m, hm, hmflag, hmem⟩ := clamp_usable hs hcf htip
  have hempty : m.table = ∅ := by
    rw [Std.ExtTreeMap.eq_empty_iff_forall_not_mem]
    intro x hx
    exact hkeys x ((hmem x).mp hx)
  obtain ⟨t, ht, htflag, hcase⟩ := loadCheckRpaDB_of_checkTable env
    (P := IsVoid) (hmflag.trans hflag) (fun t f h => ⟨h.first, h.last, h.table⟩)
    (.inr (checkTable_empty hempty))
  refine ⟨t, ?_, htflag, hcase.elim id id⟩
  rw [runRpaSlowCheck, if_pos hflag]
  simp [hm, ht, bind, Except.bind]
  rfl

end Check

section Add

/-- The next height is added to a range. -/
theorem Covers.addNext {s : RpaIndex} {a b : Nat} (hc : s.Covers a b) (hb : b + 1 ≤ intMax)
    (bhash : Hash) (ser : List UInt8) :
    (s.addRpaDataForHeight (b + 1) bhash ser).Covers a (b + 1) ∧
      (s.addRpaDataForHeight (b + 1) bhash ser).needsFullCheck = s.needsFullCheck := by
  have hab := hc.le
  have hnext : ¬(s.lastHeight > -1 ∧ s.lastHeight ≠ ((b + 1 : Nat) : Int) - 1) := by
    rw [hc.last]
    omega
  have hbelow : ¬(s.firstHeight > -1 ∧ s.firstHeight > ((b + 1 : Nat) : Int)) := by
    rw [hc.first]
    omega
  unfold addRpaDataForHeight
  simp only [toInt_of_le hb, if_neg hbelow]
  refine ⟨⟨by omega, hb, ?_, rfl, ?_⟩, ?_⟩
  · rw [if_neg (by rw [hc.first]; omega), hc.first]
  · intro x
    simp only [Std.ExtTreeMap.mem_insert, hc.mem_iff, Nat.compare_eq_eq]
    omega
  · simp only [decide_eq_false hnext, decide_eq_false hbelow, Bool.or_false]

/-- The first height of an empty table. -/
theorem IsVoid.addFirst {s : RpaIndex} (hv : s.IsVoid) {height : Nat} (hle : height ≤ intMax)
    (bhash : Hash) (ser : List UInt8) :
    (s.addRpaDataForHeight height bhash ser).Covers height height ∧
      (s.addRpaDataForHeight height bhash ser).needsFullCheck = s.needsFullCheck := by
  unfold addRpaDataForHeight
  simp only [toInt_of_le hle, hv.first, hv.last, hv.table]
  refine ⟨⟨le_rfl, hle, by simp, rfl, ?_⟩, by simp⟩
  intro x
  simp only [Std.ExtTreeMap.mem_insert, Std.ExtTreeMap.not_mem_empty, Nat.compare_eq_eq,
    or_false]
  omega

end Add

end RpaIndex
end Storage
end Shulcrum
