import Mathlib.Order.Bounds.Basic
import Mathlib.Tactic
import Shulcrum.Lib.Invariant
import Shulcrum.Lib.TreeMap
import Shulcrum.Types

/-!
# The height range of the RPA index

The `rpa` table maps block heights to serialized prefix tables.  The first and
last height it holds are kept in two integers, which every mutator updates by
case analysis instead of asking the table.

**Results.**
* `apply_tracked`: an operation that keeps at least one entry, or deletes from
  height zero, or finds the table empty, keeps the range exact.
* `heightsTracked_of_reachable`: the range is exact in every run of such
  operations, until the full-check flag is raised.
-/

namespace Shulcrum
namespace Storage

open Invariant TreeMap

/-- `std::numeric_limits<int>::max()`. -/
def intMax : Nat := 2147483647

/-- Conversion of an unsigned 32-bit value to `int`. -/
def toInt (n : Nat) : Int := (n : Int).bmod 4294967296

/-- Conversion of an `int` to an unsigned 32-bit block height. -/
def toBlockHeight (i : Int) : Nat := (i % 4294967296).toNat

/-- A row of the table: the last bytes of the block hash and the prefix table. -/
structure RpaRow where
  shortBlockHash : BitVec 32
  ser : List UInt8
  deriving DecidableEq

/-- The `rpa` table, its cached range and the full-check flag. -/
structure RpaIndex where
  table : Std.ExtTreeMap Nat RpaRow compare := ∅
  firstHeight : Int := -1
  lastHeight : Int := -1
  needsFullCheck : Bool := false

namespace RpaIndex

/-- `Storage::addRpaDataForHeight_nolock`. -/
def addRpaDataForHeight (s : RpaIndex) (height : Nat) (bhash : Hash)
    (ser : List UInt8) : RpaIndex :=
  let table := s.table.insert height ⟨bhash.setWidth 32, ser⟩
  let notNext := s.lastHeight > -1 ∧ s.lastHeight ≠ toInt height - 1
  let below := s.firstHeight > -1 ∧ s.firstHeight > toInt height
  let firstHeight := if below then toInt height else s.firstHeight
  { table := table
    firstHeight := if firstHeight < 0 then toInt height else firstHeight
    lastHeight := toInt height
    needsFullCheck := s.needsFullCheck || decide notNext || decide below }

/-- `Storage::deleteRpaEntriesFromHeight`. -/
def deleteRpaEntriesFromHeight (s : RpaIndex) (height : Nat) (force : Bool) :
    Except Exception RpaIndex :=
  if force = false ∧ s.firstHeight ≤ -1 then .ok s
  else if height > intMax then
    .error (.internalError "Bad argument to deleteRpaEntriesFromHeight")
  else
    let lastHeight :=
      if s.lastHeight > -1 ∧ toBlockHeight s.lastHeight ≥ height then
        if height > 0 then toInt (height - 1) else -1
      else s.lastHeight
    .ok { s with
      table := s.table.filter fun h _ => h < height
      lastHeight := lastHeight
      firstHeight := if s.firstHeight > lastHeight then lastHeight else s.firstHeight }

/-- `Storage::deleteRpaEntriesToHeight`. -/
def deleteRpaEntriesToHeight (s : RpaIndex) (height : Nat) (force : Bool) :
    Except Exception RpaIndex :=
  if force = false ∧ s.lastHeight ≤ -1 then .ok s
  else if height > intMax then
    .error (.internalError "Bad argument to deleteRpaEntriesToHeight")
  else
    let firstHeight :=
      if s.firstHeight > -1 ∧ toBlockHeight s.firstHeight ≤ height then toInt (height + 1)
      else s.firstHeight
    .ok { s with
      table := s.table.filter fun h _ => ¬ h < height + 1
      firstHeight := if firstHeight > s.lastHeight then s.lastHeight else firstHeight }

/-- `Storage::clampRpaEntries_nolock`. -/
def clampRpaEntries (s : RpaIndex) (fromHeight toHeight : Nat) :
    Except Exception RpaIndex :=
  match if fromHeight > 0 then s.deleteRpaEntriesToHeight (fromHeight - 1) false else .ok s with
  | .error e => .error e
  | .ok s =>
      if toHeight < 4294967295 then s.deleteRpaEntriesFromHeight (toHeight + 1) false else .ok s

/--
The calls made by block processing and by the controller.  Undoing an indexed
block at height `h` is `deleteFrom h false`.
-/
inductive Op where
  | add (height : Nat) (bhash : Hash) (ser : List UInt8)
  | deleteFrom (height : Nat) (force : Bool)
  | deleteTo (height : Nat) (force : Bool)
  | clamp (fromHeight toHeight : Nat)

def apply (s : RpaIndex) : Op → Except Exception RpaIndex
  | .add height bhash ser => .ok (s.addRpaDataForHeight height bhash ser)
  | .deleteFrom height force => s.deleteRpaEntriesFromHeight height force
  | .deleteTo height force => s.deleteRpaEntriesToHeight height force
  | .clamp fromHeight toHeight => s.clampRpaEntries fromHeight toHeight

/-- The cached range is the range of the keys, and `-1` for no key at all. -/
def HeightsTracked (s : RpaIndex) : Prop :=
  (∀ a : Nat, IsLeast {h : Nat | h ∈ s.table} a → s.firstHeight = a) ∧
    (∀ b : Nat, IsGreatest {h : Nat | h ∈ s.table} b → s.lastHeight = b) ∧
    ((s.firstHeight = -1 ∧ s.lastHeight = -1) ↔ ∀ h, h ∉ s.table)

/--
The operation does not empty a table that has entries, except by deleting from
height zero, and adds at a height that fits an `int`.
-/
def Keeps (s : RpaIndex) : Op → Prop
  | .add height _ _ => height ≤ intMax
  | .deleteFrom height _ => s.table = ∅ ∨ height = 0 ∨ s.firstHeight < height
  | .deleteTo height _ => s.table = ∅ ∨ height < s.lastHeight
  | .clamp fromHeight toHeight =>
      s.table = ∅ ∨
        (fromHeight ≤ s.lastHeight ∧ s.firstHeight ≤ toHeight ∧ fromHeight ≤ toHeight)

/-- The table holds the heights from `a` to `b`, and the range says so. -/
structure Covers (s : RpaIndex) (a b : Nat) : Prop where
  le : a ≤ b
  le_intMax : b ≤ intMax
  first : s.firstHeight = a
  last : s.lastHeight = b
  mem_iff : ∀ h, h ∈ s.table ↔ a ≤ h ∧ h ≤ b

/-- The table is empty, and the range says so. -/
structure IsVoid (s : RpaIndex) : Prop where
  first : s.firstHeight = -1
  last : s.lastHeight = -1
  table : s.table = ∅

/-- As long as no full check is due, the table holds an interval of heights. -/
def Tracked (s : RpaIndex) : Prop :=
  s.needsFullCheck = false → s.IsVoid ∨ ∃ a b, s.Covers a b

theorem toInt_of_le {n : Nat} (h : n ≤ intMax) : toInt n = n := by
  simp only [intMax] at h
  exact Int.bmod_eq_of_le (by omega) (by omega)

theorem toBlockHeight_natCast {n : Nat} (h : n ≤ intMax) : toBlockHeight n = n := by
  simp only [intMax] at h
  rw [toBlockHeight, Int.emod_eq_of_lt (by omega) (by omega), Int.toNat_natCast]

theorem Covers.table_ne_empty {s : RpaIndex} {a b : Nat} (h : s.Covers a b) : s.table ≠ ∅ := by
  intro hempty
  have ha : a ∈ s.table := (h.mem_iff a).mpr ⟨le_rfl, h.le⟩
  simp [hempty] at ha

theorem IsVoid.heightsTracked {s : RpaIndex} (h : s.IsVoid) : s.HeightsTracked := by
  refine ⟨?_, ?_, by simp [h.first, h.last, h.table]⟩
  · rintro a ⟨ha, -⟩
    simp [h.table] at ha
  · rintro b ⟨hb, -⟩
    simp [h.table] at hb

theorem Covers.heightsTracked {s : RpaIndex} {a b : Nat} (h : s.Covers a b) :
    s.HeightsTracked := by
  have ha : a ∈ s.table := (h.mem_iff a).mpr ⟨le_rfl, h.le⟩
  have hb : b ∈ s.table := (h.mem_iff b).mpr ⟨h.le, le_rfl⟩
  refine ⟨?_, ?_, ?_⟩
  · rintro x ⟨hx, hlow⟩
    have h1 := ((h.mem_iff x).mp hx).1
    have h2 : x ≤ a := hlow ha
    rw [h.first]
    omega
  · rintro x ⟨hx, hup⟩
    have h1 := ((h.mem_iff x).mp hx).2
    have h2 : b ≤ x := hup hb
    rw [h.last]
    omega
  · constructor
    · rintro ⟨h1, -⟩
      rw [h.first] at h1
      omega
    · intro hnone
      exact absurd ha (hnone a)

/-- A table with entries extended at its upper end, or any table out of order. -/
theorem Tracked.add {s : RpaIndex} (h : s.Tracked) {height : Nat} (hle : height ≤ intMax)
    (bhash : Hash) (ser : List UInt8) : (s.addRpaDataForHeight height bhash ser).Tracked := by
  intro hflag
  simp only [addRpaDataForHeight, toInt_of_le hle, Bool.or_eq_false_iff,
    decide_eq_false_iff_not] at hflag
  obtain ⟨⟨hfull, hnext⟩, hbelow⟩ := hflag
  right
  rcases h hfull with hvoid | ⟨a, b, hc⟩
  · refine ⟨height, height, le_rfl, hle, ?_, ?_, ?_⟩
    · simp [addRpaDataForHeight, toInt_of_le hle, hvoid.first]
    · simp [addRpaDataForHeight, toInt_of_le hle]
    · intro x
      simp [addRpaDataForHeight, hvoid.table]
      omega
  · have hb : (height : Int) = b + 1 := by
      rw [hc.last] at hnext
      omega
    have hab := hc.le
    refine ⟨a, height, by omega, hle, ?_, ?_, ?_⟩
    · have hnot : ¬ ((a : Int) > -1 ∧ (a : Int) > height) := by omega
      simp only [addRpaDataForHeight, toInt_of_le hle, hc.first, if_neg hnot]
      rw [if_neg (by omega)]
    · simp [addRpaDataForHeight, toInt_of_le hle]
    · intro x
      simp only [addRpaDataForHeight, Std.ExtTreeMap.mem_insert, hc.mem_iff,
        Nat.compare_eq_eq]
      omega

theorem deleteRpaEntriesFromHeight_flag {s t : RpaIndex} {height : Nat} {force : Bool}
    (h : s.deleteRpaEntriesFromHeight height force = .ok t) :
    t.needsFullCheck = s.needsFullCheck := by
  unfold deleteRpaEntriesFromHeight at h
  split_ifs at h <;> cases h <;> rfl

theorem deleteRpaEntriesToHeight_flag {s t : RpaIndex} {height : Nat} {force : Bool}
    (h : s.deleteRpaEntriesToHeight height force = .ok t) :
    t.needsFullCheck = s.needsFullCheck := by
  unfold deleteRpaEntriesToHeight at h
  split_ifs at h <;> cases h <;> rfl

theorem IsVoid.deleteFrom {s t : RpaIndex} (hv : s.IsVoid) {height : Nat} {force : Bool}
    (h : s.deleteRpaEntriesFromHeight height force = .ok t) : t.IsVoid := by
  have hlast : ¬ ((-1 : Int) > -1 ∧ toBlockHeight (-1) ≥ height) := by omega
  rw [deleteRpaEntriesFromHeight, hv.first, hv.last, hv.table] at h
  simp only [if_neg hlast, filter_empty] at h
  split_ifs at h
  all_goals
    cases h
    exact ⟨by simp [hv.first], by simp [hv.last], by simp [hv.table]⟩

theorem IsVoid.deleteTo {s t : RpaIndex} (hv : s.IsVoid) {height : Nat} {force : Bool}
    (h : s.deleteRpaEntriesToHeight height force = .ok t) : t.IsVoid := by
  have hfirst : ¬ ((-1 : Int) > -1 ∧ toBlockHeight (-1) ≤ height) := by omega
  rw [deleteRpaEntriesToHeight, hv.first, hv.last, hv.table] at h
  simp only [if_neg hfirst, filter_empty] at h
  split_ifs at h
  all_goals
    cases h
    exact ⟨by simp [hv.first], by simp [hv.last], by simp [hv.table]⟩

/-- Deleting from a height inside or above the range. -/
theorem Covers.deleteFrom {s t : RpaIndex} {a b : Nat} (hc : s.Covers a b) {height : Nat}
    {force : Bool} (hlt : a < height)
    (h : s.deleteRpaEntriesFromHeight height force = .ok t) :
    t.Covers a (min b (height - 1)) := by
  have hab := hc.le
  have hb := hc.le_intMax
  rw [deleteRpaEntriesFromHeight, if_neg (by rw [hc.first]; omega)] at h
  by_cases hbig : height > intMax
  · rw [if_pos hbig] at h
    cases h
  rw [if_neg hbig] at h
  have hlast : (if s.lastHeight > -1 ∧ toBlockHeight s.lastHeight ≥ height then
      if height > 0 then toInt (height - 1) else -1 else s.lastHeight) =
      ((min b (height - 1) : Nat) : Int) := by
    rw [hc.last, toBlockHeight_natCast hb, toInt_of_le (by omega)]
    split_ifs <;> omega
  have hfirst : ¬ (a : Int) > ((min b (height - 1) : Nat) : Int) := by omega
  simp only [hlast, hc.first, if_neg hfirst] at h
  cases h
  refine ⟨by omega, by omega, rfl, rfl, ?_⟩
  intro x
  rw [mem_filter_key, hc.mem_iff, decide_eq_true_iff]
  omega

/-- Deleting everything from height zero on. -/
theorem Covers.deleteFrom_zero {s t : RpaIndex} {a b : Nat} (hc : s.Covers a b)
    {force : Bool} (h : s.deleteRpaEntriesFromHeight 0 force = .ok t) : t.IsVoid := by
  have hcond : s.lastHeight > -1 ∧ toBlockHeight s.lastHeight ≥ 0 := by
    rw [hc.last]
    omega
  rw [deleteRpaEntriesFromHeight, if_neg (by rw [hc.first]; omega), if_neg (by decide)] at h
  simp only [if_pos hcond] at h
  cases h
  refine ⟨?_, by simp, ?_⟩
  · simp [hc.first]
    omega
  · rw [Std.ExtTreeMap.eq_empty_iff_forall_not_mem]
    intro x hx
    rw [mem_filter_key] at hx
    simp at hx

/-- Deleting up to a height below the last one. -/
theorem Covers.deleteTo {s t : RpaIndex} {a b : Nat} (hc : s.Covers a b) {height : Nat}
    {force : Bool} (hlt : height < b)
    (h : s.deleteRpaEntriesToHeight height force = .ok t) :
    t.Covers (max a (height + 1)) b := by
  have hab := hc.le
  have hb := hc.le_intMax
  rw [deleteRpaEntriesToHeight, if_neg (by rw [hc.last]; omega), if_neg (by omega)] at h
  have hfirst : (if s.firstHeight > -1 ∧ toBlockHeight s.firstHeight ≤ height then
      toInt (height + 1) else s.firstHeight) = ((max a (height + 1) : Nat) : Int) := by
    rw [hc.first, toBlockHeight_natCast (by omega), toInt_of_le (by omega)]
    split_ifs <;> omega
  have hle : ¬ ((max a (height + 1) : Nat) : Int) > (b : Int) := by omega
  simp only [hfirst, hc.last, if_neg hle] at h
  cases h
  refine ⟨by omega, hb, rfl, rfl, ?_⟩
  intro x
  rw [mem_filter_key, hc.mem_iff, decide_eq_true_iff]
  omega

theorem Tracked.deleteFrom {s t : RpaIndex} (hs : s.Tracked) {height : Nat} {force : Bool}
    (hk : s.Keeps (.deleteFrom height force))
    (h : s.deleteRpaEntriesFromHeight height force = .ok t) : t.Tracked := by
  intro hflag
  rw [deleteRpaEntriesFromHeight_flag h] at hflag
  rcases hs hflag with hv | ⟨a, b, hc⟩
  · exact .inl (hv.deleteFrom h)
  · rcases hk with hempty | rfl | hlt
    · exact absurd hempty hc.table_ne_empty
    · exact .inl (hc.deleteFrom_zero h)
    · rw [hc.first] at hlt
      exact .inr ⟨_, _, hc.deleteFrom (by omega) h⟩

theorem Tracked.deleteTo {s t : RpaIndex} (hs : s.Tracked) {height : Nat} {force : Bool}
    (hk : s.Keeps (.deleteTo height force))
    (h : s.deleteRpaEntriesToHeight height force = .ok t) : t.Tracked := by
  intro hflag
  rw [deleteRpaEntriesToHeight_flag h] at hflag
  rcases hs hflag with hv | ⟨a, b, hc⟩
  · exact .inl (hv.deleteTo h)
  · rcases hk with hempty | hlt
    · exact absurd hempty hc.table_ne_empty
    · rw [hc.last] at hlt
      exact .inr ⟨_, _, hc.deleteTo (by omega) h⟩

/-- The second half of a clamp, on a range that starts at `a` and meets `toHeight`. -/
theorem Covers.clampUpper {s t : RpaIndex} {a b toHeight : Nat} (hc : s.Covers a b)
    (hle : a ≤ toHeight)
    (h : (if toHeight < 4294967295 then s.deleteRpaEntriesFromHeight (toHeight + 1) false
      else .ok s) = .ok t) : ∃ a b, t.Covers a b := by
  split_ifs at h
  · exact ⟨_, _, hc.deleteFrom (by omega) h⟩
  · cases h
    exact ⟨a, b, hc⟩

theorem clampRpaEntries_ok {s t : RpaIndex} {fromHeight toHeight : Nat}
    (h : s.clampRpaEntries fromHeight toHeight = .ok t) :
    ∃ m, (if fromHeight > 0 then s.deleteRpaEntriesToHeight (fromHeight - 1) false
        else .ok s) = .ok m ∧
      (if toHeight < 4294967295 then m.deleteRpaEntriesFromHeight (toHeight + 1) false
        else .ok m) = .ok t := by
  unfold clampRpaEntries at h
  cases hm : (if fromHeight > 0 then s.deleteRpaEntriesToHeight (fromHeight - 1) false
      else .ok s) with
  | error e =>
      rw [hm] at h
      cases h
  | ok m =>
      rw [hm] at h
      exact ⟨m, rfl, h⟩

theorem Tracked.clamp {s t : RpaIndex} (hs : s.Tracked) {fromHeight toHeight : Nat}
    (hk : s.Keeps (.clamp fromHeight toHeight))
    (h : s.clampRpaEntries fromHeight toHeight = .ok t) : t.Tracked := by
  intro hflag
  obtain ⟨m, hm, ht⟩ := clampRpaEntries_ok h
  have hmflag : m.needsFullCheck = s.needsFullCheck := by
    split_ifs at hm
    · exact deleteRpaEntriesToHeight_flag hm
    · cases hm
      rfl
  have htflag : t.needsFullCheck = m.needsFullCheck := by
    split_ifs at ht
    · exact deleteRpaEntriesFromHeight_flag ht
    · cases ht
      rfl
  rw [htflag, hmflag] at hflag
  rcases hs hflag with hv | ⟨a, b, hc⟩
  · left
    have hmv : m.IsVoid := by
      split_ifs at hm
      · exact hv.deleteTo hm
      · cases hm
        exact hv
    split_ifs at ht
    · exact hmv.deleteFrom ht
    · cases ht
      exact hmv
  · right
    rcases hk with hempty | ⟨h1, h2, h3⟩
    · exact absurd hempty hc.table_ne_empty
    · rw [hc.last] at h1
      rw [hc.first] at h2
      split_ifs at hm
      · exact (hc.deleteTo (by omega) hm).clampUpper (by omega) ht
      · cases hm
        exact hc.clampUpper (by omega) ht

/-- Every operation that keeps part of the range keeps the range exact. -/
theorem apply_tracked {s t : RpaIndex} (hs : s.Tracked) {op : Op} (hk : s.Keeps op)
    (h : s.apply op = .ok t) : t.Tracked := by
  cases op with
  | add height bhash ser =>
      cases h
      exact hs.add hk bhash ser
  | deleteFrom height force => exact hs.deleteFrom hk h
  | deleteTo height force => exact hs.deleteTo hk h
  | clamp fromHeight toHeight => exact hs.clamp hk h

/-- One call that returns. -/
def Step (s t : RpaIndex) : Prop := ∃ op, s.apply op = .ok t

/-- One call that returns and meets `Keeps`. -/
def KeepingStep (s t : RpaIndex) : Prop := ∃ op, s.Keeps op ∧ s.apply op = .ok t

/--
In every run from the empty table whose calls keep part of the range, the range
is the range of the keys, until the full-check flag is raised.
-/
theorem heightsTracked_of_reachable {s : RpaIndex}
    (hs : Reachable (fun s => s = {}) KeepingStep s) (hflag : s.needsFullCheck = false) :
    s.HeightsTracked := by
  have htracked : s.Tracked := by
    refine hs.invariant ?_ ?_
    · rintro s rfl hflag
      exact .inl ⟨rfl, rfl, rfl⟩
    · rintro s t hst ⟨op, hk, hop⟩
      exact apply_tracked hst hk hop
  rcases htracked hflag with hv | ⟨a, b, hc⟩
  · exact hv.heightsTracked
  · exact hc.heightsTracked

/-- Two blocks indexed at heights ten and eleven. -/
def tenEleven : RpaIndex :=
  (({} : RpaIndex).addRpaDataForHeight 10 0 []).addRpaDataForHeight 11 0 []

/-- Then the second block is undone. -/
theorem heightsTracked_tenEleven : ∃ s, tenEleven.deleteRpaEntriesFromHeight 11 false = .ok s ∧
    s.lastHeight = 10 ∧ s.HeightsTracked := by
  have hten : KeepingStep {} (({} : RpaIndex).addRpaDataForHeight 10 0 []) :=
    ⟨.add 10 0 [], by simp [Keeps, intMax], rfl⟩
  have heleven : KeepingStep (({} : RpaIndex).addRpaDataForHeight 10 0 []) tenEleven :=
    ⟨.add 11 0 [], by simp [Keeps, intMax], rfl⟩
  have hdelete : tenEleven.deleteRpaEntriesFromHeight 11 false =
      .ok ⟨tenEleven.table.filter fun h _ => h < 11, 10, 10, false⟩ := rfl
  exact ⟨_, hdelete, rfl, heightsTracked_of_reachable
    (.next (.next (.next (.start rfl) hten) heleven)
      ⟨.deleteFrom 11 false, .inr (.inr (by decide)), hdelete⟩) rfl⟩

/-- Indexing one block and undoing it leaves the range at the height below it. -/
theorem undo_only_indexed_block_untracked :
    ¬ ∀ s : RpaIndex, Reachable (fun s => s = {}) Step s → s.needsFullCheck = false →
      s.HeightsTracked := by
  intro h
  have hrun : Reachable (fun s => s = {}) Step
      { table := ∅, firstHeight := 9, lastHeight := 9, needsFullCheck := false } := by
    refine .next (.next (.start rfl) ⟨.add 10 0 [], rfl⟩) ⟨.deleteFrom 10 false, ?_⟩
    have hgone : (((∅ : Std.ExtTreeMap Nat RpaRow compare).insert 10 ⟨0, []⟩).filter
        fun h _ => h < 10) = ∅ := by
      rw [Std.ExtTreeMap.eq_empty_iff_forall_not_mem]
      intro x hx
      rw [mem_filter_key, Std.ExtTreeMap.mem_insert] at hx
      simp at hx
      omega
    exact congrArg (fun t => Except.ok (RpaIndex.mk t 9 9 false)) hgone
  have := (h _ hrun rfl).2.2.mpr (by simp)
  simp at this

end RpaIndex
end Storage
end Shulcrum
