import Shulcrum.Header.Codec
import Shulcrum.Storage.Model

/-!
# The undo check at startup

The undo table has one record for each of the last blocks, by height.  At
startup the table is read through once.  Records below a hole cannot be used
and are deleted, and so are the oldest ones if the configured depth was
lowered.

**Results.**
* `firstContig_spec`: the loop that looks for a hole.
* `closeHoles_spec`, `cutToDepth_spec`: the two deletions.
* `loadCheckEarliestUndo_ok`: what the check leaves.
-/

namespace Shulcrum
namespace Storage

open TreeMap BTC

/-! ## The check -/

/-- The undo table by its keys.  A value that does not deserialize is `none`. -/
abbrev UndoTable := Std.ExtTreeMap (List UInt8) (Option UndoInfo) compare

/-- `SerializeScalarEphemeral</*BigEndian=*/true>` of a height. -/
def heightKey (height : Nat) : List UInt8 := beBytes 4 height

/-- What is known of the table while it is read. -/
structure UndoScan where
  earliestUndoHeight : Nat := invalidUndoHeight
  swissCheeseDetector : Std.ExtTreeSet Nat compare := ∅
  ctr : Nat := 0

/-- One round of the loop over the table. -/
def UndoScan.visit (sc : UndoScan) (key : List UInt8) : Except Exception UndoScan :=
  if key.length ≠ 4 then
    .error (.databaseFormatError
      "Unexpected key in undo database. We expect only 32-bit unsigned ints!")
  else
    let height := ofBE key
    .ok
      { earliestUndoHeight :=
          if height < sc.earliestUndoHeight then height else sc.earliestUndoHeight
        swissCheeseDetector := sc.swissCheeseDetector.insert height
        ctr := (sc.ctr + 1) % 2 ^ 32 }

/-- The loop that looks for a hole, down from `rprev`: the lowest height before the first one. -/
def firstContig (rprev : Nat) : List Nat → Nat
  | [] => rprev
  | rit :: rest => if rprev - rit = 1 then firstContig rit rest else rprev

/-- The records below the first hole are deleted. -/
def closeHoles (cf : UndoTable) (sc : UndoScan) : UndoTable × UndoScan :=
  match sc.swissCheeseDetector.toList.reverse with
  | [] => (cf, sc)
  | last :: rest =>
      let testval := (last - (last :: rest).getLast (List.cons_ne_nil _ _) + 1) % 2 ^ 32
      if testval ≠ sc.ctr then
        let eraseUntil := firstContig last rest
        let dels := sc.swissCheeseDetector.toList.filter (· < eraseUntil)
        let heights := dels.foldl (fun set h => set.erase h) sc.swissCheeseDetector
        (dels.foldl (fun cf h => cf.erase (heightKey h)) cf,
          { earliestUndoHeight := heights.min?.getD invalidUndoHeight
            swissCheeseDetector := heights
            ctr := heights.size })
      else (cf, sc)

/-- The latest record is read. -/
def checkLatestUndo (cf : UndoTable) (sc : UndoScan) : Except Exception Unit :=
  match sc.swissCheeseDetector.toList.getLast? with
  | none => .ok ()
  | some height =>
      match cf[heightKey height]? with
      | some (some _) => .ok ()
      | some none =>
          .error (.databaseError ("Unable to read undo data for height " ++ toString height ++
            ": Key was retrieved ok, but data could not be deserialized"))
      | none =>
          .error (.databaseError ("Unable to read undo data for height " ++ toString height))

/-- The oldest records are deleted if there are more than the configured depth. -/
def cutToDepth (opts : Options) (cf : UndoTable) (sc : UndoScan) : UndoTable × Nat :=
  if sc.ctr > opts.maxReorg then
    let n2del := sc.ctr - opts.maxReorg
    (List.range n2del).foldl
      (fun r _ => (r.1.erase (heightKey r.2), (r.2 + 1) % 2 ^ 32)) (cf, sc.earliestUndoHeight)
  else (cf, sc.earliestUndoHeight)

/-- `Storage::loadCheckEarliestUndo`: the table it leaves and the earliest height. -/
def loadCheckEarliestUndo (opts : Options) (cf : UndoTable) :
    Except Exception (UndoTable × Nat) :=
  match cf.keys.foldlM UndoScan.visit {} with
  | .error e => .error e
  | .ok sc =>
      let (cf, sc) := closeHoles cf sc
      match checkLatestUndo cf sc with
      | .error e => .error e
      | .ok () => .ok (cutToDepth opts cf sc)

/-! ## Runs of heights -/

/-- The longest contiguous run of heights that ends at the largest one. -/
def topRun (s : Set Nat) : Set Nat :=
  {h | ∃ m, IsGreatest s m ∧ h ≤ m ∧ Set.Icc h m ⊆ s}

/-- The heights that are fewer than `depth` below the largest one. -/
def newest (depth : Nat) (s : Set Nat) : Set Nat :=
  {h | h ∈ s ∧ ∃ m, IsGreatest s m ∧ m < h + depth}

/-- The heights that have a record. -/
def UndoTable.heights (cf : UndoTable) : Set Nat := {h | h < 2 ^ 32 ∧ heightKey h ∈ cf}

theorem topRun_empty : topRun ∅ = ∅ := by
  apply Set.eq_empty_of_forall_notMem
  rintro h ⟨m, hm, -⟩
  exact hm.1

theorem newest_empty (depth : Nat) : newest depth ∅ = ∅ := by
  apply Set.eq_empty_of_forall_notMem
  rintro h ⟨hh, -⟩
  exact hh

/-- An interval has no holes. -/
theorem newest_Icc {depth a m : Nat} (ham : a ≤ m) :
    newest depth (Set.Icc a m) = {h | a ≤ h ∧ h ≤ m ∧ m < h + depth} := by
  have hmax : IsGreatest (Set.Icc a m) m := isGreatest_Icc ham
  ext h
  constructor
  · rintro ⟨⟨hle, hge⟩, m', hm', hlt⟩
    rw [hm'.unique hmax] at hlt
    exact ⟨hle, hge, hlt⟩
  · rintro ⟨hle, hge, hlt⟩
    exact ⟨⟨hle, hge⟩, m, hmax, hlt⟩

/-- The run is an interval if nothing lies right below it. -/
theorem topRun_eq_Icc {s : Set Nat} {e m : Nat} (hm : IsGreatest s m) (hem : e ≤ m)
    (hrun : Set.Icc e m ⊆ s) (hbelow : ∀ h ∈ s, h + 1 ≠ e) : topRun s = Set.Icc e m := by
  ext h
  constructor
  · rintro ⟨m', hm', hle, hsub⟩
    obtain rfl : m' = m := hm'.unique hm
    refine ⟨?_, hle⟩
    by_contra hlt
    exact hbelow (e - 1) (hsub ⟨by omega, by omega⟩) (by omega)
  · rintro ⟨hle, hge⟩
    refine ⟨m, hm, hge, ?_⟩
    exact (Set.Icc_subset_Icc_left hle).trans hrun

theorem isGreatest_topRun {s : Set Nat} {m : Nat} (hm : IsGreatest s m) :
    IsGreatest (topRun s) m := by
  refine ⟨⟨m, hm, le_refl m, ?_⟩, ?_⟩
  · intro x hx
    rw [le_antisymm hx.2 hx.1]
    exact hm.1
  · rintro x ⟨m', hm', hle, -⟩
    rw [← hm'.unique hm]
    exact hle

theorem isGreatest_of_topRun {s : Set Nat} {m : Nat} (hm : IsGreatest (topRun s) m) :
    IsGreatest s m := by
  obtain ⟨m', hm', hle, -⟩ := hm.1
  rw [hm.unique (isGreatest_topRun hm')]
  exact hm'

/-- What is left of a run is an interval. -/
theorem newest_topRun {s : Set Nat} {depth e : Nat} (he : IsLeast (newest depth (topRun s)) e) :
    ∃ m, newest depth (topRun s) = Set.Icc e m ∧ e ≤ m ∧ m < e + depth := by
  obtain ⟨⟨m, hm, hle, hsub⟩, m', hm', hlt⟩ := he.1
  obtain rfl : m' = m := hm'.unique (isGreatest_topRun hm)
  refine ⟨m', ?_, hle, hlt⟩
  ext x
  constructor
  · intro hx
    exact ⟨he.2 hx, hm'.2 hx.1⟩
  · rintro ⟨hge, hle⟩
    exact ⟨⟨m', hm, hle, (Set.Icc_subset_Icc_left hge).trans hsub⟩, m', hm', by omega⟩

/-- The loop stops right above the first hole. -/
theorem firstContig_spec {rest : List Nat} :
    ∀ {last : Nat}, (last :: rest).Pairwise (· > ·) →
      firstContig last rest ∈ last :: rest ∧ firstContig last rest ≤ last ∧
        (∀ j, firstContig last rest ≤ j → j ≤ last → j ∈ last :: rest) ∧
          ∀ h ∈ last :: rest, h + 1 ≠ firstContig last rest := by
  induction rest with
  | nil =>
      intro last _
      refine ⟨List.mem_singleton.mpr rfl, le_refl last, ?_, ?_⟩
      · intro j hle hge
        exact List.mem_singleton.mpr (le_antisymm hge hle)
      · intro h hh
        rw [List.mem_singleton.mp hh]
        exact Nat.succ_ne_self last
  | cons rit rest ih =>
      intro last hs
      have hrit : rit < last := List.rel_of_pairwise_cons hs List.mem_cons_self
      by_cases hstep : last - rit = 1
      · -- no hole here
        obtain ⟨hmem, hle, hrun, hbelow⟩ := ih hs.of_cons
        rw [firstContig, if_pos hstep]
        refine ⟨List.mem_cons_of_mem last hmem, by omega, ?_, ?_⟩
        · intro j hj hjlast
          rcases Nat.lt_or_ge rit j with hgt | hle'
          · obtain rfl : j = last := by omega
            exact List.mem_cons_self
          · exact List.mem_cons_of_mem last (hrun j hj hle')
        · intro h hh
          rcases List.mem_cons.mp hh with rfl | hh
          · omega
          · exact hbelow h hh
      · rw [firstContig, if_neg hstep]
        refine ⟨List.mem_cons_self, le_refl last, ?_, ?_⟩
        · intro j hle hge
          rw [le_antisymm hge hle]
          exact List.mem_cons_self
        · intro h hh
          rcases List.mem_cons.mp hh with rfl | hh
          · exact Nat.succ_ne_self h
          · rcases List.mem_cons.mp hh with rfl | hh
            · omega
            · have := List.rel_of_pairwise_cons hs.of_cons hh
              omega

/-! ## The scan -/

section Scan

theorem ofBE_heightKey {h : Nat} (hh : h < 2 ^ 32) : ofBE (heightKey h) = h :=
  ofBE_beBytes (by omega)

theorem heightKey_ofBE {key : List UInt8} (hkey : key.length = 4) : heightKey (ofBE key) = key := by
  have h := beBytes_ofBE key
  rw [hkey] at h
  exact h

theorem ofBE_lt {key : List UInt8} (hkey : key.length = 4) : ofBE key < 2 ^ 32 := by
  have h := ofLE_lt key.reverse
  rw [List.length_reverse, hkey] at h
  exact h

theorem heightKey_injective {h h' : Nat} (hh : h < 2 ^ 32) (hh' : h' < 2 ^ 32)
    (heq : heightKey h = heightKey h') : h = h' := by
  rw [← ofBE_heightKey hh, heq, ofBE_heightKey hh']

/-- The scan after the keys `l`. -/
structure Visited (l : List (List UInt8)) (sc : UndoScan) : Prop where
  heights : ∀ h, h ∈ sc.swissCheeseDetector ↔ h ∈ l.map ofBE
  size : sc.swissCheeseDetector.size = l.length
  ctr : sc.ctr = l.length % 2 ^ 32
  earliest : sc.earliestUndoHeight = sc.swissCheeseDetector.min?.getD invalidUndoHeight

theorem visited_nil : Visited [] {} := by
  constructor
  · intro h
    simp
  · rfl
  · rfl
  · simp

/-- One round of the loop. -/
theorem Visited.visit {l : List (List UInt8)} {sc : UndoScan} {key : List UInt8}
    (h : Visited l sc) (hkey : key.length = 4) (hnew : ofBE key ∉ l.map ofBE) :
    ∃ sc', sc.visit key = .ok sc' ∧ Visited (l ++ [key]) sc' := by
  have hlt := ofBE_lt hkey
  have hnot : ofBE key ∉ sc.swissCheeseDetector := fun hmem => hnew ((h.heights _).mp hmem)
  refine ⟨_, if_neg (not_not.mpr hkey), ?_, ?_, ?_, ?_⟩
  · intro x
    rw [mem_set_insert, h.heights, List.map_append, List.mem_append, List.map_singleton,
      List.mem_singleton]
    exact or_comm
  · have hcontains : ¬ sc.swissCheeseDetector.contains (ofBE key) = true := hnot
    rw [Std.ExtTreeSet.size_insert, if_neg hcontains, h.size, List.length_append,
      List.length_singleton]
  · simp only [h.ctr, List.length_append, List.length_singleton]
    omega
  · simp only [Std.ExtTreeSet.min?_insert, Option.getD_some, h.earliest]
    cases hmin : sc.swissCheeseDetector.min? with
    | none =>
        simp only [Option.getD_none, Option.elim_none]
        split_ifs with hless
        · rfl
        · simp only [invalidUndoHeight] at hless ⊢
          omega
    | some m =>
        simp only [Option.getD_some, Option.elim_some, Nat.compare_eq_lt]

/-- The loop over the keys. -/
theorem Visited.foldlM {todo : List (List UInt8)} :
    ∀ {l : List (List UInt8)} {sc : UndoScan}, Visited l sc →
      (∀ key ∈ todo, key.length = 4) → ((l ++ todo).map ofBE).Nodup →
      ∃ sc', todo.foldlM UndoScan.visit sc = .ok sc' ∧ Visited (l ++ todo) sc' := by
  induction todo with
  | nil =>
      intro l sc h _ _
      rw [List.append_nil]
      exact ⟨sc, rfl, h⟩
  | cons key todo ih =>
      intro l sc h hkeys hnodup
      have hnew : ofBE key ∉ l.map ofBE := by
        intro hmem
        rw [List.map_append, List.map_cons] at hnodup
        exact (List.nodup_append.mp hnodup).2.2 _ hmem _ List.mem_cons_self rfl
      obtain ⟨sc₁, hvisit, h₁⟩ := h.visit (hkeys key List.mem_cons_self) hnew
      rw [List.append_cons] at hnodup ⊢
      obtain ⟨sc', hrest, h'⟩ := ih h₁ (fun k hk => hkeys k (List.mem_cons_of_mem _ hk)) hnodup
      refine ⟨sc', ?_, h'⟩
      rw [List.foldlM_cons, hvisit]
      exact hrest

/-- Every key has four bytes if the scan ends. -/
theorem length_of_foldlM {l : List (List UInt8)} :
    ∀ {sc sc' : UndoScan}, l.foldlM UndoScan.visit sc = .ok sc' → ∀ key ∈ l, key.length = 4 := by
  induction l with
  | nil =>
      intro sc sc' _ key hkey
      exact absurd hkey List.not_mem_nil
  | cons key l ih =>
      intro sc sc' h k hk
      rw [List.foldlM_cons] at h
      by_cases hlen : key.length = 4
      · rcases List.mem_cons.mp hk with rfl | hk
        · exact hlen
        · rw [UndoScan.visit, if_neg (not_not.mpr hlen)] at h
          exact ih h k hk
      · rw [UndoScan.visit, if_pos hlen] at h
        cases h

/-- The table, or what is left of it, and the scan of it. -/
structure Scanned (cf : UndoTable) (sc : UndoScan) : Prop where
  keys : ∀ key ∈ cf, key.length = 4
  heights : ∀ h, h ∈ sc.swissCheeseDetector ↔ h ∈ cf.heights
  ctr : sc.ctr = sc.swissCheeseDetector.size
  earliest : sc.earliestUndoHeight = sc.swissCheeseDetector.min?.getD invalidUndoHeight

theorem scan_ok {cf : UndoTable} (hkeys : ∀ key ∈ cf, key.length = 4) (hsize : cf.size < 2 ^ 32) :
    ∃ sc, cf.keys.foldlM UndoScan.visit {} = .ok sc ∧ Scanned cf sc ∧
      sc.swissCheeseDetector.size < 2 ^ 32 := by
  have hmem : ∀ key, key ∈ cf.keys ↔ key ∈ cf := fun key => Std.ExtTreeMap.mem_keys
  have hnodup : (cf.keys.map ofBE).Nodup := by
    refine List.Nodup.map_on ?_ (Std.ExtTreeMap.nodup_keys)
    intro a ha b hb heq
    rw [← heightKey_ofBE (hkeys a ((hmem a).mp ha)), heq, heightKey_ofBE (hkeys b ((hmem b).mp hb))]
  obtain ⟨sc, hok, h⟩ := visited_nil.foldlM (fun key hkey => hkeys key ((hmem key).mp hkey)) hnodup
  have hcount : sc.swissCheeseDetector.size = cf.size := by
    rw [h.size, List.nil_append, Std.ExtTreeMap.length_keys]
  refine ⟨sc, hok, ⟨hkeys, ?_, ?_, h.earliest⟩, by rw [hcount]; exact hsize⟩
  · intro x
    rw [h.heights, List.nil_append, List.mem_map]
    constructor
    · rintro ⟨key, hkey, rfl⟩
      have hin := (hmem key).mp hkey
      refine ⟨ofBE_lt (hkeys key hin), ?_⟩
      rw [heightKey_ofBE (hkeys key hin)]
      exact hin
    · rintro ⟨hlt, hin⟩
      exact ⟨heightKey x, (hmem _).mpr hin, ofBE_heightKey hlt⟩
  · rw [h.ctr, ← h.size, hcount]
    exact Nat.mod_eq_of_lt hsize

end Scan

/-! ## The deletions -/

section Deletions

variable {cf : UndoTable} {sc : UndoScan}

/-- Deleting the records of some heights. -/
theorem heights_foldl_erase (cf : UndoTable) {dels : List Nat} (hdels : ∀ d ∈ dels, d < 2 ^ 32) :
    (dels.foldl (fun cf h => cf.erase (heightKey h)) cf).heights =
      {h | h ∈ cf.heights ∧ h ∉ dels} := by
  have hmem : ∀ key, key ∈ dels.foldl (fun cf h => cf.erase (heightKey h)) cf ↔
      key ∈ cf ∧ ∀ d ∈ dels, heightKey d ≠ key := by
    intro key
    simp only [mem_iff_getElem?, get_foldl_erase, exists_and_right]
  ext h
  constructor
  · rintro ⟨hlt, hin⟩
    obtain ⟨hcf, hnot⟩ := (hmem _).mp hin
    exact ⟨⟨hlt, hcf⟩, fun hd => hnot h hd rfl⟩
  · rintro ⟨⟨hlt, hcf⟩, hnot⟩
    refine ⟨hlt, (hmem _).mpr ⟨hcf, fun d hd heq => hnot ?_⟩⟩
    rw [← heightKey_injective (hdels d hd) hlt heq]
    exact hd

theorem mem_set_foldl_erase {dels : List Nat} {set : Std.ExtTreeSet Nat compare} {h : Nat} :
    h ∈ dels.foldl (fun set d => set.erase d) set ↔ h ∈ set ∧ h ∉ dels := by
  induction dels generalizing set with
  | nil => simp
  | cons d dels ih =>
      rw [List.foldl_cons, ih, mem_set_erase, List.mem_cons]
      tauto

/-- The heights in descending order. -/
theorem pairwise_reverse_toList (set : Std.ExtTreeSet Nat compare) :
    set.toList.reverse.Pairwise (· > ·) := by
  rw [List.pairwise_reverse]
  exact set.ordered_toList.imp fun h => Nat.compare_eq_lt.mp h

/-- As many heights as there are numbers between the ends: there is no hole. -/
theorem eq_Icc_of_size {set : Std.ExtTreeSet Nat compare} {a m : Nat}
    (hsub : ∀ h ∈ set, a ≤ h ∧ h ≤ m) (hsize : set.size = m - a + 1) {h : Nat} :
    h ∈ set ↔ a ≤ h ∧ h ≤ m := by
  have hcard : (Finset.Icc a m).card ≤ set.toList.toFinset.card := by
    rw [List.toFinset_card_of_nodup (nodup_set_toList set), Std.ExtTreeSet.length_toList, hsize,
      Nat.card_Icc]
    omega
  have hsubset : set.toList.toFinset ⊆ Finset.Icc a m := by
    intro x hx
    rw [List.mem_toFinset, Std.ExtTreeSet.mem_toList] at hx
    exact Finset.mem_Icc.mpr (hsub x hx)
  have heq := Finset.eq_of_subset_of_card_le hsubset hcard
  rw [← Std.ExtTreeSet.mem_toList, ← List.mem_toFinset, heq, Finset.mem_Icc]

theorem isGreatest_head {s : Set Nat} {last : Nat} {rest : List Nat}
    (hmem : ∀ x, x ∈ last :: rest ↔ x ∈ s) (hsorted : (last :: rest).Pairwise (· > ·)) :
    IsGreatest s last := by
  refine ⟨(hmem last).mp List.mem_cons_self, fun x hx => ?_⟩
  rcases List.mem_cons.mp ((hmem x).mpr hx) with rfl | hx
  · exact le_refl x
  · exact le_of_lt (List.rel_of_pairwise_cons hsorted hx)

theorem getLast_le {l : List Nat} (hl : l.Pairwise (· > ·)) (hne : l ≠ []) :
    ∀ x ∈ l, l.getLast hne ≤ x := by
  intro x hx
  rw [← List.dropLast_append_getLast hne] at hl hx
  rcases List.mem_append.mp hx with hx | hx
  · exact le_of_lt ((List.pairwise_append.mp hl).2.2 x hx _ List.mem_cons_self)
  · rw [List.mem_singleton.mp hx]

/-- Without a hole the heights are an interval. -/
theorem topRun_of_no_hole {s : Set Nat} {set : Std.ExtTreeSet Nat compare} {a m : Nat}
    (hset : ∀ h, h ∈ set ↔ h ∈ s) (ha : ∀ h ∈ s, a ≤ h) (hm : IsGreatest s m)
    (hsize : set.size = m - a + 1) : s = Set.Icc a m ∧ topRun s = Set.Icc a m := by
  have hIcc : s = Set.Icc a m := by
    ext h
    rw [← hset, eq_Icc_of_size (fun x hx => ?_) hsize]
    · rfl
    · have hx' := (hset x).mp hx
      exact ⟨ha x hx', hm.2 hx'⟩
  refine ⟨hIcc, topRun_eq_Icc hm (ha m hm.1) (le_of_eq hIcc.symm) ?_⟩
  intro h hh heq
  have := ha h hh
  omega

/-- The test for a hole compares 32-bit numbers. -/
theorem size_of_testval {a m n : Nat} (hm : m < 2 ^ 32) (hn : n < 2 ^ 32) (hpos : 0 < n)
    (h : (m - a + 1) % 2 ^ 32 = n) : n = m - a + 1 := by
  omega

/-- What is left when the records below the first hole are gone. -/
theorem closeHoles_spec (h : Scanned cf sc) (hsize : sc.swissCheeseDetector.size < 2 ^ 32) :
    Scanned (closeHoles cf sc).1 (closeHoles cf sc).2 ∧
      (∀ (key : List UInt8) v, (closeHoles cf sc).1[key]? = some v → cf[key]? = some v) ∧
      (closeHoles cf sc).1.heights = topRun cf.heights ∧
      (topRun cf.heights = ∅ ∨ ∃ a m, a ≤ m ∧ topRun cf.heights = Set.Icc a m) := by
  have hmem : ∀ x, x ∈ sc.swissCheeseDetector.toList.reverse ↔ x ∈ cf.heights := by
    intro x
    rw [List.mem_reverse, Std.ExtTreeSet.mem_toList, h.heights]
  have hsorted := pairwise_reverse_toList sc.swissCheeseDetector
  have hlen : sc.swissCheeseDetector.toList.reverse.length = sc.swissCheeseDetector.size := by
    rw [List.length_reverse, Std.ExtTreeSet.length_toList]
  unfold closeHoles
  generalize hl : sc.swissCheeseDetector.toList.reverse = l at hmem hsorted hlen
  cases l with
  | nil =>
      have hempty : cf.heights = ∅ := by
        apply Set.eq_empty_of_forall_notMem
        intro x hx
        exact absurd ((hmem x).mpr hx) List.not_mem_nil
      refine ⟨h, fun key v hv => hv, ?_, .inl ?_⟩
      · rw [hempty, topRun_empty]
      · rw [hempty, topRun_empty]
  | cons last rest =>
      have hmax := isGreatest_head hmem hsorted
      dsimp only
      by_cases htest : (last - (last :: rest).getLast (List.cons_ne_nil _ _) + 1) % 2 ^ 32 = sc.ctr
      · rw [if_neg (not_not.mpr htest)]
        have hpos : 0 < sc.ctr := by
          rw [h.ctr, ← hlen]
          exact Nat.succ_pos _
        have hcount := size_of_testval hmax.1.1 (by rw [h.ctr]; exact hsize) hpos htest
        obtain ⟨hIcc, htop⟩ := topRun_of_no_hole h.heights
          (fun x hx => getLast_le hsorted (List.cons_ne_nil _ _) x ((hmem x).mpr hx)) hmax
          (h.ctr.symm.trans hcount)
        refine ⟨h, fun key v hv => hv, hIcc.trans htop.symm, .inr ⟨_, last, ?_, htop⟩⟩
        exact getLast_le hsorted (List.cons_ne_nil _ _) last List.mem_cons_self
      · rw [if_pos htest]
        obtain ⟨-, hle, hrun, hbelow⟩ := firstContig_spec hsorted
        have htop : topRun cf.heights = Set.Icc (firstContig last rest) last :=
          topRun_eq_Icc hmax hle (fun x hx => (hmem x).mp (hrun x hx.1 hx.2))
            fun x hx => hbelow x ((hmem x).mpr hx)
        have hdels : ∀ x, x ∈ sc.swissCheeseDetector.toList.filter (· < firstContig last rest) ↔
            x ∈ cf.heights ∧ x < firstContig last rest := by
          intro x
          rw [List.mem_filter, Std.ExtTreeSet.mem_toList, h.heights, decide_eq_true_iff]
        generalize sc.swissCheeseDetector.toList.filter (· < firstContig last rest) = dels at hdels
        have hheights := heights_foldl_erase cf fun d hd => ((hdels d).mp hd).1.1
        have hleft : (dels.foldl (fun cf h => cf.erase (heightKey h)) cf).heights =
            Set.Icc (firstContig last rest) last := by
          rw [hheights]
          ext x
          constructor
          · rintro ⟨hx, hnot⟩
            refine ⟨?_, hmax.2 hx⟩
            by_contra hlt
            exact hnot ((hdels x).mpr ⟨hx, not_le.mp hlt⟩)
          · rintro ⟨hge, hle⟩
            refine ⟨(hmem x).mp (hrun x hge hle), fun hd => ?_⟩
            exact absurd ((hdels x).mp hd).2 (not_lt.mpr hge)
        refine ⟨⟨?_, ?_, rfl, rfl⟩, ?_, hleft.trans htop.symm, .inr ⟨_, last, hle, htop⟩⟩
        · intro key hkey
          obtain ⟨v, hv⟩ := mem_iff_getElem?.mp hkey
          exact h.keys key (mem_iff_getElem?.mpr ⟨v, (get_foldl_erase _ cf).mp hv |>.1⟩)
        · intro x
          rw [hheights, mem_set_foldl_erase, h.heights]
          rfl
        · intro key v hv
          exact ((get_foldl_erase _ cf).mp hv).1

/-- The loop that deletes the oldest records. -/
theorem foldl_erase_oldest {a n : Nat} (hlt : a + n < 2 ^ 32) :
    (List.range n).foldl (fun (r : UndoTable × Nat) _ =>
        (r.1.erase (heightKey r.2), (r.2 + 1) % 2 ^ 32)) (cf, a) =
      ((List.range' a n).foldl (fun cf h => cf.erase (heightKey h)) cf, a + n) := by
  induction n with
  | zero => rfl
  | succ n ih =>
      have hwrap : (a + n + 1) % 2 ^ 32 = a + (n + 1) := Nat.mod_eq_of_lt hlt
      rw [List.range_succ, List.foldl_append, ih (by omega), List.range'_concat, List.foldl_append]
      simp only [List.foldl_cons, List.foldl_nil, hwrap, Nat.one_mul]

/-- What is left of an interval of heights. -/
theorem Scanned.ends (h : Scanned cf sc) {a m : Nat} (ham : a ≤ m)
    (hIcc : cf.heights = Set.Icc a m) : sc.earliestUndoHeight = a ∧ sc.ctr = m - a + 1 := by
  have hset : ∀ x, x ∈ sc.swissCheeseDetector ↔ a ≤ x ∧ x ≤ m := by
    intro x
    rw [h.heights, hIcc]
    rfl
  constructor
  · have hmin : sc.swissCheeseDetector.min? = some a := by
      rw [Std.ExtTreeSet.min?_eq_some_iff_mem_and_forall]
      refine ⟨(hset a).mpr ⟨le_refl a, ham⟩, fun x hx => ?_⟩
      rw [Nat.isLE_compare]
      exact ((hset x).mp hx).1
    rw [h.earliest, hmin]
    rfl
  · have hfin : sc.swissCheeseDetector.toList.toFinset = Finset.Icc a m := by
      ext x
      rw [List.mem_toFinset, Std.ExtTreeSet.mem_toList, hset, Finset.mem_Icc]
    rw [h.ctr, ← Std.ExtTreeSet.length_toList,
      ← List.toFinset_card_of_nodup (nodup_set_toList _), hfin, Nat.card_Icc]
    omega

/-- What is left when the oldest records are gone. -/
theorem cutToDepth_spec (opts : Options) (h : Scanned cf sc)
    (hrun : cf.heights = ∅ ∨ ∃ a m, a ≤ m ∧ cf.heights = Set.Icc a m) :
    (cutToDepth opts cf sc).1.heights = newest opts.maxReorg cf.heights ∧
      (∀ (key : List UInt8) v, (cutToDepth opts cf sc).1[key]? = some v → cf[key]? = some v) ∧
      ((cutToDepth opts cf sc).1.heights.Nonempty →
        IsLeast (cutToDepth opts cf sc).1.heights (cutToDepth opts cf sc).2) ∧
      ((cutToDepth opts cf sc).1.heights = ∅ →
        (cutToDepth opts cf sc).2 = invalidUndoHeight) := by
  have hdepth := opts.maxReorg_inRange.1
  rcases hrun with hempty | ⟨a, m, ham, hIcc⟩
  · have hset : sc.swissCheeseDetector = ∅ := by
      apply Std.ExtTreeSet.ext_mem
      intro x
      simp [h.heights, hempty]
    have hcut : cutToDepth opts cf sc = (cf, invalidUndoHeight) := by
      rw [cutToDepth, h.ctr, h.earliest, hset]
      simp
    rw [hcut, hempty, newest_empty]
    exact ⟨rfl, fun key v hv => hv, fun hne => absurd rfl hne.ne_empty, fun _ => rfl⟩
  · obtain ⟨hearliest, hctr⟩ := h.ends ham hIcc
    have hm : m < 2 ^ 32 := by
      have hin : m ∈ cf.heights := by
        rw [hIcc]
        exact ⟨ham, le_refl m⟩
      exact hin.1
    rw [hIcc, newest_Icc ham]
    by_cases hmore : sc.ctr > opts.maxReorg
    · have hcut : cutToDepth opts cf sc =
          ((List.range' a (m - a + 1 - opts.maxReorg)).foldl
            (fun cf h => cf.erase (heightKey h)) cf, a + (m - a + 1 - opts.maxReorg)) := by
        rw [cutToDepth, if_pos hmore, hearliest, hctr]
        exact foldl_erase_oldest (by omega)
      have hdels : ∀ x, x ∈ List.range' a (m - a + 1 - opts.maxReorg) ↔
          a ≤ x ∧ x < a + (m - a + 1 - opts.maxReorg) := by
        intro x
        rw [List.mem_range'_1]
      have hleft : (cutToDepth opts cf sc).1.heights =
          {x | a ≤ x ∧ x ≤ m ∧ m < x + opts.maxReorg} := by
        rw [hcut, heights_foldl_erase cf fun d hd => by have := (hdels d).mp hd; omega]
        ext x
        rw [hIcc]
        constructor
        · rintro ⟨⟨hge, hle⟩, hnot⟩
          rw [hdels] at hnot
          exact ⟨hge, hle, by omega⟩
        · rintro ⟨hge, hle, hlt⟩
          refine ⟨⟨hge, hle⟩, ?_⟩
          rw [hdels]
          omega
      refine ⟨hleft, ?_, ?_, ?_⟩
      · intro key v hv
        rw [hcut] at hv
        exact ((get_foldl_erase _ cf).mp hv).1
      · intro _
        rw [hleft, hcut]
        rw [hctr] at hmore
        refine ⟨⟨by omega, by omega, by omega⟩, ?_⟩
        rintro x ⟨hge, hle, hlt⟩
        simp only
        omega
      · intro hnone
        rw [hleft] at hnone
        have hin : m ∈ {x | a ≤ x ∧ x ≤ m ∧ m < x + opts.maxReorg} := ⟨ham, le_refl m, by omega⟩
        rw [hnone] at hin
        cases hin
    · have hcut : cutToDepth opts cf sc = (cf, a) := by
        rw [cutToDepth, if_neg hmore, hearliest]
      rw [hcut, hIcc]
      rw [hctr] at hmore
      refine ⟨?_, fun key v hv => hv, fun _ => isLeast_Icc ham, fun hnone => ?_⟩
      · ext x
        constructor
        · rintro ⟨hge, hle⟩
          exact ⟨hge, hle, by omega⟩
        · rintro ⟨hge, hle, -⟩
          exact ⟨hge, hle⟩
      · exact absurd hnone (Set.nonempty_Icc.mpr ham).ne_empty

end Deletions

/-! ## The result -/

section Result

variable {opts : Options} {cf : UndoTable}

/-- The keys are heights and the latest record can be read. -/
structure UndoTable.Readable (cf : UndoTable) : Prop where
  keys : ∀ key ∈ cf, key.length = 4
  latest : ∀ m, IsGreatest cf.heights m → ∃ u, cf[heightKey m]? = some (some u)

/-- What the check leaves of a table. -/
structure Checked (opts : Options) (cf cf' : UndoTable) (earliest : Nat) : Prop where
  heights : cf'.heights = newest opts.maxReorg (topRun cf.heights)
  values : ∀ (key : List UInt8) v, cf'[key]? = some v → cf[key]? = some v
  least : cf'.heights.Nonempty → IsLeast cf'.heights earliest
  invalid : cf'.heights = ∅ → earliest = invalidUndoHeight

/-- The largest height is the one that is looked at. -/
theorem Scanned.getLast?_eq {sc : UndoScan} (h : Scanned cf sc) {m : Nat} :
    sc.swissCheeseDetector.toList.getLast? = some m ↔ IsGreatest cf.heights m := by
  rw [← Std.ExtTreeSet.max?_eq_getLast?_toList, Std.ExtTreeSet.max?_eq_some_iff_mem_and_forall,
    h.heights]
  refine and_congr_right fun _ => ?_
  constructor
  · intro hle x hx
    exact Nat.isLE_compare.mp (hle x ((h.heights x).mpr hx))
  · intro hle x hx
    exact Nat.isLE_compare.mpr (hle ((h.heights x).mp hx))

/-- The latest record is read. -/
theorem checkLatestUndo_ok_iff {sc : UndoScan} (h : Scanned cf sc) :
    checkLatestUndo cf sc = .ok () ↔
      ∀ m, IsGreatest cf.heights m → ∃ u, cf[heightKey m]? = some (some u) := by
  unfold checkLatestUndo
  cases hmax : sc.swissCheeseDetector.toList.getLast? with
  | none =>
      refine ⟨fun _ m hm => ?_, fun _ => rfl⟩
      rw [h.getLast?_eq.mpr hm] at hmax
      cases hmax
  | some m =>
      have hm := h.getLast?_eq.mp hmax
      constructor
      · intro hok m' hm'
        obtain rfl : m = m' := hm.unique hm'
        dsimp only at hok
        cases hget : cf[heightKey m]? with
        | none =>
            rw [hget] at hok
            cases hok
        | some v =>
            cases v with
            | none =>
                rw [hget] at hok
                cases hok
            | some u => exact ⟨u, rfl⟩
      · intro hread
        obtain ⟨u, hu⟩ := hread m hm
        simp only [hu]

/-- The latest record is not one of those below a hole. -/
theorem readable_iff {cf₁ : UndoTable} (hkeys : ∀ key ∈ cf, key.length = 4)
    (hheights : cf₁.heights = topRun cf.heights)
    (hvalues : ∀ (key : List UInt8) v, cf₁[key]? = some v → cf[key]? = some v) :
    cf.Readable ↔
      ∀ m, IsGreatest (topRun cf.heights) m → ∃ u, cf₁[heightKey m]? = some (some u) := by
  have hsame : ∀ m, IsGreatest cf.heights m → cf₁[heightKey m]? = cf[heightKey m]? := by
    intro m hm
    have hin : m ∈ cf₁.heights := by
      rw [hheights]
      exact (isGreatest_topRun hm).1
    obtain ⟨v, hv⟩ := mem_iff_getElem?.mp hin.2
    rw [hv, hvalues _ v hv]
  constructor
  · intro hr m hm
    have hm' := isGreatest_of_topRun hm
    rw [hsame m hm']
    exact hr.latest m hm'
  · intro hread
    refine ⟨hkeys, fun m hm => ?_⟩
    rw [← hsame m hm]
    exact hread m (isGreatest_topRun hm)

/-- The check passes on readable tables and on no others, and what it leaves. -/
theorem loadCheckEarliestUndo_ok (opts : Options) (hsize : cf.size < 2 ^ 32) :
    (cf.Readable ↔ ∃ r, loadCheckEarliestUndo opts cf = .ok r) ∧
      ∀ cf' earliest, loadCheckEarliestUndo opts cf = .ok (cf', earliest) →
        Checked opts cf cf' earliest := by
  unfold loadCheckEarliestUndo
  by_cases hkeys : ∀ key ∈ cf, key.length = 4
  · obtain ⟨sc, hscan, hs, hset⟩ := scan_ok hkeys hsize
    obtain ⟨hs₁, hvalues, hheights, hrun⟩ := closeHoles_spec hs hset
    have hlatest : checkLatestUndo (closeHoles cf sc).1 (closeHoles cf sc).2 = .ok () ↔
        cf.Readable := by
      rw [checkLatestUndo_ok_iff hs₁, hheights]
      exact (readable_iff hkeys hheights hvalues).symm
    rw [hscan]
    dsimp only
    generalize closeHoles cf sc = r at *
    cases hcheck : checkLatestUndo r.1 r.2 with
    | error e =>
        rw [hcheck] at hlatest
        refine ⟨⟨fun hr => ?_, ?_⟩, ?_⟩
        · cases hlatest.mpr hr
        · rintro ⟨_, hok⟩
          cases hok
        · intro cf' earliest hok
          cases hok
    | ok u =>
        refine ⟨⟨fun _ => ⟨_, rfl⟩, fun _ => hlatest.mp hcheck⟩, ?_⟩
        intro cf' earliest hok
        rw [hheights.symm] at hrun
        obtain ⟨hcut, hsub, hleast, hinvalid⟩ := cutToDepth_spec opts hs₁ hrun
        rw [Except.ok.inj hok] at hcut hsub hleast hinvalid
        rw [hheights] at hcut
        exact ⟨hcut, fun key v hv => hvalues key v (hsub key v hv), hleast, hinvalid⟩
  · have hfail : ∀ sc, cf.keys.foldlM UndoScan.visit {} ≠ .ok sc := by
      intro sc hok
      exact hkeys fun key hkey => length_of_foldlM hok key (Std.ExtTreeMap.mem_keys.mpr hkey)
    cases hscan : cf.keys.foldlM UndoScan.visit {} with
    | error e =>
        refine ⟨⟨fun hr => absurd hr.keys hkeys, ?_⟩, ?_⟩
        · rintro ⟨_, hok⟩
          cases hok
        · intro cf' earliest hok
          cases hok
    | ok sc => exact absurd hscan (hfail sc)

end Result

end Storage
end Shulcrum
