import Mathlib.Order.Defs.LinearOrder
import Mathlib.Tactic

/-!
# Maps as sorted lists of entries

A map with ordered keys, as the list of its entries in the order of their keys.
An assignment replaces the value of its key or adds an entry in its place.

**Results.**
* `lookup_assign`, `sorted_assign`: one assignment.
* `eq_of_lookup`: a sorted list is determined by its lookups.
* `collects_iff`: assigning a list of entries in order keeps the last value of
  every key, and only this map does.
* `assignAll_of_sorted`: a sorted list is what its own entries give.
* `exists_key_assignAll`, `value_of_assignAll`: the keys and values of a map.
-/

namespace Shulcrum
namespace SortedEntries

universe u v

variable {κ : Type u} {α : Type v}

/-- The value of the first entry with the key. -/
def lookup [DecidableEq κ] (k : κ) : List (κ × α) → Option α
  | [] => none
  | e :: m => if e.1 = k then some e.2 else lookup k m

variable [LinearOrder κ]

/-- The keys increase. -/
def Sorted (m : List (κ × α)) : Prop := m.Pairwise fun a b => a.1 < b.1

/-- Give a key a value. -/
def assign (k : κ) (v : α) : List (κ × α) → List (κ × α)
  | [] => [(k, v)]
  | e :: m =>
      if k < e.1 then (k, v) :: e :: m
      else if k = e.1 then (k, v) :: m
      else e :: assign k v m

/-- Assign entries in order. -/
def assignAll (m kvs : List (κ × α)) : List (κ × α) :=
  kvs.foldl (fun m e => assign e.1 e.2 m) m

theorem lookup_eq_none_iff {m : List (κ × α)} {k : κ} :
    lookup k m = none ↔ ∀ e ∈ m, e.1 ≠ k := by
  induction m with
  | nil => simp [lookup]
  | cons e m ih =>
      rw [lookup, List.forall_mem_cons]
      split_ifs with hk
      · simp [hk]
      · rw [ih, and_iff_right hk]

theorem lookup_eq_none {m : List (κ × α)} {k : κ} (h : ∀ e ∈ m, k < e.1) : lookup k m = none :=
  lookup_eq_none_iff.mpr fun e he => (h e he).ne'

theorem mem_keys_assign {m : List (κ × α)} {k : κ} {v : α} {e : κ × α} (h : e ∈ assign k v m) :
    e.1 = k ∨ e ∈ m := by
  induction m with
  | nil =>
      rw [assign, List.mem_singleton] at h
      exact .inl (by rw [h])
  | cons a m ih =>
      rw [assign] at h
      split_ifs at h
      · rcases List.mem_cons.mp h with rfl | h
        · exact .inl rfl
        · exact .inr h
      · rcases List.mem_cons.mp h with rfl | h
        · exact .inl rfl
        · exact .inr (List.mem_cons_of_mem a h)
      · rcases List.mem_cons.mp h with rfl | h
        · exact .inr List.mem_cons_self
        · exact (ih h).imp_right (List.mem_cons_of_mem a)

theorem sorted_assign {m : List (κ × α)} (h : Sorted m) (k : κ) (v : α) :
    Sorted (assign k v m) := by
  induction m with
  | nil => exact List.pairwise_singleton _ _
  | cons e m ih =>
      obtain ⟨hlt, hm⟩ := List.pairwise_cons.mp h
      rw [assign]
      split_ifs with hke heq
      · refine List.pairwise_cons.mpr ⟨fun a ha => ?_, h⟩
        rcases List.mem_cons.mp ha with rfl | ha
        · exact hke
        · exact hke.trans (hlt a ha)
      · subst heq
        exact List.pairwise_cons.mpr ⟨hlt, hm⟩
      · refine List.pairwise_cons.mpr ⟨fun a ha => ?_, ih hm⟩
        rcases mem_keys_assign ha with hk | ha
        · rw [hk]
          exact lt_of_le_of_ne (not_lt.mp hke) (Ne.symm heq)
        · exact hlt a ha

theorem lookup_assign {m : List (κ × α)} (h : Sorted m) (k k' : κ) (v : α) :
    lookup k' (assign k v m) = if k = k' then some v else lookup k' m := by
  induction m with
  | nil => rfl
  | cons e m ih =>
      obtain ⟨hlt, hm⟩ := List.pairwise_cons.mp h
      rw [assign]
      by_cases hke : k < e.1
      · rw [if_pos hke, lookup]
      · rw [if_neg hke]
        by_cases heq : k = e.1
        · rw [if_pos heq, lookup, lookup, ← heq]
          split_ifs
          · rfl
          · rfl
        · rw [if_neg heq, lookup, lookup, ih hm]
          by_cases hk : k = k'
          · rw [if_pos hk, if_pos hk, if_neg fun h' => heq (hk.trans h'.symm)]
          · rw [if_neg hk, if_neg hk]

theorem sorted_assignAll {m : List (κ × α)} (h : Sorted m) (kvs : List (κ × α)) :
    Sorted (assignAll m kvs) := by
  induction kvs generalizing m with
  | nil => exact h
  | cons e kvs ih => exact ih (sorted_assign h e.1 e.2)

theorem lookup_append (k : κ) (m m' : List (κ × α)) :
    lookup k (m ++ m') = (lookup k m).or (lookup k m') := by
  induction m with
  | nil => rfl
  | cons e m ih =>
      rw [List.cons_append, lookup, lookup]
      split_ifs
      · rfl
      · exact ih

theorem lookup_assignAll {m : List (κ × α)} (h : Sorted m) (kvs : List (κ × α)) (k : κ) :
    lookup k (assignAll m kvs) = (lookup k kvs.reverse).or (lookup k m) := by
  induction kvs generalizing m with
  | nil => rfl
  | cons e kvs ih =>
      have hstep : assignAll m (e :: kvs) = assignAll (assign e.1 e.2 m) kvs := rfl
      rw [hstep, ih (sorted_assign h e.1 e.2), lookup_assign h, List.reverse_cons, lookup_append,
        Option.or_assoc]
      congr 1
      rw [lookup]
      split_ifs
      · rfl
      · rfl

/-- A sorted list is determined by its lookups. -/
theorem eq_of_lookup {m m' : List (κ × α)} (h : Sorted m) (h' : Sorted m')
    (heq : ∀ k, lookup k m = lookup k m') : m = m' := by
  induction m generalizing m' with
  | nil =>
      cases m' with
      | nil => rfl
      | cons e m' => simpa [lookup] using heq e.1
  | cons e m ih =>
      cases m' with
      | nil => simpa [lookup] using heq e.1
      | cons e' m' =>
          obtain ⟨hlt, hm⟩ := List.pairwise_cons.mp h
          obtain ⟨hlt', hm'⟩ := List.pairwise_cons.mp h'
          have hkey : e.1 = e'.1 := by
            rcases lt_trichotomy e.1 e'.1 with hk | hk | hk
            · have hnone : lookup e.1 (e' :: m') = none := lookup_eq_none fun a ha => by
                rcases List.mem_cons.mp ha with rfl | ha
                · exact hk
                · exact hk.trans (hlt' a ha)
              have hsome := heq e.1
              rw [hnone, lookup, if_pos rfl] at hsome
              cases hsome
            · exact hk
            · have hnone : lookup e'.1 (e :: m) = none := lookup_eq_none fun a ha => by
                rcases List.mem_cons.mp ha with rfl | ha
                · exact hk
                · exact hk.trans (hlt a ha)
              have hsome := heq e'.1
              rw [hnone, lookup, if_pos rfl] at hsome
              cases hsome
          have hval : e.2 = e'.2 := by
            have hk := heq e.1
            rw [lookup, if_pos rfl, lookup, if_pos hkey.symm] at hk
            exact Option.some.inj hk
          have hrest : m = m' := by
            refine ih hm hm' fun k => ?_
            have hk := heq k
            rw [lookup, lookup] at hk
            split_ifs at hk with h1 h2 h2
            · rw [lookup_eq_none fun a ha => h1 ▸ hlt a ha,
                lookup_eq_none fun a ha => h2 ▸ hlt' a ha]
            · exact absurd (hkey.symm.trans h1) h2
            · exact absurd (hkey.trans h2) h1
            · exact hk
          rw [Prod.ext hkey hval, hrest]

/-- The map keeps the last value of every key of the entries. -/
structure Collects (kvs m : List (κ × α)) : Prop where
  sorted : Sorted m
  last : ∀ k, lookup k m = lookup k kvs.reverse

theorem collects_iff {kvs m : List (κ × α)} : Collects kvs m ↔ m = assignAll [] kvs := by
  have hnil : Sorted ([] : List (κ × α)) := List.Pairwise.nil
  have hlast : ∀ k, lookup k (assignAll [] kvs) = lookup k kvs.reverse := fun k => by
    rw [lookup_assignAll hnil, lookup, Option.or_none]
  constructor
  · rintro ⟨hsorted, hm⟩
    exact eq_of_lookup hsorted (sorted_assignAll hnil kvs) fun k => (hm k).trans (hlast k).symm
  · rintro rfl
    exact ⟨sorted_assignAll hnil kvs, hlast⟩

theorem lookup_eq_some {m : List (κ × α)} (h : Sorted m) {e : κ × α} (he : e ∈ m) :
    lookup e.1 m = some e.2 := by
  induction m with
  | nil => cases he
  | cons a m ih =>
      obtain ⟨hlt, hm⟩ := List.pairwise_cons.mp h
      rcases List.mem_cons.mp he with rfl | he
      · rw [lookup, if_pos rfl]
      · rw [lookup, if_neg (hlt e he).ne, ih hm he]

theorem mem_of_lookup {m : List (κ × α)} {k : κ} {v : α} (h : lookup k m = some v) :
    (k, v) ∈ m := by
  induction m with
  | nil => cases h
  | cons e m ih =>
      rw [lookup] at h
      split_ifs at h with hk
      · cases h
        rw [← hk]
        exact List.mem_cons_self
      · exact List.mem_cons_of_mem e (ih h)

/-- A sorted list is what its own entries give. -/
theorem assignAll_of_sorted {m : List (κ × α)} (h : Sorted m) : assignAll [] m = m := by
  refine (collects_iff.mp ⟨h, fun k => ?_⟩).symm
  cases hrev : lookup k m.reverse with
  | none =>
      refine lookup_eq_none_iff.mpr fun e he => ?_
      exact lookup_eq_none_iff.mp hrev e (List.mem_reverse.mpr he)
  | some v => exact lookup_eq_some h (List.mem_reverse.mp (mem_of_lookup hrev))

/-- The keys that were assigned are the keys of the map. -/
theorem exists_key_assignAll {kvs : List (κ × α)} {k : κ} :
    (∃ e ∈ assignAll [] kvs, e.1 = k) ↔ ∃ e ∈ kvs, e.1 = k := by
  rw [← not_iff_not]
  push Not
  rw [← lookup_eq_none_iff, (collects_iff.mpr rfl).last k, lookup_eq_none_iff]
  constructor
  · intro h e he
    exact h e (List.mem_reverse.mpr he)
  · intro h e he
    exact h e (List.mem_reverse.mp he)

theorem lookup_of_nodup {m : List (κ × α)} (h : (m.map Prod.fst).Nodup) {e : κ × α}
    (he : e ∈ m) : lookup e.1 m = some e.2 := by
  induction m with
  | nil => cases he
  | cons a m ih =>
      obtain ⟨hnot, hm⟩ := List.nodup_cons.mp h
      rcases List.mem_cons.mp he with rfl | he
      · rw [lookup, if_pos rfl]
      · have hne : a.1 ≠ e.1 := fun heq => hnot (heq ▸ List.mem_map.mpr ⟨e, he, rfl⟩)
        rw [lookup, if_neg hne, ih hm he]

/-- A key that was assigned once has this value. -/
theorem lookup_assignAll_of_nodup {kvs : List (κ × α)} (h : (kvs.map Prod.fst).Nodup)
    {e : κ × α} (he : e ∈ kvs) : lookup e.1 (assignAll [] kvs) = some e.2 := by
  rw [(collects_iff.mpr rfl).last e.1]
  refine lookup_of_nodup ?_ (List.mem_reverse.mpr he)
  rw [List.map_reverse]
  exact List.nodup_reverse.mpr h

/-- Two lists that give the same map give a key that is once in each the same value. -/
theorem value_of_assignAll {kvs kvs' : List (κ × α)} (h : (kvs.map Prod.fst).Nodup)
    (h' : (kvs'.map Prod.fst).Nodup) (heq : assignAll [] kvs = assignAll [] kvs') {k : κ}
    {v v' : α} (hv : (k, v) ∈ kvs) (hv' : (k, v') ∈ kvs') : v = v' := by
  have hlookup := lookup_assignAll_of_nodup h hv
  rw [heq] at hlookup
  exact Option.some.inj (hlookup.symm.trans (lookup_assignAll_of_nodup h' hv'))

end SortedEntries
end Shulcrum
