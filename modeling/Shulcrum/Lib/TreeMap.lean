import Mathlib.Tactic
import Std.Data.ExtTreeMap
import Std.Data.ExtTreeSet

/-!
# Extensional tree maps and sets

Lemmas about `Std.ExtTreeMap` and `Std.ExtTreeSet` for comparisons that decide
equality: lookups after an update, filtering by keys, and loops that update a
map or a set at every element of a list.
-/

namespace Shulcrum
namespace TreeMap

universe u v

variable {κ : Type u} {β : Type v} {cmp : κ → κ → Ordering}
variable [Std.TransCmp cmp]

theorem mem_iff_getElem? {m : Std.ExtTreeMap κ β cmp} {k : κ} :
    k ∈ m ↔ ∃ v, m[k]? = some v := by
  rw [← Std.ExtTreeMap.isSome_getElem?_iff_mem, Option.isSome_iff_exists]

theorem not_mem_iff_getElem? {m : Std.ExtTreeMap κ β cmp} {k : κ} :
    k ∉ m ↔ m[k]? = none := by
  rw [← Std.ExtTreeMap.isSome_getElem?_iff_mem, Bool.not_eq_true, Option.isSome_eq_false_iff,
    Option.isNone_iff_eq_none]

theorem distinct_toList (m : Std.ExtTreeMap κ β cmp) :
    m.toList.Pairwise fun a b => a.1 ≠ b.1 :=
  m.distinct_keys_toList.imp Std.ReflCmp.ne_of_cmp_ne_eq

variable [Std.LawfulEqCmp cmp] [DecidableEq κ]

theorem get_insert {m : Std.ExtTreeMap κ β cmp} {k k' : κ} {v : β} :
    (m.insert k v)[k']? = if k = k' then some v else m[k']? := by
  simp [Std.ExtTreeMap.getElem?_insert]

theorem get_erase {m : Std.ExtTreeMap κ β cmp} {k k' : κ} :
    (m.erase k)[k']? = if k = k' then none else m[k']? := by
  simp [Std.ExtTreeMap.getElem?_erase]

theorem get_modify {m : Std.ExtTreeMap κ β cmp} {k k' : κ} {f : β → β} :
    (m.modify k f)[k']? = if k = k' then m[k']?.map f else m[k']? := by
  simp only [Std.ExtTreeMap.getElem?_modify, Std.LawfulEqCmp.compare_eq_iff_eq]
  split_ifs with h
  · rw [h]
  · rfl

theorem get_alter {m : Std.ExtTreeMap κ β cmp} {k k' : κ} {f : Option β → Option β} :
    (m.alter k f)[k']? = if k = k' then f m[k']? else m[k']? := by
  simp only [Std.ExtTreeMap.getElem?_alter, Std.LawfulEqCmp.compare_eq_iff_eq]
  split_ifs with h
  · rw [h]
  · rfl

/-- A loop that modifies a map at every key of a list without repetitions. -/
theorem get_foldl_modify {l : List κ} (hl : l.Nodup) (f : β → β) (m : Std.ExtTreeMap κ β cmp)
    (k : κ) :
    (l.foldl (fun m k => m.modify k f) m)[k]? = if k ∈ l then m[k]?.map f else m[k]? := by
  induction l generalizing m with
  | nil => simp
  | cons a l ih =>
      obtain ⟨hal, hl⟩ := List.nodup_cons.mp hl
      rw [List.foldl_cons, ih hl, get_modify]
      by_cases hk : a = k
      · subst hk
        simp [hal]
      · have hk' : k ≠ a := fun h => hk h.symm
        simp [hk, hk']

theorem get_insertIfNew {m : Std.ExtTreeMap κ β cmp} {k k' : κ} {v : β} :
    (m.insertIfNew k v)[k']? = if k = k' ∧ m[k']? = none then some v else m[k']? := by
  rw [Std.ExtTreeMap.getElem?_insertIfNew]
  refine if_congr ?_ rfl rfl
  rw [Std.LawfulEqCmp.compare_eq_iff_eq]
  refine and_congr_right fun h => ?_
  rw [not_mem_iff_getElem?, h]

/-- A loop that inserts new entries, one for each key of a list with distinct keys. -/
theorem get_foldl_insertIfNew {γ : Type v} {es : List (κ × γ)}
    (hes : es.Pairwise fun a b => a.1 ≠ b.1) (g : κ × γ → Option β) (m : Std.ExtTreeMap κ β cmp)
    {k : κ} {v : β} :
    (es.foldl (fun m e => (g e).elim m (m.insertIfNew e.1)) m)[k]? = some v ↔
      m[k]? = some v ∨ (m[k]? = none ∧ ∃ e ∈ es, e.1 = k ∧ g e = some v) := by
  induction es generalizing m with
  | nil => simp
  | cons a es ih =>
      obtain ⟨ha, hes⟩ := List.pairwise_cons.mp hes
      rw [List.foldl_cons, ih hes]
      cases hg : g a with
      | none => simp [hg]
      | some w =>
          simp only [Option.elim_some, get_insertIfNew]
          by_cases hk : a.1 = k
          · have hrest : ¬ ∃ e ∈ es, e.1 = k ∧ g e = some v := by
              rintro ⟨e, he, hek, -⟩
              exact ha e he (hk.trans hek.symm)
            by_cases hm : m[k]? = none
            · simp [hk, hm, hg, hrest]
            · simp [hk, hm, hrest]
          · simp [hk]

/-- A loop that erases one key for every element of a list. -/
theorem get_foldl_erase {α : Type v} {l : List α} (key : α → κ) (m : Std.ExtTreeMap κ β cmp)
    {k : κ} {b : β} :
    (l.foldl (fun m a => m.erase (key a)) m)[k]? = some b ↔
      m[k]? = some b ∧ ∀ a ∈ l, key a ≠ k := by
  induction l generalizing m with
  | nil => simp
  | cons a l ih =>
      rw [List.foldl_cons, ih, get_erase]
      by_cases hk : key a = k <;> simp [hk]

/-- A loop that inserts one entry for every element of a list: the last one stays. -/
theorem get_foldl_insert {α : Type v} {l : List α} (key : α → κ) (val : α → β)
    (m : Std.ExtTreeMap κ β cmp) (k : κ) :
    (∃ a ∈ l, key a = k ∧ (l.foldl (fun m a => m.insert (key a) (val a)) m)[k]? = some (val a)) ∨
      ((∀ a ∈ l, key a ≠ k) ∧
        (l.foldl (fun m a => m.insert (key a) (val a)) m)[k]? = m[k]?) := by
  induction l generalizing m with
  | nil => simp
  | cons a l ih =>
      rw [List.foldl_cons]
      rcases ih (m.insert (key a) (val a)) with ⟨b, hb, hkey, hget⟩ | ⟨hnone, hget⟩
      · exact .inl ⟨b, by simp [hb], hkey, hget⟩
      · rw [get_insert] at hget
        by_cases hk : key a = k
        · rw [if_pos hk] at hget
          exact .inl ⟨a, by simp, hk, hget⟩
        · rw [if_neg hk] at hget
          refine .inr ⟨?_, hget⟩
          intro b hb
          rcases List.mem_cons.mp hb with rfl | hb
          · exact hk
          · exact hnone b hb

omit [DecidableEq κ] in
/-- Inserting new entries with distinct keys, one for every element of a list. -/
theorem size_foldl_insert {α : Type v} {l : List α} {key : α → κ} {val : α → β}
    {m : Std.ExtTreeMap κ β cmp} (hl : (l.map key).Nodup) (hnew : ∀ a ∈ l, key a ∉ m) :
    (l.foldl (fun m a => m.insert (key a) (val a)) m).size = m.size + l.length := by
  induction l generalizing m with
  | nil => simp
  | cons a l ih =>
      obtain ⟨ha, hl⟩ := List.nodup_cons.mp hl
      have hout : ¬ m.contains (key a) = true := hnew a (by simp)
      rw [List.foldl_cons, ih hl, Std.ExtTreeMap.size_insert, if_neg hout, List.length_cons]
      · omega
      · intro b hb hmem
        rcases Std.ExtTreeMap.mem_insert.mp hmem with hk | hk
        · rw [Std.LawfulEqCmp.compare_eq_iff_eq] at hk
          exact ha (List.mem_map.mpr ⟨b, hb, hk.symm⟩)
        · exact hnew b (by simp [hb]) hk

omit [DecidableEq κ] in
/-- Erasing present keys, all distinct, one for every element of a list. -/
theorem size_foldl_erase {α : Type v} {l : List α} {key : α → κ} {m : Std.ExtTreeMap κ β cmp}
    (hl : (l.map key).Nodup) (hmem : ∀ a ∈ l, key a ∈ m) :
    (l.foldl (fun m a => m.erase (key a)) m).size + l.length = m.size := by
  induction l generalizing m with
  | nil => simp
  | cons a l ih =>
      obtain ⟨ha, hl⟩ := List.nodup_cons.mp hl
      have hin : m.contains (key a) = true := hmem a (by simp)
      have hpos : 0 < m.size := by
        rw [Nat.pos_iff_ne_zero]
        intro hzero
        rw [Std.ExtTreeMap.eq_empty_iff_size_eq_zero.mpr hzero] at hin
        simp at hin
      have hrest := ih (m := m.erase (key a)) hl fun b hb => by
        refine Std.ExtTreeMap.mem_erase.mpr ⟨?_, hmem b (by simp [hb])⟩
        rw [ne_eq, Std.LawfulEqCmp.compare_eq_iff_eq]
        intro hk
        exact ha (List.mem_map.mpr ⟨b, hb, hk.symm⟩)
      rw [Std.ExtTreeMap.size_erase, if_pos hin] at hrest
      rw [List.foldl_cons, List.length_cons]
      omega

/-- A loop that alters a map at the keys of a list of entries with distinct keys. -/
theorem get_foldl_alter {γ : Type v} {es : List (κ × γ)}
    (hes : es.Pairwise fun a b => a.1 ≠ b.1) (f : γ → Option β → Option β)
    (m : Std.ExtTreeMap κ β cmp) (k : κ) :
    (∀ c, (k, c) ∈ es → (es.foldl (fun m e => m.alter e.1 (f e.2)) m)[k]? = f c m[k]?) ∧
      ((∀ c, (k, c) ∉ es) → (es.foldl (fun m e => m.alter e.1 (f e.2)) m)[k]? = m[k]?) := by
  induction es generalizing m with
  | nil => simp
  | cons a es ih =>
      obtain ⟨ha, hes⟩ := List.pairwise_cons.mp hes
      obtain ⟨ihmem, ihnot⟩ := ih hes (m.alter a.1 (f a.2))
      rw [List.foldl_cons]
      constructor
      · intro c hc
        rcases List.mem_cons.mp hc with rfl | hc
        · have hrest : ∀ c', (k, c') ∉ es := fun c' hc' => ha _ hc' rfl
          rw [ihnot hrest, get_alter, if_pos rfl]
        · have hk : a.1 ≠ k := ha _ hc
          rw [ihmem c hc, get_alter, if_neg hk]
      · intro hnone
        have hk : a.1 ≠ k := by
          rintro rfl
          exact hnone a.2 (by simp)
        rw [ihnot fun c hc => hnone c (List.mem_cons_of_mem _ hc), get_alter, if_neg hk]

/-- A loop that alters a map at every key of another map. -/
theorem get_foldl_alter_toList {γ : Type v} (es : Std.ExtTreeMap κ γ cmp)
    (f : γ → Option β → Option β) (m : Std.ExtTreeMap κ β cmp) (k : κ) :
    (es.toList.foldl (fun m e => m.alter e.1 (f e.2)) m)[k]? =
      es[k]?.elim m[k]? fun c => f c m[k]? := by
  obtain ⟨hmem, hnot⟩ := get_foldl_alter (distinct_toList es) f m k
  cases hk : es[k]? with
  | none =>
      refine hnot fun c hc => ?_
      rw [Std.ExtTreeMap.mem_toList_iff_getElem?_eq_some, hk] at hc
      cases hc
  | some c => exact hmem c (Std.ExtTreeMap.mem_toList_iff_getElem?_eq_some.mpr hk)

omit [DecidableEq κ] in
theorem get_filter {m : Std.ExtTreeMap κ β cmp} {f : κ → β → Bool} {k : κ} {v : β} :
    (m.filter f)[k]? = some v ↔ m[k]? = some v ∧ f k v = true := by
  rw [Std.ExtTreeMap.getElem?_filter', Option.filter_eq_some_iff]

omit [DecidableEq κ] [Std.LawfulEqCmp cmp] in
@[simp] theorem toList_empty : (∅ : Std.ExtTreeMap κ β cmp).toList = [] := rfl

omit [DecidableEq κ] in
theorem mem_filter_key {m : Std.ExtTreeMap κ β cmp} {p : κ → Bool} {k : κ} :
    k ∈ m.filter (fun k _ => p k) ↔ k ∈ m ∧ p k = true := by
  rw [Std.ExtTreeMap.mem_filter]
  constructor
  · rintro ⟨hk, hp⟩
    rw [Std.ExtTreeMap.getKey_eq] at hp
    exact ⟨hk, hp⟩
  · rintro ⟨hk, hp⟩
    exact ⟨hk, by rw [Std.ExtTreeMap.getKey_eq]; exact hp⟩

omit [DecidableEq κ] in
@[simp] theorem filter_empty (f : κ → β → Bool) :
    (∅ : Std.ExtTreeMap κ β cmp).filter f = ∅ := by
  apply Std.ExtTreeMap.ext_getElem?
  intro k
  simp

omit [DecidableEq κ] in
@[simp] theorem mem_set_insert {s : Std.ExtTreeSet κ cmp} {k a : κ} :
    a ∈ s.insert k ↔ a = k ∨ a ∈ s := by
  rw [Std.ExtTreeSet.mem_insert, Std.LawfulEqCmp.compare_eq_iff_eq, eq_comm]

omit [DecidableEq κ] in
@[simp] theorem mem_set_erase {s : Std.ExtTreeSet κ cmp} {k a : κ} :
    a ∈ s.erase k ↔ a ≠ k ∧ a ∈ s := by
  rw [Std.ExtTreeSet.mem_erase, ne_eq, Std.LawfulEqCmp.compare_eq_iff_eq, eq_comm]

omit [DecidableEq κ] [Std.LawfulEqCmp cmp] in
theorem set_ne_empty_iff {s : Std.ExtTreeSet κ cmp} : s ≠ ∅ ↔ ∃ a, a ∈ s := by
  rw [ne_eq, Std.ExtTreeSet.eq_empty_iff_forall_not_mem]
  exact not_forall_not

omit [DecidableEq κ] [Std.LawfulEqCmp cmp] in
theorem ne_empty_iff {m : Std.ExtTreeMap κ β cmp} : m ≠ ∅ ↔ ∃ k, k ∈ m := by
  rw [ne_eq, Std.ExtTreeMap.eq_empty_iff_forall_not_mem]
  exact not_forall_not

omit [DecidableEq κ] in
theorem mem_foldl_insert {l : List κ} {s : Std.ExtTreeSet κ cmp} {a : κ} :
    a ∈ l.foldl (·.insert ·) s ↔ a ∈ s ∨ a ∈ l := by
  induction l generalizing s with
  | nil => simp
  | cons b l ih =>
      rw [List.foldl_cons, ih, mem_set_insert, List.mem_cons]
      tauto

omit [DecidableEq κ] [Std.LawfulEqCmp cmp] in
theorem nodup_set_toList (s : Std.ExtTreeSet κ cmp) : s.toList.Nodup :=
  s.distinct_toList.imp Std.ReflCmp.ne_of_cmp_ne_eq

end TreeMap
end Shulcrum
