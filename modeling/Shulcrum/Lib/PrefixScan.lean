import Shulcrum.Lib.TreeMap

/-!
# Scanning a sorted table by a prefix

An iterator over a table whose keys are strings is moved to the first key that
is not below a prefix, and goes on while the keys start with it.

**Results.**
* `scanPrefix_eq_filter`: the scan visits the keys with the prefix and no others.
* `mem_scanPrefix`, `pairwise_scanPrefix`: its rows are the rows of those keys, in
  ascending order.
-/

namespace Shulcrum
namespace PrefixScan

universe u v

variable {α : Type u} {β : Type v} [Ord α]

section Strings

variable {p a b : List α}

/-- A string does not come before its prefixes. -/
theorem not_lt_of_prefix [Std.ReflOrd α] (h : p <+: a) : compare a p ≠ .lt := by
  induction p generalizing a with
  | nil =>
      cases a with
      | nil => exact fun hlt => by cases hlt
      | cons x a => exact fun hlt => by cases hlt
  | cons c p ih =>
      obtain ⟨tail, rfl⟩ := h
      have hcons : compare (c :: (p ++ tail)) (c :: p) =
          (compare c c).then (compare (p ++ tail) p) := List.compareLex_cons_cons
      rw [List.cons_append, hcons, Std.ReflOrd.compare_self]
      exact ih (List.prefix_append p tail)

variable [Std.LawfulEqOrd α]

/-- After a string that is past the strings with a prefix no other has it. -/
theorem not_prefix_of_lt (hge : compare a p ≠ .lt) (ha : ¬ p <+: a) (hlt : compare a b = .lt) :
    ¬ p <+: b := by
  induction p generalizing a b with
  | nil => exact fun _ => ha (List.nil_prefix)
  | cons c p ih =>
      rintro ⟨tail, rfl⟩
      cases a with
      | nil => exact hge rfl
      | cons x a =>
          have hcp : compare (x :: a) (c :: p) = (compare x c).then (compare a p) :=
            List.compareLex_cons_cons
          have hcb : compare (x :: a) (c :: (p ++ tail)) =
              (compare x c).then (compare a (p ++ tail)) := List.compareLex_cons_cons
          rw [List.cons_append, hcb] at hlt
          rw [hcp] at hge
          cases hxc : compare x c with
          | lt =>
              rw [hxc] at hge
              exact hge rfl
          | gt =>
              rw [hxc] at hlt
              cases hlt
          | eq =>
              rw [hxc] at hge hlt
              have heq : x = c := Std.LawfulEqCmp.eq_of_compare hxc
              subst heq
              exact ih hge (fun hp => ha (List.cons_prefix_cons.mpr ⟨rfl, hp⟩)) hlt
                (List.prefix_append p tail)

end Strings

variable [Std.LawfulEqOrd α] [BEq α] [LawfulBEq α]

/-- A sorted list after its first rows: the rows with the prefix come first. -/
theorem takeWhile_eq_filter {l : List (List α × β)} {p : List α}
    (hl : l.Pairwise fun a b => compare a.1 b.1 = .lt) (hge : ∀ e ∈ l, compare e.1 p ≠ .lt) :
    l.takeWhile (fun e => p.isPrefixOf e.1) = l.filter fun e => p.isPrefixOf e.1 := by
  induction l with
  | nil => rfl
  | cons e l ih =>
      obtain ⟨hhead, htail⟩ := List.pairwise_cons.mp hl
      obtain ⟨hgeHead, hgeTail⟩ := List.forall_mem_cons.mp hge
      by_cases hp : p <+: e.1
      · have hpre : p.isPrefixOf e.1 = true := List.isPrefixOf_iff_prefix.mpr hp
        rw [List.takeWhile_cons, if_pos hpre, List.filter_cons, if_pos hpre, ih htail hgeTail]
      · have hpre : ¬ p.isPrefixOf e.1 = true := fun h => hp (List.isPrefixOf_iff_prefix.mp h)
        rw [List.takeWhile_cons, if_neg hpre, List.filter_cons, if_neg hpre, eq_comm,
          List.filter_eq_nil_iff]
        intro e' he' hpre'
        exact not_prefix_of_lt hgeHead hp (hhead e' he') (List.isPrefixOf_iff_prefix.mp hpre')

variable [Std.TransOrd α]

/-- The rows before the prefix do not have it, so that skipping them loses none. -/
theorem takeWhile_dropWhile_eq_filter {l : List (List α × β)} (p : List α)
    (hl : l.Pairwise fun a b => compare a.1 b.1 = .lt) :
    (l.dropWhile fun e => compare e.1 p == .lt).takeWhile (fun e => p.isPrefixOf e.1) =
      l.filter fun e => p.isPrefixOf e.1 := by
  induction l with
  | nil => rfl
  | cons e l ih =>
      obtain ⟨hhead, htail⟩ := List.pairwise_cons.mp hl
      by_cases hlt : compare e.1 p = .lt
      · have hpre : ¬ p.isPrefixOf e.1 = true := fun h =>
          not_lt_of_prefix (List.isPrefixOf_iff_prefix.mp h) hlt
        rw [List.dropWhile_cons_of_pos (by simpa using hlt), ih htail,
          List.filter_cons, if_neg hpre]
      · rw [List.dropWhile_cons_of_neg (by simpa using hlt)]
        refine takeWhile_eq_filter hl (List.forall_mem_cons.mpr ⟨hlt, fun e' he' hlt' => ?_⟩)
        exact hlt (Std.TransCmp.lt_trans (hhead e' he') hlt')

/-- The rows from the first key that is not below the prefix on, while the keys
start with it. -/
def scanPrefix (t : Std.ExtTreeMap (List α) β compare) (p : List α) : List (List α × β) :=
  (t.toList.dropWhile fun e => compare e.1 p == .lt).takeWhile fun e => p.isPrefixOf e.1

variable {t : Std.ExtTreeMap (List α) β compare} {p : List α}

theorem scanPrefix_eq_filter : scanPrefix t p = t.toList.filter fun e => p.isPrefixOf e.1 :=
  takeWhile_dropWhile_eq_filter p t.ordered_keys_toList

theorem mem_scanPrefix {key : List α} {v : β} :
    (key, v) ∈ scanPrefix t p ↔ t[key]? = some v ∧ p <+: key := by
  rw [scanPrefix_eq_filter, List.mem_filter, Std.ExtTreeMap.mem_toList_iff_getElem?_eq_some,
    List.isPrefixOf_iff_prefix]

theorem pairwise_scanPrefix : (scanPrefix t p).Pairwise fun a b => compare a.1 b.1 = .lt := by
  rw [scanPrefix_eq_filter]
  exact t.ordered_keys_toList.filter _

end PrefixScan
end Shulcrum
