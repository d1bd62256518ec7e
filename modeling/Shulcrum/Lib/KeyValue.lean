import Shulcrum.Lib.TreeMap

/-!
# Sorted tables and write batches

A table maps keys to strings and is sorted by its keys.  Writes are collected
in a batch and applied in order.  A merge appends to the value of its key, and
a range deletion removes the keys from its first key up to its last one, which
is not included.

**Results.**
* `get_put`, `get_merge`, `get_delete`, `get_deleteRange`: a lookup after one
  write.
* `write_append`: a batch is applied in parts.
* `get_write_replace`: a batch that gives some keys new values.
* `keysFrom_eq_filter`: the keys that an iterator visits after a seek.
-/

namespace Shulcrum
namespace KeyValue

open TreeMap

universe u v

variable {κ : Type u} {γ : Type v} {cmp : κ → κ → Ordering}

/-- One write of a batch. -/
inductive Write (κ : Type u) (γ : Type v) where
  | put (key : κ) (value : List γ)
  | merge (key : κ) (value : List γ)
  | delete (key : κ)
  | deleteRange (first last : κ)

variable [Std.TransCmp cmp]

/-- What one write does to a table. -/
def apply (t : Std.ExtTreeMap κ (List γ) cmp) : Write κ γ → Std.ExtTreeMap κ (List γ) cmp
  | .put key value => t.insert key value
  | .merge key value => t.alter key fun old => some (old.getD [] ++ value)
  | .delete key => t.erase key
  | .deleteRange first last =>
      t.filter fun key _ => ! ((cmp first key).isLE && cmp key last == .lt)

/-- A batch is applied in order. -/
def write (t : Std.ExtTreeMap κ (List γ) cmp) (batch : List (Write κ γ)) :
    Std.ExtTreeMap κ (List γ) cmp :=
  batch.foldl apply t

@[simp] theorem write_nil (t : Std.ExtTreeMap κ (List γ) cmp) : write t [] = t := rfl

theorem write_append (t : Std.ExtTreeMap κ (List γ) cmp) (b b' : List (Write κ γ)) :
    write t (b ++ b') = write (write t b) b' := by
  simp [write]

@[simp] theorem write_singleton (t : Std.ExtTreeMap κ (List γ) cmp) (w : Write κ γ) :
    write t [w] = apply t w := rfl

variable [Std.LawfulEqCmp cmp] [DecidableEq κ]

theorem get_put {t : Std.ExtTreeMap κ (List γ) cmp} {key k : κ} {value : List γ} :
    (apply t (.put key value))[k]? = if key = k then some value else t[k]? :=
  get_insert

theorem get_merge {t : Std.ExtTreeMap κ (List γ) cmp} {key k : κ} {value : List γ} :
    (apply t (.merge key value))[k]? =
      if key = k then some (t[k]?.getD [] ++ value) else t[k]? := by
  simp only [apply, get_alter]

theorem get_delete {t : Std.ExtTreeMap κ (List γ) cmp} {key k : κ} :
    (apply t (.delete key))[k]? = if key = k then none else t[k]? :=
  get_erase

omit [DecidableEq κ] in
theorem get_deleteRange {t : Std.ExtTreeMap κ (List γ) cmp} {first last k : κ} :
    (apply t (.deleteRange first last))[k]? =
      if (cmp first k).isLE ∧ cmp k last = .lt then none else t[k]? := by
  ext v
  simp only [apply]
  rw [get_filter]
  split_ifs with h
  · simp [h.1, h.2]
  · constructor
    · exact fun hv => hv.1
    · intro hv
      refine ⟨hv, ?_⟩
      by_contra hcon
      simp only [Bool.not_eq_true', Bool.and_eq_false_iff, not_or, Bool.not_eq_false,
        beq_iff_eq] at hcon
      exact h hcon

/-- The write that gives a key a value, or none. -/
def replace (key : κ) : Option (List γ) → Write κ γ
  | none => .delete key
  | some value => .put key value

theorem get_replace {t : Std.ExtTreeMap κ (List γ) cmp} {key k : κ} {value : Option (List γ)} :
    (apply t (replace key value))[k]? = if key = k then value else t[k]? := by
  cases value with
  | none => exact get_delete
  | some v => exact get_put

/-- A batch that gives some keys new values, perhaps more than once the same. -/
theorem get_write_replace (t : Std.ExtTreeMap κ (List γ) cmp) (keys : List κ)
    (value : κ → Option (List γ)) (k : κ) :
    (write t (keys.map fun key => replace key (value key)))[k]? =
      if k ∈ keys then value k else t[k]? := by
  induction keys generalizing t with
  | nil => simp
  | cons key keys ih =>
      have hstep : write t ((key :: keys).map fun key => replace key (value key)) =
          write (apply t (replace key (value key)))
            (keys.map fun key => replace key (value key)) := rfl
      rw [hstep, ih, get_replace]
      by_cases hmem : k ∈ keys
      · rw [if_pos hmem, if_pos (List.mem_cons_of_mem key hmem)]
      · rw [if_neg hmem]
        by_cases hk : key = k
        · rw [if_pos hk, if_pos (by simp [hk]), hk]
        · rw [if_neg hk, if_neg (by simp [hmem, Ne.symm hk])]

/-! ## Seeks -/

section Seeks

variable {β : Type v} {t : Std.ExtTreeMap κ β cmp} {target k : κ}

/-- The keys that an iterator visits from its seek to `target` on. -/
def keysFrom (t : Std.ExtTreeMap κ β cmp) (target : κ) : List κ :=
  t.keys.dropWhile fun key => cmp key target == .lt

omit [Std.LawfulEqCmp cmp] [DecidableEq κ] in
/-- After the first key that is not below the target no other is. -/
theorem dropWhile_lt_eq_filter {l : List κ} (hl : l.Pairwise fun a b => cmp a b = .lt) :
    (l.dropWhile fun key => cmp key target == .lt) =
      l.filter fun key => cmp key target != .lt := by
  induction l with
  | nil => rfl
  | cons a l ih =>
      obtain ⟨ha, hl⟩ := List.pairwise_cons.mp hl
      by_cases hlt : cmp a target = .lt
      · rw [List.dropWhile_cons_of_pos (by simpa using hlt), ih hl,
          List.filter_cons_of_neg (by simpa using hlt)]
      · have hrest : ∀ key ∈ a :: l, (cmp key target != .lt) = true := by
          intro key hkey
          rw [bne_iff_ne]
          rcases List.mem_cons.mp hkey with rfl | hkey
          · exact hlt
          · exact fun hk => hlt (Std.TransCmp.lt_trans (ha key hkey) hk)
        rw [List.dropWhile_cons_of_neg (by simpa using hlt), List.filter_eq_self.mpr hrest]

omit [Std.LawfulEqCmp cmp] [DecidableEq κ] in
theorem keysFrom_eq_filter :
    keysFrom t target = t.keys.filter fun key => cmp key target != .lt :=
  dropWhile_lt_eq_filter t.ordered_keys

omit [DecidableEq κ] in
theorem mem_keysFrom : k ∈ keysFrom t target ↔ k ∈ t ∧ cmp k target ≠ .lt := by
  rw [keysFrom_eq_filter, List.mem_filter, Std.ExtTreeMap.mem_keys, bne_iff_ne]

omit [Std.LawfulEqCmp cmp] [DecidableEq κ] in
theorem pairwise_keysFrom : (keysFrom t target).Pairwise fun a b => cmp a b = .lt := by
  rw [keysFrom_eq_filter]
  exact t.ordered_keys.filter _

end Seeks

end KeyValue
end Shulcrum
