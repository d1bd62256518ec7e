import Shulcrum.BlockProc.Model

/-!
# Outputs and transactions by script hash

The entry of a script hash is described by the transactions that involve it and
the outputs that pay to it, whatever the order in which they were recorded.

**Results.**
* `Aggregates.addOut`, `Aggregates.addIn`: recording an output or an input.
* `Aggregates.map`: sorting the lists changes nothing.
-/

namespace Shulcrum

open TreeMap

/-- The output is spendable and pays to the script hash. -/
def CTxOut.LockedTo (H : Hashers) (out : CTxOut) (hashX : HashX) : Prop :=
  BTC.isOpReturn out.scriptPubKey = false ∧ H.hashXFromCScript out.scriptPubKey = hashX

theorem natLe_isOrder : SortUnique.IsOrder natLe where
  trans a b c := by
    simp only [natLe, decide_eq_true_eq]
    exact Nat.le_trans
  total a b := by
    simp only [natLe, Bool.or_eq_true, decide_eq_true_eq]
    exact Nat.le_total a b
  antisymm a b := by
    simp only [natLe, decide_eq_true_eq]
    exact Nat.le_antisymm

theorem pairwise_lt_sortUnique (l : List Nat) :
    (SortUnique.sortUnique natLe l).Pairwise (· < ·) := by
  refine (SortUnique.pairwise_sortUnique natLe_isOrder l).imp ?_
  intro a b hab
  simp only [natLe, decide_eq_true_eq] at hab
  omega

/-- A strictly increasing list is left alone by sorting. -/
theorem sortUnique_of_pairwise {l : List Nat} (h : l.Pairwise (· < ·)) :
    SortUnique.sortUnique natLe l = l := by
  refine SortUnique.eq_of_strict natLe_isOrder (SortUnique.pairwise_sortUnique natLe_isOrder l)
    (h.imp ?_) (by simp)
  intro a b hab
  simp only [natLe, decide_eq_true_eq]
  omega

namespace HashXAggregated

/-- The entry of a script hash, empty if there is none. -/
def agg (m : HashXAggregated) (hashX : HashX) : AggregatedOutsIns := m[hashX]?.getD {}

variable {m : HashXAggregated} {hx hx' : HashX}

theorem agg_upd {f : AggregatedOutsIns → AggregatedOutsIns} :
    (m.upd hx f).agg hx' = if hx = hx' then f (m.agg hx) else m.agg hx' := by
  simp only [agg, upd, get_alter]
  split_ifs with h
  · rw [h, Option.getD_some]
  · rfl

theorem mem_upd {f : AggregatedOutsIns → AggregatedOutsIns} :
    hx' ∈ m.upd hx f ↔ hx = hx' ∨ hx' ∈ m := by
  simp only [upd, mem_iff_getElem?, get_alter]
  split_ifs with h <;> simp [h]

theorem agg_map {g : HashX → AggregatedOutsIns → AggregatedOutsIns} (hg : g hx {} = {}) :
    HashXAggregated.agg (m.map g) hx = g hx (m.agg hx) := by
  simp only [agg, Std.ExtTreeMap.getElem?_map]
  cases m[hx]? with
  | none => simp [hg]
  | some ag => simp

theorem agg_of_get {ag : AggregatedOutsIns} (h : m[hx]? = some ag) : m.agg hx = ag := by
  simp [agg, h]

end HashXAggregated

namespace AggregatedOutsIns

theorem mem_pushTxIdx {vec : List Nat} {i j : Nat} : j ∈ pushTxIdx vec i ↔ j ∈ vec ∨ j = i := by
  unfold pushTxIdx
  split_ifs with h
  · have hmem : i ∈ vec := List.mem_of_getLast? h
    constructor
    · exact .inl
    · rintro (hj | rfl)
      · exact hj
      · exact hmem
  · simp

end AggregatedOutsIns

/--
The map names, for each script hash, the transactions `T` that involve it and
the outputs `O` that pay to it.
-/
structure Aggregates (m : HashXAggregated) (T O : HashX → Nat → Prop) : Prop where
  touched : ∀ hx i, i ∈ (m.agg hx).txNumsInvolvingHashX ↔ T hx i
  outs : ∀ hx o, o ∈ (m.agg hx).outs ↔ O hx o
  nodup : ∀ hx, (m.agg hx).outs.Nodup
  present : ∀ hx, hx ∈ m → ∃ i, T hx i

namespace Aggregates

variable {m : HashXAggregated} {T O T' O' : HashX → Nat → Prop}

theorem empty : Aggregates ∅ (fun _ _ => False) fun _ _ => False := by
  refine ⟨fun hx i => ?_, fun hx o => ?_, fun hx => ?_, fun hx h => ?_⟩
  · simp [HashXAggregated.agg]
  · simp [HashXAggregated.agg]
  · simp [HashXAggregated.agg]
  · simp at h

theorem congr (h : Aggregates m T O) (hT : ∀ hx i, T hx i ↔ T' hx i)
    (hO : ∀ hx o, O hx o ↔ O' hx o) : Aggregates m T' O' := by
  refine ⟨fun hx i => ?_, fun hx o => ?_, h.nodup, fun hx hmem => ?_⟩
  · rw [h.touched, hT]
  · rw [h.outs, hO]
  · obtain ⟨i, hi⟩ := h.present hx hmem
    exact ⟨i, (hT hx i).mp hi⟩

theorem mem_of_touch (h : Aggregates m T O) {hx : HashX} {i : Nat} (ht : T hx i) : hx ∈ m := by
  by_contra hnot
  rw [not_mem_iff_getElem?] at hnot
  have hmem := (h.touched hx i).mpr ht
  simp [HashXAggregated.agg, hnot] at hmem

theorem addOut (h : Aggregates m T O) (hashX : HashX) {o : Nat} (i : Nat)
    (hfresh : ∀ hx, ¬ O hx o) :
    Aggregates (m.upd hashX (AggregatedOutsIns.addOut o i))
      (fun hx j => T hx j ∨ (hashX = hx ∧ j = i)) fun hx p => O hx p ∨ (hashX = hx ∧ p = o) := by
  refine ⟨fun hx j => ?_, fun hx p => ?_, fun hx => ?_, fun hx hmem => ?_⟩
  · rw [HashXAggregated.agg_upd]
    split_ifs with hk
    · subst hk
      simp [AggregatedOutsIns.addOut, AggregatedOutsIns.mem_pushTxIdx, h.touched]
    · simp [h.touched, hk]
  · rw [HashXAggregated.agg_upd]
    split_ifs with hk
    · subst hk
      simp [AggregatedOutsIns.addOut, h.outs]
    · simp [h.outs, hk]
  · rw [HashXAggregated.agg_upd]
    split_ifs with hk
    · simp only [AggregatedOutsIns.addOut]
      refine List.Nodup.append (h.nodup _) (by simp) ?_
      intro p hp hpo
      rw [List.mem_singleton] at hpo
      subst hpo
      exact hfresh _ ((h.outs _ _).mp hp)
    · exact h.nodup hx
  · rcases HashXAggregated.mem_upd.mp hmem with rfl | hm
    · exact ⟨i, .inr ⟨rfl, rfl⟩⟩
    · obtain ⟨j, hj⟩ := h.present hx hm
      exact ⟨j, .inl hj⟩

theorem addIn (h : Aggregates m T O) (hashX : HashX) (p i : Nat) :
    Aggregates (m.upd hashX (AggregatedOutsIns.addIn p i))
      (fun hx j => T hx j ∨ (hashX = hx ∧ j = i)) O := by
  refine ⟨fun hx j => ?_, fun hx o => ?_, fun hx => ?_, fun hx hmem => ?_⟩
  · rw [HashXAggregated.agg_upd]
    split_ifs with hk
    · subst hk
      simp [AggregatedOutsIns.addIn, AggregatedOutsIns.mem_pushTxIdx, h.touched]
    · simp [h.touched, hk]
  · rw [HashXAggregated.agg_upd]
    split_ifs with hk
    · subst hk
      simp [AggregatedOutsIns.addIn, h.outs]
    · simp [h.outs]
  · rw [HashXAggregated.agg_upd]
    split_ifs with hk
    · exact h.nodup _
    · exact h.nodup hx
  · rcases HashXAggregated.mem_upd.mp hmem with rfl | hm
    · exact ⟨i, .inr ⟨rfl, rfl⟩⟩
    · obtain ⟨j, hj⟩ := h.present hx hm
      exact ⟨j, .inl hj⟩

/-- Reordering the lists of the entries. -/
theorem map (h : Aggregates m T O) {g : HashX → AggregatedOutsIns → AggregatedOutsIns}
    (hg : ∀ hx, g hx {} = {})
    (htouched : ∀ hx ag i, i ∈ (g hx ag).txNumsInvolvingHashX ↔ i ∈ ag.txNumsInvolvingHashX)
    (houts : ∀ hx ag, (g hx ag).outs.Perm ag.outs) : Aggregates (m.map g) T O := by
  refine ⟨fun hx i => ?_, fun hx o => ?_, fun hx => ?_, fun hx hmem => ?_⟩
  · rw [HashXAggregated.agg_map (hg hx), htouched, h.touched]
  · rw [HashXAggregated.agg_map (hg hx), (houts hx _).mem_iff, h.outs]
  · rw [HashXAggregated.agg_map (hg hx), (houts hx _).nodup_iff]
    exact h.nodup hx
  · exact h.present hx (Std.ExtTreeMap.mem_map.mp hmem)

theorem sorted (h : Aggregates m T O) : Aggregates (m.map fun _ ag => ag.sorted) T O := by
  refine h.map (fun _ => rfl) (fun _ ag i => ?_) fun _ ag => ?_
  · simp [AggregatedOutsIns.sorted]
  · exact List.perm_insertionSort _ ag.outs

end Aggregates

end Shulcrum
