import Shulcrum.Mempool.AddNewTxs

/-!
# Removing transactions

What `dropTxs` and `confirmedInBlock` have in common: a transaction is taken
out of the pool, unlinked from its parents and children, its rows are removed
from the prefix table, and in the end the removed transactions are taken out
of the vectors of the script hashes they touched.
-/

namespace Shulcrum

open BTC SortUnique TreeMap

namespace Pool

variable {H : Hashers} {P : Pool} {db : TXO → Option TXOInfo}

/-- The pool without the transactions of a list. -/
def without (P : Pool) (gone : List TxHash) : Pool := fun h => if h ∈ gone then none else P h

theorem without_of_mem {gone : List TxHash} {h : TxHash} (hh : h ∈ gone) :
    P.without gone h = none :=
  if_pos hh

theorem without_of_not_mem {gone : List TxHash} {h : TxHash} (hh : h ∉ gone) :
    P.without gone h = P h :=
  if_neg hh

@[simp] theorem without_nil : P.without [] = P := by
  funext h
  simp [without]

theorem without_eq_some {gone : List TxHash} {h : TxHash} {q : NewTx} :
    P.without gone h = some q ↔ h ∉ gone ∧ P h = some q := by
  by_cases hh : h ∈ gone
  · simp [without_of_mem hh, hh]
  · simp [without_of_not_mem hh, hh]

/-- Removing a transaction that is not there. -/
theorem without_append_of_none {gone : List TxHash} {t : TxHash} (ht : P.without gone t = none) :
    P.without (gone ++ [t]) = P.without gone := by
  funext h
  by_cases hgone : h ∈ gone
  · rw [without_of_mem hgone, without_of_mem (by simp [hgone])]
  · by_cases hht : h = t
    · subst hht
      rw [ht, without_of_mem (by simp)]
    · rw [without_of_not_mem hgone, without_of_not_mem (by simp [hgone, hht])]

theorem NoDoubleSpend.without (hP : P.NoDoubleSpend) (gone : List TxHash) :
    (P.without gone).NoDoubleSpend := by
  intro h q h' q' txo hq hq'
  exact hP h q h' q' txo (without_eq_some.mp hq).2 (without_eq_some.mp hq').2

/-- The transactions of the pool that stay do not spend from removed ones. -/
def DescendantClosed (P : Pool) (gone : List TxHash) : Prop :=
  ∀ c p, P.Spends c p → P p ≠ none → p ∈ gone → c ∈ gone

/-- The removed transactions of the pool spend from removed ones only. -/
def AncestorClosed (P : Pool) (gone : List TxHash) : Prop :=
  ∀ c p, P.Spends c p → P p ≠ none → c ∈ gone → p ∈ gone

end Pool

namespace Mempool

variable {H : Hashers} {rpa : Bool} {P : Pool} {db : TXO → Option TXOInfo}

/-- What `unlinkFromParentsAndChildren` does to a record. -/
def unlinkOn (tx : Tx) (g : TxHash) (x : Tx) : Tx :=
  { x with
    children := if g ∈ tx.parents then x.children.erase tx.hash else x.children
    parents := if g ∈ tx.children then x.parents.erase tx.hash else x.parents }

theorem get_unlink {txs : TxMap} {tx : Tx} {g : TxHash} :
    (unlinkFromParentsAndChildren txs tx)[g]? = txs[g]?.map (unlinkOn tx g) := by
  simp only [unlinkFromParentsAndChildren]
  rw [get_foldl_modify (nodup_set_toList _), get_foldl_modify (nodup_set_toList _)]
  simp only [Std.ExtTreeSet.mem_toList]
  cases txs[g]? with
  | none => simp
  | some x => by_cases hp : g ∈ tx.parents <;> by_cases hc : g ∈ tx.children <;>
      simp [unlinkOn, hp, hc]

theorem mem_addHashXs {tx : Tx} {set : HashSet} {sh : HashX} :
    sh ∈ addHashXs tx set ↔ sh ∈ set ∨ sh ∈ tx.hashXs := by
  rw [addHashXs, mem_foldl_insert, Std.ExtTreeMap.mem_keys]

/-- The loop that removes the rows of a transaction. -/
theorem mem_foldl_rmRpa {l : List UInt16} {h g : TxHash} {n : Nat} {p : UInt16}
    {table : MempoolPrefixTable} :
    (p, g) ∈ (l.foldl (fun (acc : Nat × MempoolPrefixTable) p =>
      (acc.1 + if (p, h) ∈ acc.2 then 1 else 0, acc.2.erase (p, h))) (n, table)).2 ↔
      (p, g) ∈ table ∧ ¬ (g = h ∧ p ∈ l) := by
  induction l generalizing n table with
  | nil => simp
  | cons a l ih =>
      rw [List.foldl_cons, ih, Finset.mem_erase, List.mem_cons]
      simp only [ne_eq, Prod.mk.injEq]
      tauto

/-- The prefix table after the rows of a transaction are removed. -/
theorem TableRep.rmTx {gone : List TxHash} {table : Option MempoolPrefixTable}
    (h : TableRep H rpa (P.without gone) table) {t : TxHash} {q : NewTx}
    (hq : P.without gone t = some q) {tx : Tx} (hhash : tx.hash = t)
    (hnone : tx.optRpaPrefixSet = none ↔ rpa = false ∨ q.ctx.vin = [])
    (hsome : ∀ s, tx.optRpaPrefixSet = some s → ∀ p, p ∈ s ↔ p ∈ q.rpaPrefixes H) :
    TableRep H rpa (P.without (gone ++ [t])) (rmTxRpaAssociations table tx).2 := by
  have hrows : ∀ p g, (∃ nt, P.without (gone ++ [t]) g = some nt ∧ p ∈ nt.rpaPrefixes H) ↔
      (∃ nt, P.without gone g = some nt ∧ p ∈ nt.rpaPrefixes H) ∧
        ¬ (g = t ∧ p ∈ q.rpaPrefixes H) := by
    intro p g
    simp only [Pool.without_eq_some, List.mem_append, List.mem_singleton, not_or]
    rw [Pool.without_eq_some] at hq
    constructor
    · rintro ⟨nt, ⟨⟨hg, hgt⟩, hnt⟩, hp⟩
      exact ⟨⟨nt, ⟨hg, hnt⟩, hp⟩, fun e => hgt e.1⟩
    · rintro ⟨⟨nt, ⟨hg, hnt⟩, hp⟩, hn⟩
      refine ⟨nt, ⟨⟨hg, ?_⟩, hnt⟩, hp⟩
      rintro rfl
      rw [hq.2, Option.some.injEq] at hnt
      subst hnt
      exact hn ⟨rfl, hp⟩
  constructor
  · intro hrpa
    have ht := h.1 hrpa
    subst ht
    unfold rmTxRpaAssociations
    split <;> simp_all
  · intro hrpa
    obtain ⟨table, rfl, htable⟩ := h.2 hrpa
    cases hset : tx.optRpaPrefixSet with
    | none =>
        have hvin := (hnone.mp hset).resolve_left (by simp [hrpa])
        have hnil : q.rpaPrefixes H = [] := by simp [NewTx.rpaPrefixes, hvin]
        refine ⟨table, by simp [rmTxRpaAssociations, hset], fun p g => ?_⟩
        rw [htable, hrows, hnil]
        simp
    | some s =>
        refine ⟨_, by simp only [rmTxRpaAssociations, hset]; rfl, fun p g => ?_⟩
        rw [mem_foldl_rmRpa, htable, hrows, hhash, Std.ExtTreeSet.mem_toList, hsome s hset]

/-- A vector after removal, if removed transactions occur in affected vectors only. -/
theorem get_rmTxsInHashXTxs {txs : TxMap} {removed : TxHash → Bool}
    {affected needingSort : HashSet} {m : HashXTxMap} {sh : HashX} (hne : m[sh]? ≠ some [])
    (haff : ∀ h ∈ m[sh]?.getD [], removed h = true → sh ∈ affected) :
    (rmTxsInHashXTxs txs removed affected needingSort m)[sh]? =
      m[sh]?.bind fun v =>
        let newvec := v.filter fun h => !removed h
        if newvec = [] then none
        else some (if sh ∈ affected ∧ sh ∈ needingSort then sort (txRefLe txs) newvec
          else newvec) := by
  rw [rmTxsInHashXTxs, Std.ExtTreeMap.getElem?_filterMap']
  cases hv : m[sh]? with
  | none => rfl
  | some v =>
      simp only [Option.bind_some, List.isEmpty_iff]
      by_cases hsh : sh ∈ affected
      · simp [hsh]
      · rw [hv] at hne haff
        have hall : (v.filter fun h => !removed h) = v := by
          rw [List.filter_eq_self]
          intro h hh
          by_contra hr
          exact hsh (haff h hh (by simpa using hr))
        have hvne : v ≠ [] := fun e => hne (by rw [e])
        simp [hsh, hall, hvne]

/--
The vectors after removal are those of the remaining pool, in order: a vector is
sorted again if the flag of one of its transactions changed.
-/
theorem rep_rmTxsInHashXTxs {db' : TXO → Option TXOInfo} {mp mp' : Mempool}
    (h : Rep H rpa P db mp) {gone : List TxHash} {removed : TxHash → Bool}
    (hremoved : ∀ g, removed g = true ↔ g ∈ gone) {affected needingSort : HashSet}
    (habsent : ∀ g, P.without gone g = none → mp'.txs[g]? = none)
    (hpresent : ∀ g q, P.without gone g = some q →
      ∃ tx, mp'.txs[g]? = some tx ∧ TxRep H rpa (P.without gone) db' q tx)
    (htouches : ∀ g q sh, P.without gone g = some q →
      (P.Touches H db q sh ↔ (P.without gone).Touches H db' q sh))
    (hvecs : mp'.hashXTxs = rmTxsInHashXTxs mp'.txs removed affected needingSort mp.hashXTxs)
    (haff : ∀ g q sh, P g = some q → g ∈ gone → P.Touches H db q sh → sh ∈ affected)
    (hflag : ∀ g q, P.without gone g = some q →
      mp.txs[g]?.any Tx.hasUnconfirmedParents ≠ mp'.txs[g]?.any Tx.hasUnconfirmedParents →
      ∀ sh, P.Touches H db q sh → sh ∈ affected ∧ sh ∈ needingSort)
    (htable : TableRep H rpa (P.without gone) mp'.optPrefixTable) (hdsps : mp'.dsps = {}) :
    Rep H rpa (P.without gone) db' mp' := by
  have hget : ∀ sh : HashX, mp'.hashXTxs[sh]? = mp.hashXTxs[sh]?.bind fun v =>
      let newvec := v.filter fun h => !removed h
      if newvec = [] then none
      else some (if sh ∈ affected ∧ sh ∈ needingSort then sort (txRefLe mp'.txs) newvec
        else newvec) := by
    intro sh
    rw [hvecs]
    refine get_rmTxsInHashXTxs (h.ne_nil sh) fun g hg hr => ?_
    obtain ⟨q, hq, htouch⟩ := (h.mem_hashXTxs sh g).mp hg
    exact haff g q sh hq ((hremoved g).mp hr) htouch
  refine ⟨⟨habsent, hpresent, ?_, ?_, htable, hdsps⟩, ?_⟩
  · intro sh g
    have hmem : g ∈ mp'.hashXTxs[sh]?.getD [] ↔ g ∉ gone ∧ g ∈ mp.hashXTxs[sh]?.getD [] := by
      rw [hget, ← hremoved g, Bool.not_eq_true]
      cases mp.hashXTxs[sh]? with
      | none => simp
      | some v =>
          simp only [Option.bind_some, Option.getD_some]
          split_ifs with hnil hsort
          · have hg : g ∈ v → removed g = true := by
              intro hg
              have := List.filter_eq_nil_iff.mp hnil g hg
              simpa using this
            simp only [Option.getD_none, List.not_mem_nil, false_iff, not_and]
            intro hr hgv
            rw [hg hgv] at hr
            cases hr
          · simp [and_comm]
          · simp [and_comm]
    rw [hmem, h.mem_hashXTxs]
    constructor
    · rintro ⟨hgone, q, hq, htouch⟩
      have hq' := Pool.without_eq_some.mpr ⟨hgone, hq⟩
      exact ⟨q, hq', (htouches g q sh hq').mp htouch⟩
    · rintro ⟨q, hq', htouch⟩
      obtain ⟨hgone, hq⟩ := Pool.without_eq_some.mp hq'
      exact ⟨hgone, q, hq, (htouches g q sh hq').mpr htouch⟩
  · intro sh
    rw [hget]
    cases mp.hashXTxs[sh]? with
    | none => simp
    | some v =>
        simp only [Option.bind_some]
        split_ifs with hnil hsort
        · simp
        · intro he
          rw [Option.some.injEq] at he
          refine hnil (List.eq_nil_iff_forall_not_mem.mpr fun g hg => ?_)
          have hmem : g ∈ sort (txRefLe mp'.txs) (v.filter fun h => !removed h) := mem_sort.mpr hg
          simp [he] at hmem
        · simpa using hnil
  · intro sh w hw
    rw [hget] at hw
    cases hv : mp.hashXTxs[sh]? with
    | none => simp [hv] at hw
    | some v =>
        have hsorted := (h.sorted sh v hv).filter fun h => !removed h
        rw [hv, Option.bind_some] at hw
        simp only at hw
        split_ifs at hw with hnil hsort
        · rw [Option.some.injEq] at hw
          rw [← hw]
          exact strict_sort (isOrder_txRefLe mp'.txs) (nodup_of_strict hsorted)
        · rw [Option.some.injEq] at hw
          rw [← hw]
          -- no flag changed, or the vector would be sorted again
          have hsame : ∀ g ∈ v.filter (fun h => !removed h),
              mp.txs[g]?.any Tx.hasUnconfirmedParents =
                mp'.txs[g]?.any Tx.hasUnconfirmedParents := by
            intro g hg
            obtain ⟨hgv, hr⟩ := List.mem_filter.mp hg
            obtain ⟨q, hq, htouch⟩ := (h.mem_hashXTxs sh g).mp (by rw [hv]; exact hgv)
            have hgone : g ∉ gone := by
              rw [← hremoved g]
              simpa using hr
            by_contra hne
            exact hsort (hflag g q (Pool.without_eq_some.mpr ⟨hgone, hq⟩) hne sh htouch)
          refine hsorted.imp_of_mem fun {a b} ha hb hab => ?_
          rw [← txRefLe_congr (hsame a ha) (hsame b hb)]
          exact hab

end Mempool
end Shulcrum
