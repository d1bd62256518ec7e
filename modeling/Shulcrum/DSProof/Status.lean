import Shulcrum.DSProof.Links

/-!
# The status of a transaction, and what an operation must report

`DSProofSubsMgr` shows the best proof of a transaction, which depends on all
proofs that are linked to it and on their descendants.  An operation reports the
transactions whose status can differ after it.

**Results.**
* `reports_of_changed`: a report that covers the changed proofs covers the status.
* `reports_add`, `reports_empty`: adding a proof, and removing all.
-/

namespace Shulcrum
namespace DSPs

open TreeMap

/-- An order in which the elements of a hash set are iterated. -/
structure Iteration where
  elems : HashSet → List Hash
  mem_elems : ∀ s h, h ∈ elems s ↔ h ∈ s
  nodup : ∀ s, (elems s).Nodup

/-- `DSPs::proofsLinkedToTx`. -/
def proofsLinkedToTx (it : Iteration) (d : DSPs) (txHash : TxHash) : List DSProof :=
  match d.dspHashesForTx txHash with
  | none => []
  | some dspHashes => (it.elems dspHashes).filterMap fun hash => d.dsproofs[hash]?

/-- The loop of `DSPs::bestProofForTx`: a proof about the transaction itself is returned at once,
and otherwise the first one with the fewest descendants. -/
def bestProof (txHash : TxHash) (ret : Option DSProof) : List DSProof → Option DSProof
  | [] => ret
  | dsp :: dsps =>
      if dsp.txHash = txHash then some dsp
      else if ret.all fun best => dsp.descendants.size < best.descendants.size then
        bestProof txHash (some dsp) dsps
      else bestProof txHash ret dsps

/-- `DSPs::bestProofForTx`. -/
def bestProofForTx (it : Iteration) (d : DSPs) (txHash : TxHash) : Option DSProof :=
  bestProof txHash none (d.proofsLinkedToTx it txHash)

/-- `DSProofSubsMgr::getFullStatus`; a transaction without a proof has an empty status. -/
def getFullStatus (it : Iteration) (d : DSPs) (txHash : TxHash) : Option DSProof :=
  d.bestProofForTx it txHash

section Reports

variable {d d' d'' : DSPs} {D D' : HashSet}

/-- The proof `h` is linked to `t` before or after an operation. -/
def LinkedIn (d d' : DSPs) (t : TxHash) (h : Hash) : Prop :=
  Lists d.txDspsMap t h ∨ Lists d'.txDspsMap t h

/-- The transactions that an operation reports are all those with a linked proof that was added,
removed or changed, and all whose status differs. -/
structure Reports (D : HashSet) (d d' : DSPs) : Prop where
  changed : ∀ t h, LinkedIn d d' t h → h ∈ changedProofs d d' → t ∈ D
  status : ∀ it t, getFullStatus it d' t ≠ getFullStatus it d t → t ∈ D

/-- A transaction without changed proofs has the same links. -/
theorem dspHashesForTx_of_unchanged (hd : Linked d) (hd' : Linked d') {t : TxHash}
    (h : ∀ h, LinkedIn d d' t h → h ∉ changedProofs d d') :
    d'.dspHashesForTx t = d.dspHashesForTx t := by
  refine get_eq_of_lists_iff hd'.noEmpty hd.noEmpty fun k => ?_
  rw [hd'.lists_iff, hd.lists_iff]
  by_cases hl : LinkedIn d d' t k
  · have hsame : d.dsproofs[k]? = d'.dsproofs[k]? := not_not.mp (h k hl)
    rw [Affects, Affects, hsame]
  · unfold LinkedIn at hl
    rw [not_or, hd.lists_iff, hd'.lists_iff] at hl
    exact ⟨fun ha => absurd ha hl.2, fun ha => absurd ha hl.1⟩

theorem status_of_unchanged (hd : Linked d) (hd' : Linked d') {t : TxHash}
    (h : ∀ h, LinkedIn d d' t h → h ∉ changedProofs d d') (it : Iteration) :
    getFullStatus it d' t = getFullStatus it d t := by
  have hhashes := dspHashesForTx_of_unchanged hd hd' h
  have hproofs : d'.proofsLinkedToTx it t = d.proofsLinkedToTx it t := by
    unfold proofsLinkedToTx
    rw [hhashes]
    cases hs : d.dspHashesForTx t with
    | none => rfl
    | some s =>
        refine List.filterMap_congr fun k hk => ?_
        have hl : Lists d.txDspsMap t k := ⟨s, hs, (it.mem_elems s k).mp hk⟩
        exact (not_not.mp (h k (.inl hl))).symm
  unfold getFullStatus bestProofForTx
  rw [hproofs]

/-- A report that covers the changed proofs covers the status. -/
theorem reports_of_changed (hd : Linked d) (hd' : Linked d')
    (h : ∀ t h, LinkedIn d d' t h → h ∈ changedProofs d d' → t ∈ D) : Reports D d d' := by
  refine ⟨h, fun it t hdiff => ?_⟩
  by_contra hno
  exact hdiff (status_of_unchanged hd hd' (fun k hl hk => hno (h t k hl hk)) it)

theorem reports_refl (D : HashSet) (d : DSPs) : Reports D d d :=
  ⟨fun _ _ _ hk => absurd rfl hk, fun _ _ hdiff => absurd rfl hdiff⟩

theorem lists_of_same (hd : Linked d) (hd' : Linked d') {t : TxHash} {h : Hash}
    (hsame : d.dsproofs[h]? = d'.dsproofs[h]?) (hl : LinkedIn d d' t h) :
    Lists d.txDspsMap t h ∧ Lists d'.txDspsMap t h := by
  have hiff : Lists d.txDspsMap t h ↔ Lists d'.txDspsMap t h := by
    rw [hd.lists_iff, hd'.lists_iff, Affects, Affects, hsame]
  rcases hl with hl | hl
  · exact ⟨hl, hiff.mp hl⟩
  · exact ⟨hiff.mpr hl, hl⟩

theorem Reports.same (h : Reports D d d') {t : TxHash} (ht : t ∉ D) {k : Hash}
    (hl : LinkedIn d d' t k) : d.dsproofs[k]? = d'.dsproofs[k]? := by
  by_contra hne
  exact ht (h.changed t k hl hne)

/-- Two operations in a row. -/
theorem Reports.trans (hd : Linked d) (hd' : Linked d') (hd'' : Linked d'') (h : Reports D d d')
    (h' : Reports D d' d'') : Reports D d d'' := by
  refine reports_of_changed hd hd'' fun t k hl hk => ?_
  by_contra hno
  rcases hl with hl | hl
  · have hsame := h.same hno (.inl hl)
    have hl' := (lists_of_same hd hd' hsame (.inl hl)).2
    exact hk (hsame.trans (h'.same hno (.inl hl')))
  · have hsame := h'.same hno (.inr hl)
    have hl' := (lists_of_same hd' hd'' hsame (.inr hl)).1
    exact hk ((h.same hno (.inr hl')).trans hsame)

theorem Reports.mono (h : Reports D d d') (hD : ∀ t ∈ D, t ∈ D') : Reports D' d d' :=
  ⟨fun t k hl hk => hD t (h.changed t k hl hk), fun it t hdiff => hD t (h.status it t hdiff)⟩

/-! ## Adding a proof, and removing all -/

/-- A new proof changes the status of its descendants. -/
theorem reports_add (hd : Linked d) {dsp : DSProof} {b : Bool} (hadd : d.add dsp = .ok (b, d'))
    (hD : ∀ t ∈ dsp.descendants, t ∈ D) : Reports D d d' := by
  have hd' := (linked_add hd hadd).1
  unfold add at hadd
  split_ifs at hadd with hown hmem
  · obtain ⟨-, rfl⟩ := Prod.mk.inj (Except.ok.inj hadd)
    exact reports_refl D d
  · obtain ⟨-, rfl⟩ := Prod.mk.inj (Except.ok.inj hadd)
    have hnew : d.dsproofs[dsp.hash]? = none := not_mem_iff_getElem?.mp hmem
    refine reports_of_changed hd hd' fun t k hl hk => ?_
    by_cases hkey : k = dsp.hash
    · subst hkey
      rcases hl with hl | hl
      · obtain ⟨p, hp, -⟩ := (hd.lists_iff t _).mp hl
        rw [hnew] at hp
        cases hp
      · obtain ⟨p, hp, hdesc⟩ := (hd'.lists_iff t _).mp hl
        dsimp only at hp
        rw [get_insert, if_pos rfl] at hp
        obtain rfl := Option.some.inj hp
        exact hD t hdesc
    · refine absurd ?_ hk
      dsimp only
      rw [get_insert, if_neg (Ne.symm hkey)]

/-- Without any proof all transactions that had one have another status. -/
theorem reports_empty (hd : Linked d) (hD : ∀ t h, Lists d.txDspsMap t h → t ∈ D) :
    Reports D d {} := by
  refine reports_of_changed hd linked_empty fun t k hl _ => ?_
  rcases hl with hl | hl
  · exact hD t k hl
  · obtain ⟨s, hs, -⟩ := hl
    simp at hs

end Reports

end DSPs
end Shulcrum
