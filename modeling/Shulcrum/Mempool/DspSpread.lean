import Shulcrum.DSProof.Links
import Shulcrum.Lib.Repeat
import Shulcrum.Mempool.Model

/-!
# Spreading double-spend proofs to descendants

`addNewTxs` gives a new transaction the proofs of its parents.  For parents
that are new as well it repeats a pass over all such pairs until nothing is
added.

A scan over (child, parent) pairs is described by what it does to the relation
between transactions and proofs: it keeps what was there, it gives every child
the proofs that its parent had, and it adds nothing that does not follow.

**Results.**
* `scan_spreadDsps`: the loop ends with a relation that is closed under the pairs.
-/

namespace Shulcrum

open TreeMap

namespace DSPs

variable {d d' : DSPs}

/-- The parts of a proof that never change. -/
def core (p : DSProof) : DSProof := { p with descendants := ∅ }

theorem txHash_eq_of_core {p q : DSProof} (h : core p = core q) : p.txHash = q.txHash := by
  have htx : (core p).txHash = (core q).txHash := by rw [h]
  exact htx

/-- The same proofs are stored, up to their descendants. -/
def SameProofs (d d' : DSPs) : Prop :=
  ∀ h : Hash, d'.dsproofs[h]?.map core = d.dsproofs[h]?.map core

theorem SameProofs.refl (d : DSPs) : SameProofs d d := fun _ => rfl

theorem SameProofs.trans {d'' : DSPs} (h : SameProofs d d') (h' : SameProofs d' d'') :
    SameProofs d d'' := fun k => (h' k).trans (h k)

theorem SameProofs.get {k : Hash} {p' : DSProof} (h : SameProofs d d')
    (hp : d'.dsproofs[k]? = some p') : ∃ p, d.dsproofs[k]? = some p ∧ core p' = core p := by
  have hk := h k
  rw [hp, Option.map_some] at hk
  obtain ⟨p, hp, hcore⟩ := Option.map_eq_some_iff.mp hk.symm
  exact ⟨p, hp, hcore.symm⟩

theorem SameProofs.symm (h : SameProofs d d') : SameProofs d' d := fun k => (h k).symm

theorem SameProofs.mem_iff (h : SameProofs d d') {k : Hash} :
    k ∈ d'.dsproofs ↔ k ∈ d.dsproofs := by
  simp only [mem_iff_getElem?]
  constructor
  · rintro ⟨p, hp⟩
    obtain ⟨q, hq, -⟩ := h.get hp
    exact ⟨q, hq⟩
  · rintro ⟨p, hp⟩
    obtain ⟨q, hq, -⟩ := h.symm.get hp
    exact ⟨q, hq⟩

theorem SameProofs.isEmpty_eq (h : SameProofs d d') : d'.isEmpty = d.isEmpty := by
  have hiff : d'.dsproofs = ∅ ↔ d.dsproofs = ∅ := by
    simp only [Std.ExtTreeMap.eq_empty_iff_forall_not_mem, h.mem_iff]
  rw [Bool.eq_iff_iff, isEmpty, isEmpty, Std.ExtTreeMap.isEmpty_iff, Std.ExtTreeMap.isEmpty_iff]
  exact hiff

theorem sameProofs_addTx (dspHash : Hash) (txHash : TxHash) :
    SameProofs d (d.addTx dspHash txHash).2 := by
  intro h
  unfold addTx
  cases hp : d.dsproofs[dspHash]? with
  | none => rfl
  | some p =>
      dsimp only
      rw [get_insert]
      split_ifs with hk
      · rw [← hk, hp]
        rfl
      · rfl

/-- The links after `addTx` of a stored proof. -/
theorem lists_addTx (hd : Linked d) {k h : Hash} {t tx : TxHash} (hk : k ∈ d.dsproofs) :
    Lists (d.addTx k t).2.txDspsMap tx h ↔ (tx = t ∧ h = k) ∨ Lists d.txDspsMap tx h := by
  obtain ⟨p, hp⟩ := mem_iff_getElem?.mp hk
  obtain ⟨rfl, -⟩ := hd.filed k p hp
  unfold addTx
  rw [hp]
  exact lists_link

/-- `addTx` of a stored proof tells whether the link is new. -/
theorem addTx_fst_iff (hd : Linked d) {k : Hash} {t : TxHash} (hk : k ∈ d.dsproofs) :
    (d.addTx k t).1 = true ↔ ¬ Lists d.txDspsMap t k := by
  obtain ⟨p, hp⟩ := mem_iff_getElem?.mp hk
  obtain ⟨rfl, -⟩ := hd.filed k p hp
  have hnew : t ∈ p.descendants ↔ Lists d.txDspsMap t p.hash := by
    rw [hd.lists_iff, affects_of_get hp]
  have hold : p.hash ∈ d.txDspsMap.getD t ∅ ↔ Lists d.txDspsMap t p.hash := by
    rw [Lists, Std.ExtTreeMap.getD_eq_getD_getElem?]
    cases d.txDspsMap[t]? with
    | none => simp
    | some s => simp
  unfold addTx
  simp only [hp, hold, hnew, decide_eq_true_eq, or_self]

/-- A linked proof is stored. -/
theorem Linked.mem_dsproofs (hd : Linked d) {tx : TxHash} {h : Hash}
    (hl : Lists d.txDspsMap tx h) : h ∈ d.dsproofs := by
  obtain ⟨p, hp, -⟩ := (hd.lists_iff tx h).mp hl
  exact mem_iff_getElem?.mpr ⟨p, hp⟩

theorem mem_dspHashesForTx {tx : TxHash} {h : Hash} :
    h ∈ ((d.dspHashesForTx tx).getD ∅).toList ↔ Lists d.txDspsMap tx h := by
  rw [Std.ExtTreeSet.mem_toList, dspHashesForTx, Lists]
  cases d.txDspsMap[tx]? with
  | none => simp
  | some s => simp

end DSPs

namespace Mempool

open DSPs

namespace AddState

/-- The transaction table lists the proof `h` for `tx`. -/
def Lists (s : AddState) (tx : TxHash) (h : Hash) : Prop := DSPs.Lists s.mp.dsps.txDspsMap tx h

/-- Link a new transaction to one proof of a parent. -/
def linkDsp (hash : TxHash) (s : AddState) (dspHash : Hash) : AddState :=
  { s with
    mp := { s.mp with dsps := (s.mp.dsps.addTx dspHash hash).2 }
    dspTxsAffected := if (s.mp.dsps.addTx dspHash hash).1 then s.dspTxsAffected.insert hash
      else s.dspTxsAffected }

/-- The proofs of a transaction. -/
def dspHashes (s : AddState) (tx : TxHash) : List Hash :=
  ((s.mp.dsps.dspHashesForTx tx).getD ∅).toList

theorem mem_dspHashes {s : AddState} {tx : TxHash} {h : Hash} :
    h ∈ s.dspHashes tx ↔ s.Lists tx h := mem_dspHashesForTx

/-- What a scan over (child, parent) pairs does. -/
structure Scan (edges : List (TxHash × TxHash)) (s s' : AddState) : Prop where
  linked : Linked s'.mp.dsps
  same : SameProofs s.mp.dsps s'.mp.dsps
  mono : ∀ tx h, s.Lists tx h → s'.Lists tx h
  derives : ∀ e ∈ edges, ∀ h, s.Lists e.2 h → s'.Lists e.1 h
  sound : ∀ R : TxHash → Hash → Prop, (∀ e ∈ edges, ∀ h, R e.2 h → R e.1 h) →
    (∀ tx h, s.Lists tx h → R tx h) → ∀ tx h, s'.Lists tx h → R tx h
  affected : ∀ tx, tx ∈ s'.dspTxsAffected ↔
    tx ∈ s.dspTxsAffected ∨ ∃ h, s'.Lists tx h ∧ ¬ s.Lists tx h
  newParents : s'.newTxsNewParents = s.newTxsNewParents
  seen : s'.seenParents = s.seenParents

theorem Scan.refl {s : AddState} (hs : Linked s.mp.dsps) : Scan [] s s where
  linked := hs
  same := .refl _
  mono _ _ h := h
  derives _ he := by cases he
  sound _ _ hR := hR
  affected tx := by
    refine ⟨Or.inl, ?_⟩
    rintro (h | ⟨h, hl, hn⟩)
    · exact h
    · exact absurd hl hn
  newParents := rfl
  seen := rfl

/-- Two scans in a row. -/
theorem Scan.append {E E' : List (TxHash × TxHash)} {s s' s'' : AddState} (h : Scan E s s')
    (h' : Scan E' s' s'') : Scan (E ++ E') s s'' where
  linked := h'.linked
  same := h.same.trans h'.same
  mono tx k hl := h'.mono tx k (h.mono tx k hl)
  derives e he k hl := by
    rcases List.mem_append.mp he with he | he
    · exact h'.mono _ _ (h.derives e he k hl)
    · exact h'.derives e he k (h.mono _ _ hl)
  sound R hR hs := by
    refine h'.sound R (fun e he => hR e (List.mem_append_right E he)) ?_
    exact h.sound R (fun e he => hR e (List.mem_append_left E' he)) hs
  affected tx := by
    rw [h'.affected, h.affected]
    constructor
    · rintro ((ha | ⟨k, hl, hn⟩) | ⟨k, hl, hn⟩)
      · exact Or.inl ha
      · exact Or.inr ⟨k, h'.mono tx k hl, hn⟩
      · exact Or.inr ⟨k, hl, fun hs => hn (h.mono tx k hs)⟩
    · rintro (ha | ⟨k, hl, hn⟩)
      · exact Or.inl (Or.inl ha)
      · by_cases hmid : s'.Lists tx k
        · exact Or.inl (Or.inr ⟨k, hmid, hn⟩)
        · exact Or.inr ⟨k, hl, hmid⟩
  newParents := h'.newParents.trans h.newParents
  seen := h'.seen.trans h.seen

/-- A scan does not depend on how the pairs are listed. -/
theorem Scan.of_mem_iff {E E' : List (TxHash × TxHash)} {s s' : AddState} (h : Scan E s s')
    (hmem : ∀ e, e ∈ E ↔ e ∈ E') : Scan E' s s' :=
  { h with
    derives := fun e he => h.derives e ((hmem e).mpr he)
    sound := fun R hR => h.sound R fun e he => hR e ((hmem e).mp he) }

/-! ## The proofs of one parent -/

/-- What linking `t` to the proofs `hs` does. -/
structure LinkedTo (t : TxHash) (hs : List Hash) (s s' : AddState) : Prop where
  linked : Linked s'.mp.dsps
  same : SameProofs s.mp.dsps s'.mp.dsps
  lists : ∀ tx h, s'.Lists tx h ↔ s.Lists tx h ∨ (tx = t ∧ h ∈ hs)
  affected : ∀ tx, tx ∈ s'.dspTxsAffected ↔
    tx ∈ s.dspTxsAffected ∨ ∃ h, s'.Lists tx h ∧ ¬ s.Lists tx h
  newParents : s'.newTxsNewParents = s.newTxsNewParents
  seen : s'.seenParents = s.seenParents

theorem linkedTo_linkDsp {s : AddState} (hs : Linked s.mp.dsps) {k : Hash}
    (hk : k ∈ s.mp.dsps.dsproofs) (t : TxHash) : LinkedTo t [k] s (linkDsp t s k) := by
  have hlists : ∀ tx h, (linkDsp t s k).Lists tx h ↔ s.Lists tx h ∨ (tx = t ∧ h ∈ [k]) := by
    intro tx h
    rw [List.mem_singleton, or_comm]
    exact lists_addTx hs hk
  refine ⟨(linked_addTx hs).1, sameProofs_addTx k t, hlists, ?_, rfl, rfl⟩
  intro tx
  simp only [hlists, List.mem_singleton]
  by_cases hold : s.Lists t k
  · have hadd : (s.mp.dsps.addTx k t).1 = false := by
      rw [Bool.eq_false_iff, Ne, addTx_fst_iff hs hk, not_not]
      exact hold
    simp only [linkDsp, hadd, Bool.false_eq_true, if_false, iff_self_or]
    rintro ⟨h, hl | ⟨rfl, rfl⟩, hn⟩
    · exact absurd hl hn
    · exact absurd hold hn
  · have hadd : (s.mp.dsps.addTx k t).1 = true := (addTx_fst_iff hs hk).mpr hold
    have hmem : tx ∈ s.dspTxsAffected.insert t ↔ tx = t ∨ tx ∈ s.dspTxsAffected := mem_set_insert
    simp only [linkDsp, hadd, if_true, hmem]
    constructor
    · rintro (rfl | ha)
      · exact Or.inr ⟨k, Or.inr ⟨rfl, rfl⟩, hold⟩
      · exact Or.inl ha
    · rintro (ha | ⟨h, hl | ⟨rfl, rfl⟩, hn⟩)
      · exact Or.inr ha
      · exact absurd hl hn
      · exact Or.inl rfl

theorem linkedTo_foldl_linkDsp {hashes : List Hash} {s : AddState} (hs : Linked s.mp.dsps)
    (hk : ∀ k ∈ hashes, k ∈ s.mp.dsps.dsproofs) (t : TxHash) :
    LinkedTo t hashes s (hashes.foldl (linkDsp t) s) := by
  induction hashes generalizing s with
  | nil =>
      have hrefl := Scan.refl hs
      exact ⟨hs, hrefl.same, fun tx h => by simp, hrefl.affected, rfl, rfl⟩
  | cons k hashes ih =>
      have hone := linkedTo_linkDsp hs (hk k List.mem_cons_self) t
      have hrest := ih hone.linked fun k' hk' =>
        hone.same.mem_iff.mpr (hk k' (List.mem_cons_of_mem k hk'))
      rw [List.foldl_cons]
      refine ⟨hrest.linked, hone.same.trans hrest.same, ?_, ?_, ?_, ?_⟩
      · intro tx h
        rw [hrest.lists, hone.lists, List.mem_singleton, List.mem_cons]
        tauto
      · intro tx
        simp only [hrest.affected, hone.affected, hrest.lists, hone.lists]
        constructor
        · rintro ((ha | ⟨h, hl, hn⟩) | ⟨h, hl, hn⟩)
          · exact Or.inl ha
          · exact Or.inr ⟨h, Or.inl hl, hn⟩
          · exact Or.inr ⟨h, hl, fun hs => hn (Or.inl hs)⟩
        · rintro (ha | ⟨h, hl, hn⟩)
          · exact Or.inl (Or.inl ha)
          · by_cases hmid : s.Lists tx h ∨ tx = t ∧ h ∈ [k]
            · exact Or.inl (Or.inr ⟨h, hmid, hn⟩)
            · exact Or.inr ⟨h, hl, hmid⟩
      · exact hrest.newParents.trans hone.newParents
      · exact hrest.seen.trans hone.seen

end AddState

open AddState

theorem linkedTo_addDspsOfParent {s : AddState} (hs : Linked s.mp.dsps) (t q : TxHash) :
    LinkedTo t (s.dspHashes q) s (addDspsOfParent t q s) :=
  linkedTo_foldl_linkDsp hs (fun _ hk => hs.mem_dsproofs (mem_dspHashes.mp hk)) t

/-- The proofs of one parent are a scan over one pair. -/
theorem scan_addDspsOfParent {s : AddState} (hs : Linked s.mp.dsps) (t q : TxHash) :
    Scan [(t, q)] s (addDspsOfParent t q s) := by
  have h := linkedTo_addDspsOfParent hs t q
  have hlists : ∀ tx k, (addDspsOfParent t q s).Lists tx k ↔
      s.Lists tx k ∨ (tx = t ∧ s.Lists q k) := by
    intro tx k
    rw [h.lists, mem_dspHashes]
  refine ⟨h.linked, h.same, ?_, ?_, ?_, h.affected, h.newParents, h.seen⟩
  · intro tx k hl
    exact (hlists tx k).mpr (Or.inl hl)
  · intro e he k hl
    rw [List.mem_singleton.mp he] at hl ⊢
    exact (hlists t k).mpr (Or.inr ⟨rfl, hl⟩)
  · intro R hR hs tx k hl
    rcases (hlists tx k).mp hl with hold | ⟨rfl, hq⟩
    · exact hs tx k hold
    · exact hR (tx, q) List.mem_cons_self k (hs q k hq)

/-! ## One pass over all pairs -/

/-- The pairs of a new transaction and a new parent. -/
def newLinks (s : AddState) : List (TxHash × TxHash) :=
  s.newTxsNewParents.toList.flatMap fun e => e.2.toList.map fun prevTxId => (e.1, prevTxId)

theorem mem_newLinks {s : AddState} {c q : TxHash} :
    (c, q) ∈ newLinks s ↔ ∃ parents, s.newTxsNewParents[c]? = some parents ∧ q ∈ parents := by
  unfold newLinks
  rw [List.mem_flatMap]
  constructor
  · rintro ⟨e, he, hq⟩
    obtain ⟨q', hq', heq⟩ := List.mem_map.mp hq
    obtain ⟨rfl, rfl⟩ := Prod.mk.inj heq
    exact ⟨e.2, Std.ExtTreeMap.mem_toList_iff_getElem?_eq_some.mp he,
      Std.ExtTreeSet.mem_toList.mp hq'⟩
  · rintro ⟨parents, hget, hq⟩
    exact ⟨(c, parents), Std.ExtTreeMap.mem_toList_iff_getElem?_eq_some.mpr hget,
      List.mem_map.mpr ⟨q, Std.ExtTreeSet.mem_toList.mpr hq, rfl⟩⟩

/-- Link a transaction to one proof and count a new link. -/
def countLink (t : TxHash) (acc : Nat × AddState) (dspHash : Hash) : Nat × AddState :=
  (if (acc.2.mp.dsps.addTx dspHash t).1 then acc.1 + 1 else acc.1, linkDsp t acc.2 dspHash)

/-- Link a transaction to the proofs of a parent and count the new links. -/
def countLinks (acc : Nat × AddState) (e : TxHash × TxHash) : Nat × AddState :=
  (acc.2.dspHashes e.2).foldl (countLink e.1) acc

theorem spreadDspsOnce_eq (s : AddState) :
    spreadDspsOnce s = (newLinks s).foldl countLinks (0, s) := by
  have hlink : ∀ t, (fun (acc : Nat × AddState) dspHash =>
      let link := acc.2.mp.dsps.addTx dspHash t
      let s := { acc.2 with mp := { acc.2.mp with dsps := link.2 } }
      if link.1 then (acc.1 + 1, { s with dspTxsAffected := s.dspTxsAffected.insert t })
      else (acc.1, s)) = countLink t := by
    intro t
    funext acc dspHash
    unfold countLink linkDsp
    cases hadd : (acc.2.mp.dsps.addTx dspHash t).1 with
    | false => simp [hadd]
    | true => simp [hadd]
  unfold spreadDspsOnce newLinks
  rw [List.foldl_flatMap]
  simp only [List.foldl_map]
  congr 1
  funext acc e
  congr 1
  funext acc q
  exact congrArg (fun f => List.foldl f acc (acc.2.dspHashes q)) (hlink e.1)

theorem snd_foldl_countLink (t : TxHash) (hashes : List Hash) (acc : Nat × AddState) :
    (hashes.foldl (countLink t) acc).2 = hashes.foldl (linkDsp t) acc.2 := by
  induction hashes generalizing acc with
  | nil => rfl
  | cons k hashes ih => exact ih (countLink t acc k)

theorem snd_countLinks (acc : Nat × AddState) (e : TxHash × TxHash) :
    (countLinks acc e).2 = addDspsOfParent e.1 e.2 acc.2 := snd_foldl_countLink e.1 _ acc

theorem snd_foldl_countLinks (edges : List (TxHash × TxHash)) (acc : Nat × AddState) :
    (edges.foldl countLinks acc).2 =
      edges.foldl (fun s e => addDspsOfParent e.1 e.2 s) acc.2 := by
  induction edges generalizing acc with
  | nil => rfl
  | cons e edges ih =>
      rw [List.foldl_cons, ih, snd_countLinks]
      rfl

theorem scan_foldl_addDspsOfParent (edges : List (TxHash × TxHash)) {s : AddState}
    (hs : Linked s.mp.dsps) :
    Scan edges s (edges.foldl (fun s e => addDspsOfParent e.1 e.2 s) s) := by
  induction edges generalizing s with
  | nil => exact Scan.refl hs
  | cons e edges ih =>
      have hone := scan_addDspsOfParent hs e.1 e.2
      exact hone.append (ih hone.linked)

theorem scan_spreadDspsOnce {s : AddState} (hs : Linked s.mp.dsps) :
    Scan (newLinks s) s (spreadDspsOnce s).2 := by
  rw [spreadDspsOnce_eq, snd_foldl_countLinks]
  exact scan_foldl_addDspsOfParent (newLinks s) hs

/-! ## The loop -/

section Loop

open Classical

variable (K : Finset TxHash) (D : Finset Hash)

/-- The pairs of a transaction in `K` and a proof in `D` that are not linked. -/
noncomputable def missing (s : AddState) : Finset (TxHash × Hash) :=
  (K ×ˢ D).filter fun e => ¬ s.Lists e.1 e.2

variable {K D}

theorem mem_missing {s : AddState} {t : TxHash} {k : Hash} :
    (t, k) ∈ missing K D s ↔ (t ∈ K ∧ k ∈ D) ∧ ¬ s.Lists t k := by
  rw [missing, Finset.mem_filter, Finset.mem_product]

/-- Every link that is counted was missing before. -/
theorem card_missing_countLink {acc : Nat × AddState} (hs : Linked acc.2.mp.dsps) {t : TxHash}
    (ht : t ∈ K) {k : Hash} (hD : k ∈ D) (hk : k ∈ acc.2.mp.dsps.dsproofs) :
    (countLink t acc k).1 + (missing K D (countLink t acc k).2).card =
      acc.1 + (missing K D acc.2).card := by
  have hlists := (linkedTo_linkDsp hs hk t).lists
  have hsnd : (countLink t acc k).2 = linkDsp t acc.2 k := rfl
  by_cases hold : acc.2.Lists t k
  · have hadd : (acc.2.mp.dsps.addTx k t).1 = false := by
      rw [Bool.eq_false_iff, Ne, addTx_fst_iff hs hk, not_not]
      exact hold
    have hsame : missing K D (countLink t acc k).2 = missing K D acc.2 := by
      refine Finset.filter_congr fun e _ => not_congr ?_
      rw [hsnd, hlists, List.mem_singleton]
      refine ⟨?_, Or.inl⟩
      rintro (hl | ⟨he, hk'⟩)
      · exact hl
      · rw [he, hk']
        exact hold
    rw [hsame]
    simp [countLink, hadd]
  · have hadd : (acc.2.mp.dsps.addTx k t).1 = true := (addTx_fst_iff hs hk).mpr hold
    have hmem : (t, k) ∈ missing K D acc.2 := mem_missing.mpr ⟨⟨ht, hD⟩, hold⟩
    have herase : missing K D (countLink t acc k).2 = (missing K D acc.2).erase (t, k) := by
      ext ⟨t', k'⟩
      rw [Finset.mem_erase, mem_missing, mem_missing, hsnd, hlists, List.mem_singleton, Ne,
        Prod.mk.injEq]
      tauto
    have hcard := Finset.card_erase_add_one hmem
    rw [herase]
    simp only [countLink, hadd, if_true]
    omega

theorem card_missing_foldl_countLink {t : TxHash} (ht : t ∈ K) {hashes : List Hash}
    {acc : Nat × AddState} (hs : Linked acc.2.mp.dsps) (hD : ∀ k ∈ acc.2.mp.dsps.dsproofs, k ∈ D)
    (hk : ∀ k ∈ hashes, k ∈ acc.2.mp.dsps.dsproofs) :
    (hashes.foldl (countLink t) acc).1 + (missing K D (hashes.foldl (countLink t) acc).2).card =
      acc.1 + (missing K D acc.2).card := by
  induction hashes generalizing acc with
  | nil => rfl
  | cons k hashes ih =>
      have hk₁ := hk k List.mem_cons_self
      have hone := linkedTo_linkDsp hs hk₁ t
      rw [List.foldl_cons, ih]
      · exact card_missing_countLink hs ht (hD k hk₁) hk₁
      · exact hone.linked
      · intro k' hk'
        exact hD k' (hone.same.mem_iff.mp hk')
      · intro k' hk'
        exact hone.same.mem_iff.mpr (hk k' (List.mem_cons_of_mem k hk'))

theorem card_missing_foldl_countLinks {edges : List (TxHash × TxHash)}
    (hK : ∀ e ∈ edges, e.1 ∈ K) (acc : Nat × AddState) (hs : Linked acc.2.mp.dsps)
    (hD : ∀ k ∈ acc.2.mp.dsps.dsproofs, k ∈ D) :
    (edges.foldl countLinks acc).1 + (missing K D (edges.foldl countLinks acc).2).card =
      acc.1 + (missing K D acc.2).card := by
  induction edges generalizing acc with
  | nil => rfl
  | cons e edges ih =>
      have hone := scan_addDspsOfParent hs e.1 e.2
      rw [← snd_countLinks] at hone
      rw [List.foldl_cons, ih]
      · refine card_missing_foldl_countLink (hK e List.mem_cons_self) hs hD ?_
        intro k hk
        exact hs.mem_dsproofs (mem_dspHashes.mp hk)
      · intro e' he'
        exact hK e' (List.mem_cons_of_mem e he')
      · exact hone.linked
      · intro k hk
        exact hD k (hone.same.mem_iff.mp hk)

theorem spreadDsps_eq (fuel : Nat) (s : AddState) :
    spreadDsps fuel s = Repeat.untilZero spreadDspsOnce fuel s := by
  induction fuel generalizing s with
  | zero => rfl
  | succ fuel ih =>
      rw [Repeat.untilZero, ← ih]
      rfl

theorem newLinks_congr {s s' : AddState} (h : s'.newTxsNewParents = s.newTxsNewParents) :
    newLinks s' = newLinks s := by
  rw [newLinks, newLinks, h]

/-- A scan that leaves no fewer links missing adds no link. -/
theorem AddState.Scan.lists_of_card {edges : List (TxHash × TxHash)} {s s' : AddState}
    (h : Scan edges s s') (hK : ∀ e ∈ edges, e.1 ∈ K) (hD : ∀ k ∈ s'.mp.dsps.dsproofs, k ∈ D)
    (hcard : (missing K D s').card = (missing K D s).card) {tx : TxHash} {k : Hash}
    (hl : s'.Lists tx k) : s.Lists tx k := by
  have hsub : missing K D s' ⊆ missing K D s := by
    rintro ⟨t, k⟩ hm
    obtain ⟨hKD, hn⟩ := mem_missing.mp hm
    exact mem_missing.mpr ⟨hKD, fun hl => hn (h.mono t k hl)⟩
  have heq := Finset.eq_of_subset_of_card_le hsub (le_of_eq hcard.symm)
  have horigin : s.Lists tx k ∨ tx ∈ K :=
    h.sound (fun tx k => s.Lists tx k ∨ tx ∈ K) (fun e he _ _ => Or.inr (hK e he))
      (fun _ _ => Or.inl) tx k hl
  rcases horigin with hold | htx
  · exact hold
  · by_contra hn
    have hm : (tx, k) ∈ missing K D s :=
      mem_missing.mpr ⟨⟨htx, hD k (h.linked.mem_dsproofs hl)⟩, hn⟩
    rw [← heq, mem_missing] at hm
    exact hm.2 hl

/-- The loop ends, and no new transaction lacks a proof of a new parent. -/
theorem scan_spreadDsps {s : AddState} (hs : Linked s.mp.dsps) {s' : AddState}
    (hs' : s' = spreadDsps (s.newTxsNewParents.size * s.mp.dsps.size + 1) s) :
    Scan (newLinks s) s s' ∧
      ∀ e ∈ newLinks s, ∀ k, s'.Lists e.2 k → s'.Lists e.1 k := by
  let K : Finset TxHash := s.newTxsNewParents.keys.toFinset
  let D : Finset Hash := s.mp.dsps.dsproofs.keys.toFinset
  have hK : ∀ e ∈ newLinks s, e.1 ∈ K := by
    rintro ⟨c, q⟩ he
    obtain ⟨parents, hget, -⟩ := mem_newLinks.mp he
    simp only [K, List.mem_toFinset, Std.ExtTreeMap.mem_keys]
    exact mem_iff_getElem?.mpr ⟨parents, hget⟩
  have hD : ∀ {E t}, Scan E s t → ∀ k ∈ t.mp.dsps.dsproofs, k ∈ D := by
    intro E t ht k hk
    simp only [D, List.mem_toFinset, Std.ExtTreeMap.mem_keys]
    exact ht.same.mem_iff.mp hk
  have hfuel : (missing K D s).card < s.newTxsNewParents.size * s.mp.dsps.size + 1 := by
    have hle : (missing K D s).card ≤ K.card * D.card := by
      rw [← Finset.card_product]
      exact Finset.card_filter_le _ _
    have hKcard : K.card ≤ s.newTxsNewParents.size := by
      rw [← Std.ExtTreeMap.length_keys]
      exact List.toFinset_card_le _
    have hDcard : D.card ≤ s.mp.dsps.size := by
      rw [DSPs.size, ← Std.ExtTreeMap.length_keys]
      exact List.toFinset_card_le _
    have := Nat.mul_le_mul hKcard hDcard
    omega
  -- the states between two passes are the ones reached by scans over some of the pairs
  let I : AddState → Prop := fun t => ∃ E ⊆ newLinks s, Scan E s t
  have hpass : ∀ {E t}, Scan E s t → Scan (newLinks s) t (spreadDspsOnce t).2 := by
    intro E t ht
    have hone := scan_spreadDspsOnce ht.linked
    rw [newLinks_congr ht.newParents] at hone
    exact hone
  have hkeep : ∀ t, I t → I (spreadDspsOnce t).2 := by
    rintro t ⟨E, hE, ht⟩
    exact ⟨E ++ newLinks s, List.append_subset.mpr ⟨hE, List.Subset.refl _⟩,
      ht.append (hpass ht)⟩
  have hcount : ∀ t, I t →
      (spreadDspsOnce t).1 + (missing K D (spreadDspsOnce t).2).card = (missing K D t).card := by
    rintro t ⟨E, -, ht⟩
    have hsum := card_missing_foldl_countLinks hK (0, t) ht.linked (hD ht)
    rw [spreadDspsOnce_eq, newLinks_congr ht.newParents, hsum, Nat.zero_add]
  obtain ⟨t, ⟨E, hE, ht⟩, hzero, hlast⟩ := Repeat.untilZero_spec (I := I)
    (m := fun t => (missing K D t).card) hkeep hcount hfuel ⟨[], List.nil_subset _, Scan.refl hs⟩
  have hscan := hpass ht
  have hall := ht.append hscan
  have hcard := hcount t ⟨E, hE, ht⟩
  rw [hzero, Nat.zero_add] at hcard
  rw [spreadDsps_eq, hlast] at hs'
  subst hs'
  refine ⟨hall.of_mem_iff fun e => ?_, fun e he k hl => ?_⟩
  · rw [List.mem_append]
    exact ⟨fun he => he.elim (fun h => hE h) id, Or.inr⟩
  · exact hscan.derives e he k (hscan.lists_of_card hK (hD hall) hcard hl)

end Loop

/-- The loop of `addNewTxs` over new transactions with new parents, where it is entered. -/
def spreadNew (s : AddState) : AddState :=
  if ¬ s.mp.dsps.isEmpty ∧ ¬ s.newTxsNewParents.isEmpty ∧ ¬ s.dspTxsAffected.isEmpty then
    spreadDsps (s.newTxsNewParents.size * s.mp.dsps.size + 1) s
  else s

/-- After the loop only the returned set of affected transactions changes. -/
theorem finishDsps_eq_spreadNew (s : AddState) :
    finishDsps s = { spreadNew s with
      dspTxsAffected := if (spreadNew s).dspTxsAffected.isEmpty then (spreadNew s).dspTxsAffected
        else (spreadNew s).mp.dsps.txsLinkedToTxs (spreadNew s).dspTxsAffected } := by
  have hdef : finishDsps s = if (spreadNew s).dspTxsAffected.isEmpty then spreadNew s
      else { spreadNew s with
        dspTxsAffected := (spreadNew s).mp.dsps.txsLinkedToTxs (spreadNew s).dspTxsAffected } :=
    rfl
  rw [hdef]
  split_ifs <;> rfl

end Mempool
end Shulcrum
