import Shulcrum.Mempool.DspAdd

/-!
# Double-spend proofs of removed transactions

Transactions leave the mempool together with their descendants, or in a block
together with their ancestors.  In both cases a proof goes with its own
transaction, and the other transactions that leave are taken off its list.

**Results.**
* `DspClosed.dropTxs`, `DspClosed.confirmedInBlock`: every proof lists the
  descendants that stay.
-/

namespace Shulcrum

open BTC TreeMap DSPs

namespace DSPs

variable {d d' : DSPs}

/-- The proofs left when the transactions in `gone` are removed. -/
structure Removes (gone : TxHash → Prop) (d d' : DSPs) : Prop where
  linked : Linked d'
  get : ∀ (h : Hash) (p' : DSProof), d'.dsproofs[h]? = some p' →
    ∃ p, d.dsproofs[h]? = some p ∧ p'.txHash = p.txHash ∧ ¬ gone p.txHash ∧
      ∀ t, t ∈ p'.descendants ↔ t ∈ p.descendants ∧ ¬ gone t

theorem removes_rmTx (hd : Linked d) (txHash : TxHash) :
    Removes (· = txHash) d (d.rmTx txHash).2 := by
  refine ⟨(linked_rmTx hd).1, ?_⟩
  intro h p' hp'
  rw [get_dsproofs_rmTx hd, Option.bind_eq_some_iff] at hp'
  obtain ⟨p, hp, hdetach⟩ := hp'
  unfold detach at hdetach
  split_ifs at hdetach with hown
  cases hdetach
  refine ⟨p, hp, rfl, hown, ?_⟩
  intro t
  have hmem : t ∈ p.descendants.erase txHash ↔ t ≠ txHash ∧ t ∈ p.descendants := mem_set_erase
  exact hmem.trans and_comm

theorem Removes.trans {gone gone' : TxHash → Prop} {d'' : DSPs} (h : Removes gone d d')
    (h' : Removes gone' d' d'') : Removes (fun t => gone t ∨ gone' t) d d'' := by
  refine ⟨h'.linked, ?_⟩
  intro k p'' hp''
  obtain ⟨p', hp', htx', hstay', hdesc'⟩ := h'.get k p'' hp''
  obtain ⟨p, hp, htx, hstay, hdesc⟩ := h.get k p' hp'
  rw [htx] at hstay'
  refine ⟨p, hp, htx'.trans htx, not_or.mpr ⟨hstay, hstay'⟩, ?_⟩
  intro t
  rw [hdesc', hdesc, not_or, and_assoc]

/-- What is removed matters only for the transactions that have proofs. -/
theorem Removes.congr {gone gone' : TxHash → Prop} (hd : Linked d) (h : Removes gone d d')
    (hgone : ∀ t k, Lists d.txDspsMap t k → (gone t ↔ gone' t)) : Removes gone' d d' := by
  refine ⟨h.linked, ?_⟩
  intro k p' hp'
  obtain ⟨p, hp, htx, hstay, hdesc⟩ := h.get k p' hp'
  have hlists : ∀ t, t ∈ p.descendants → Lists d.txDspsMap t k := by
    intro t ht
    rw [hd.lists_iff, affects_of_get hp]
    exact ht
  refine ⟨p, hp, htx, ?_, ?_⟩
  · rw [← hgone _ k (hlists _ (hd.filed k p hp).2)]
    exact hstay
  · intro t
    rw [hdesc]
    refine and_congr_right fun ht => not_congr ?_
    exact hgone t k (hlists t ht)

theorem Removes.refl (hd : Linked d) : Removes (fun _ => False) d d :=
  ⟨hd, fun _ p hp => ⟨p, hp, rfl, not_false, fun _ => by simp⟩⟩

theorem removes_foldl_rmTx (hd : Linked d) (txids : List TxHash) :
    Removes (· ∈ txids) d (txids.foldl (fun d txid => (d.rmTx txid).2) d) := by
  induction txids generalizing d with
  | nil => exact (Removes.refl hd).congr hd fun t k _ => by simp
  | cons txid txids ih =>
      have hone := removes_rmTx hd txid
      refine (hone.trans (ih hone.linked)).congr hd fun t k _ => ?_
      rw [List.mem_cons]

/-- Without proofs there are no links. -/
theorem Linked.get_of_isEmpty (hd : Linked d) (hempty : d.isEmpty = true) (tx : TxHash) :
    d.txDspsMap[tx]? = none := by
  cases hs : d.txDspsMap[tx]? with
  | none => rfl
  | some s =>
      obtain ⟨h, hh⟩ := hd.noEmpty tx s hs
      have hmem := hd.mem_dsproofs ⟨s, hs, hh⟩
      rw [Std.ExtTreeMap.isEmpty_iff.mp hempty] at hmem
      simp at hmem

theorem isSome_dspHashesForTx (hd : Linked d) {tx : TxHash} :
    (d.dspHashesForTx tx).isSome = true ↔ ∃ h, Lists d.txDspsMap tx h := by
  rw [dspHashesForTx, Option.isSome_iff_exists]
  constructor
  · rintro ⟨s, hs⟩
    obtain ⟨h, hh⟩ := hd.noEmpty tx s hs
    exact ⟨h, s, hs, hh⟩
  · rintro ⟨h, s, hs, -⟩
    exact ⟨s, hs⟩

end DSPs

namespace Mempool

variable {H : Hashers} {rpa : Bool} {P : Pool} {db : TXO → Option TXOInfo}

theorem foldl_rmTx_of_isEmpty {d : DSPs} (hd : Linked d) (hempty : d.isEmpty = true)
    (txids : List TxHash) : txids.foldl (fun d txid => (d.rmTx txid).2) d = d := by
  induction txids with
  | nil => rfl
  | cons txid txids ih =>
      have hid : (d.rmTx txid).2 = d := by
        rw [DSPs.rmTx, hd.get_of_isEmpty hempty]
      rw [List.foldl_cons, hid, ih]

/-- Stopping early when no proof is left makes no difference. -/
theorem rmDspTxs_eq_foldl {d : DSPs} (hd : Linked d) (txids : List TxHash) :
    rmDspTxs d txids = txids.foldl (fun d txid => (d.rmTx txid).2) d := by
  induction txids generalizing d with
  | nil => rfl
  | cons txid txids ih =>
      have hone := (removes_rmTx hd txid).linked
      simp only [rmDspTxs, List.foldl_cons]
      split_ifs with hempty
      · exact (foldl_rmTx_of_isEmpty hone hempty txids).symm
      · exact ih hone

/-- `dropTxs` removes the proofs of all dropped transactions. -/
theorem removes_dropDsps {d : DSPs} (hd : Linked d) (gone : List TxHash) :
    Removes (· ∈ gone) d (dropDsps d gone) := by
  have hfilter : ∀ t k, DSPs.Lists d.txDspsMap t k →
      (t ∈ gone.filter (fun h => (d.dspHashesForTx h).isSome) ↔ t ∈ gone) := by
    intro t k hl
    rw [List.mem_filter]
    exact ⟨fun h => h.1, fun h => ⟨h, (isSome_dspHashesForTx hd).mpr ⟨k, hl⟩⟩⟩
  unfold dropDsps
  dsimp only
  split_ifs with hdrop
  · rw [rmDspTxs_eq_foldl hd]
    exact (removes_foldl_rmTx hd _).congr hd hfilter
  · refine (Removes.refl hd).congr hd fun t k hl => ?_
    rw [← hfilter t k hl, false_iff]
    intro hmem
    apply hdrop
    refine ⟨?_, List.ne_nil_of_mem hmem⟩
    intro hempty
    obtain ⟨s, hs, -⟩ := hl
    rw [hd.get_of_isEmpty hempty] at hs
    cases hs

/-! ## The loop of `confirmedInBlock` -/

section Confirmed

variable (txidMap : Std.ExtTreeMap TxHash Nat compare) (height : Nat)

/-- The children of a confirmed transaction stay in the mempool, with the proofs. -/
theorem confirmChild_frame (s : RmState) (child : TxHash) :
    (∀ t, t ∈ (confirmChild txidMap height s child).mp.txs ↔ t ∈ s.mp.txs) ∧
      (confirmChild txidMap height s child).mp.dsps = s.mp.dsps ∧
      (confirmChild txidMap height s child).dspTxids = s.dspTxids := by
  unfold confirmChild
  split_ifs
  · exact ⟨fun _ => Iff.rfl, rfl, rfl⟩
  · cases htx : s.mp.txs[child]? with
    | none =>
        have hskip : recategorizeSpendsForChild txidMap height
            { s with recategorized := s.recategorized.insert child } child =
            { s with recategorized := s.recategorized.insert child } := by
          simp only [recategorizeSpendsForChild, htx]
        rw [hskip]
        exact ⟨fun _ => Iff.rfl, rfl, rfl⟩
    | some tx =>
        have hrec : Recategorized txidMap height child tx
            { s with recategorized := s.recategorized.insert child } _ := recategorized_of_get htx
        refine ⟨?_, by rw [hrec.mp], hrec.dspTxids⟩
        intro t
        rw [hrec.mp]
        simp only [mem_iff_getElem?, get_insert]
        by_cases ht : child = t
        · subst ht
          simp [htx]
        · simp [ht]

theorem foldl_confirmChild_frame (children : List TxHash) (s : RmState) :
    (∀ t, t ∈ (children.foldl (confirmChild txidMap height) s).mp.txs ↔ t ∈ s.mp.txs) ∧
      (children.foldl (confirmChild txidMap height) s).mp.dsps = s.mp.dsps ∧
      (children.foldl (confirmChild txidMap height) s).dspTxids = s.dspTxids := by
  induction children generalizing s with
  | nil => exact ⟨fun _ => Iff.rfl, rfl, rfl⟩
  | cons child children ih =>
      obtain ⟨hmem, hdsps, hids⟩ := confirmChild_frame txidMap height s child
      obtain ⟨hmems, hdspss, hidss⟩ := ih (confirmChild txidMap height s child)
      rw [List.foldl_cons]
      exact ⟨fun t => (hmems t).trans (hmem t), hdspss.trans hdsps, hidss.trans hids⟩

/-- A confirmed transaction of the mempool is erased, and noted if it has proofs. -/
theorem confirmTx_frame (s : RmState) (txid : TxHash) :
    (∀ t, t ∈ (confirmTx txidMap height s txid).mp.txs ↔ t ∈ s.mp.txs ∧ t ≠ txid) ∧
      (confirmTx txidMap height s txid).mp.dsps = s.mp.dsps ∧
      ∀ t, t ∈ (confirmTx txidMap height s txid).dspTxids ↔ t ∈ s.dspTxids ∨
        (t = txid ∧ txid ∈ s.mp.txs ∧ (s.mp.dsps.dspHashesForTx txid).isSome = true) := by
  unfold confirmTx
  cases htx : s.mp.txs[txid]? with
  | none =>
      have hnot : txid ∉ s.mp.txs := not_mem_iff_getElem?.mpr htx
      refine ⟨?_, rfl, ?_⟩
      · intro t
        refine ⟨fun ht => ⟨ht, ?_⟩, fun ht => ht.1⟩
        rintro rfl
        exact hnot ht
      · intro t
        simp [hnot]
  | some tx =>
      have hin : txid ∈ s.mp.txs := mem_iff_getElem?.mpr ⟨tx, htx⟩
      dsimp only
      obtain ⟨hmem, hdsps, hids⟩ := foldl_confirmChild_frame txidMap height
        tx.children.toList { s with
          scriptHashesAffected := addHashXs tx s.scriptHashesAffected
          dspTxids := if (s.mp.dsps.dspHashesForTx txid).isSome then s.dspTxids.insert txid
            else s.dspTxids }
      refine ⟨?_, hdsps, ?_⟩
      · intro t
        have herase : ∀ txs : TxMap,
            (t ∈ (unlinkFromParentsAndChildren txs tx).erase txid ↔ t ∈ txs ∧ t ≠ txid) := by
          intro txs
          simp only [mem_iff_getElem?, get_erase, get_unlink]
          by_cases ht : txid = t
          · simp [ht]
          · simp [ht, Ne.symm ht]
        exact (herase _).trans (and_congr_left fun _ => hmem t)
      · intro t
        have hset : t ∈ s.dspTxids.insert txid ↔ t = txid ∨ t ∈ s.dspTxids := mem_set_insert
        simp only [eraseTx, hids]
        split_ifs with hsome
        · rw [hset]
          simp [hin, hsome, or_comm]
        · simp [hsome]

theorem foldl_confirmTx_frame (txids : List TxHash) (s : RmState) :
    (txids.foldl (confirmTx txidMap height) s).mp.dsps = s.mp.dsps ∧
      ∀ t, t ∈ (txids.foldl (confirmTx txidMap height) s).dspTxids ↔ t ∈ s.dspTxids ∨
        (t ∈ txids ∧ t ∈ s.mp.txs ∧ (s.mp.dsps.dspHashesForTx t).isSome = true) := by
  induction txids generalizing s with
  | nil => exact ⟨rfl, fun t => by simp⟩
  | cons txid txids ih =>
      obtain ⟨hmem, hdsps, hids⟩ := confirmTx_frame txidMap height s txid
      obtain ⟨hdspss, hidss⟩ := ih (confirmTx txidMap height s txid)
      rw [List.foldl_cons]
      refine ⟨hdspss.trans hdsps, fun t => ?_⟩
      rw [hidss, hids, hmem, hdsps, List.mem_cons]
      by_cases ht : t = txid
      · subst ht
        simp
      · simp [ht]

/-- `confirmedInBlock` removes the proofs of all transactions of the block. -/
theorem removes_confirmedInBlock {mp : Mempool} (hd : DspClosed P mp.dsps)
    (h : Content H rpa P db mp.noDsps) (affected : HashSet) :
    Removes (· ∈ txidMap.keys) mp.dsps (confirmedInBlock txidMap height mp affected).1.dsps := by
  obtain ⟨hdsps, hids⟩ := foldl_confirmTx_frame txidMap height txidMap.keys { mp := mp }
  have hresult : (confirmedInBlock txidMap height mp affected).1.dsps =
      (txidMap.keys.foldl (confirmTx txidMap height) { mp := mp }).dspTxids.toList.foldl
        (fun dsps txid => (dsps.rmTx txid).2) mp.dsps := by
    rw [← hdsps]
    rfl
  rw [hresult]
  refine (removes_foldl_rmTx hd.linked _).congr hd.linked fun t k hl => ?_
  have hin : t ∈ mp.txs := h.mem_txs.mpr (hd.mem_of_lists hl)
  have hsome := (isSome_dspHashesForTx hd.linked).mpr ⟨k, hl⟩
  rw [Std.ExtTreeSet.mem_toList, hids]
  simp [hin, hsome]

end Confirmed

/-! ## The descendants that stay -/

theorem link_without {gone : List TxHash} {c q : TxHash} :
    (P.without gone).Link c q ↔ P.Link c q ∧ c ∉ gone ∧ q ∉ gone := by
  unfold Pool.Link Pool.Spends
  simp only [Pool.without_eq_some]
  constructor
  · rintro ⟨hq, x, ⟨hc, hx⟩, hex⟩
    by_cases hmem : q ∈ gone
    · exact absurd (Pool.without_of_mem hmem) hq
    · rw [Pool.without_of_not_mem hmem] at hq
      exact ⟨⟨hq, x, hx, hex⟩, hc, hmem⟩
  · rintro ⟨⟨hq, x, hx, hex⟩, hc, hmem⟩
    rw [Pool.without_of_not_mem hmem]
    exact ⟨hq, x, ⟨hc, hx⟩, hex⟩

/-- Descendants in the smaller pool are descendants that stay. -/
theorem Descends.of_without {gone : List TxHash} {t x : TxHash} (ht : t ∉ gone)
    (h : Descends (P.without gone) t x) : Descends P t x ∧ x ∉ gone := by
  induction h with
  | refl => exact ⟨.refl, ht⟩
  | tail _ hlast ih =>
      obtain ⟨hl, hc, -⟩ := link_without.mp hlast
      exact ⟨ih.1.tail hl, hc⟩

/-- Proofs that lose the removed transactions list the descendants that stay. -/
theorem DspClosed.removes {d d' : DSPs} (hd : DspClosed P d) {gone : List TxHash}
    (h : Removes (· ∈ gone) d d')
    (hdesc : ∀ t x, t ∉ gone → Descends P t x → x ∉ gone → Descends (P.without gone) t x) :
    DspClosed (P.without gone) d' := by
  refine ⟨h.linked, ?_, ?_⟩
  · intro k p' hp'
    obtain ⟨p, hp, htx, hstay, -⟩ := h.get k p' hp'
    rw [htx, Pool.without_of_not_mem hstay]
    exact hd.inPool k p hp
  · intro k p' hp' t
    obtain ⟨p, hp, htx, hstay, hmem⟩ := h.get k p' hp'
    rw [htx, hmem, hd.descendants k p hp]
    exact ⟨fun ht => hdesc _ t hstay ht.1 ht.2, fun ht => Descends.of_without hstay ht⟩

theorem DspClosed.dropTxs {mp : Mempool} (hd : DspClosed P mp.dsps) {gone : List TxHash}
    (hclosed : P.DescendantClosed gone) : DspClosed (P.without gone) (dropDsps mp.dsps gone) := by
  refine hd.removes (removes_dropDsps hd.linked gone) ?_
  intro t x ht hdesc hx
  induction hdesc with
  | refl => exact .refl
  | @tail b c _ hlast ih =>
      have hb : b ∉ gone := fun hb => hx (hclosed c b hlast.2 hlast.1 hb)
      exact (ih hb).tail (link_without.mpr ⟨hlast, hx, hb⟩)

theorem DspClosed.confirmedInBlock {mp : Mempool} (hd : DspClosed P mp.dsps)
    (h : Content H rpa P db mp.noDsps) {txidMap : Std.ExtTreeMap TxHash Nat compare}
    (hclosed : P.AncestorClosed txidMap.keys) (height : Nat) (affected : HashSet) :
    DspClosed (P.without txidMap.keys)
      (confirmedInBlock txidMap height mp affected).1.dsps := by
  refine hd.removes (removes_confirmedInBlock txidMap height hd h affected) ?_
  -- a descendant of a transaction that stays is not in the block
  have hstays : ∀ t x, t ∉ txidMap.keys → Descends P t x →
      Descends (P.without txidMap.keys) t x ∧ x ∉ txidMap.keys := by
    intro t x ht hdesc
    induction hdesc with
    | refl => exact ⟨.refl, ht⟩
    | @tail b c _ hlast ih =>
        have hc : c ∉ txidMap.keys := fun hc => ih.2 (hclosed c b hlast.2 hlast.1 hc)
        exact ⟨ih.1.tail (link_without.mpr ⟨hlast, hc, ih.2⟩), hc⟩
  exact fun t x ht hdesc _ => (hstays t x ht hdesc).1

end Mempool
end Shulcrum
