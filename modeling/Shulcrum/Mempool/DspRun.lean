import Shulcrum.Mempool.DspRemove

/-!
# Runs with double-spend proofs

The runs of the mempool, with steps that add and remove double-spend proofs.  A
proof is added with all descendants of its transaction that are in the mempool.

**Results.**
* `runInv_of_dspReachable`: without its proofs the mempool is as in the runs without proofs.
* `dsp_descendants_of_runs`: in every run a proof lists its transaction, which is in the
  mempool, and all descendants of it.
-/

namespace Shulcrum

open BTC TreeMap DSPs Invariant

namespace Mempool

variable (H : Hashers) (rpa : Bool)

/-- The steps of a run with double-spend proofs. -/
inductive DspStep : RunState → RunState → Prop
  | base {s t : RunState} (hstep : Step H s t) : DspStep s t
  /-- `DSPs::add` of a proof about a transaction of the mempool, with all its descendants. -/
  | addProof {s : RunState} (dsp : DSProof) {r : Bool × DSPs} (hin : dsp.txHash ∈ s.mp.txs)
      (hdesc : ∀ t, t ∈ dsp.descendants ↔ Descends (Pool.ofList s.txs) dsp.txHash t)
      (hadd : s.mp.dsps.add dsp = .ok r) :
      DspStep s { s with mp := { s.mp with dsps := r.2 } }
  | rmProof {s : RunState} (hash : Hash) :
      DspStep s { s with mp := { s.mp with dsps := (s.mp.dsps.rm hash).2 } }

variable {H rpa}

/-- Steps on the proofs are not seen without the proofs. -/
theorem DspStep.noDsps {s t : RunState} (h : DspStep H s t) :
    Step H s.noDsps t.noDsps ∨ t.noDsps = s.noDsps := by
  cases h with
  | base hstep => exact Or.inl hstep.noDsps
  | addProof dsp hin hdesc hadd => exact Or.inr rfl
  | rmProof hash => exact Or.inr rfl

theorem reachable_noDsps {s : RunState} (h : Reachable (RunState.Start rpa) (DspStep H) s) :
    Reachable (RunState.Start rpa) (Step H) s.noDsps := by
  induction h with
  | @start s hs =>
      refine .start ⟨?_, hs.2⟩
      rw [RunState.noDsps, hs.1]
      rfl
  | next _ hstep ih =>
      rcases hstep.noDsps with hst | heq
      · exact ih.next hst
      · rw [heq]
        exact ih

/-- Without its proofs the mempool represents its transactions. -/
theorem runInv_of_dspReachable {s : RunState}
    (h : Reachable (RunState.Start rpa) (DspStep H) s) : RunInv H rpa s.noDsps :=
  runInv_of_reachable (reachable_noDsps h)

/-- `DSPs::add` of a proof with all descendants of its transaction. -/
theorem DspClosed.add {P : Pool} {d : DSPs} (hd : DspClosed P d) {dsp : DSProof}
    (hin : P dsp.txHash ≠ none) (hdesc : ∀ t, t ∈ dsp.descendants ↔ Descends P dsp.txHash t)
    {r : Bool × DSPs} (hadd : d.add dsp = .ok r) : DspClosed P r.2 := by
  obtain ⟨b, d'⟩ := r
  have hlinked := (linked_add hd.linked hadd).1
  have hget : ∀ (k : Hash) (p : DSProof), d'.dsproofs[k]? = some p →
      p = dsp ∨ d.dsproofs[k]? = some p := by
    intro k p hp
    unfold DSPs.add at hadd
    split_ifs at hadd
    · simp only [Except.ok.injEq, Prod.mk.injEq] at hadd
      rw [hadd.2]
      exact Or.inr hp
    · simp only [Except.ok.injEq, Prod.mk.injEq] at hadd
      rw [← hadd.2, get_insert] at hp
      split_ifs at hp
      · exact Or.inl (Option.some.inj hp).symm
      · exact Or.inr hp
  refine ⟨hlinked, ?_, ?_⟩
  · intro k p hp
    rcases hget k p hp with rfl | hp
    · exact hin
    · exact hd.inPool k p hp
  · intro k p hp
    rcases hget k p hp with rfl | hp
    · exact hdesc
    · exact hd.descendants k p hp

theorem DspClosed.rm {P : Pool} {d : DSPs} (hd : DspClosed P d) (hash : Hash) :
    DspClosed P (d.rm hash).2 := by
  have hget : ∀ (k : Hash) (p : DSProof), (d.rm hash).2.dsproofs[k]? = some p →
      d.dsproofs[k]? = some p := by
    intro k p hp
    cases hstored : d.dsproofs[hash]? with
    | none =>
        rw [DSPs.rm, hstored] at hp
        exact hp
    | some q =>
        rw [dsproofs_rm hstored, get_erase] at hp
        split_ifs at hp
        exact hp
  exact ⟨(linked_rm hd.linked).1, fun k p hp => hd.inPool k p (hget k p hp),
    fun k p hp => hd.descendants k p (hget k p hp)⟩

/-- One step of a run without changes to the proofs keeps the lists of descendants complete. -/
theorem DspClosed.step {s t : RunState} (hd : DspClosed (Pool.ofList s.txs) s.mp.dsps)
    (hinv : RunInv H rpa s.noDsps) (h : Step H s t) :
    DspClosed (Pool.ofList t.txs) t.mp.dsps := by
  have hkeyed := Pool.keyed_ofList s.txs
  have hcontent : Content H rpa (Pool.ofList s.txs) s.db s.mp.noDsps := hinv.rep.toContent
  have hnodup : (s.txs.map NewTx.hash).Nodup := hinv.nodup
  cases h with
  | @add news affected r hfresh hspends hok =>
      rw [Pool.ofList_append]
      exact (hd.addNewTxs hcontent hkeyed hfresh hok).1
  | @drop txids affected r hdrop =>
      obtain ⟨r', hdrop', -, hgone, hdsps⟩ := dropTxs_noDsps hdrop
      obtain ⟨gone, r'', hdrop'', rfl, hmem, -⟩ :=
        hinv.rep.dropTxs hinv.noDoubleSpend hkeyed affected txids
      have hsame : r'' = r' := by
        rw [← Option.some.injEq, ← hdrop', ← hdrop'']
        rfl
      rw [hsame, hgone] at hmem
      rw [Pool.ofList_filter hnodup, hdsps]
      exact hd.dropTxs (descendantClosed_of_mem hmem)
  | @confirm txidMap height affected db' hconfirms =>
      rw [Pool.ofList_filter hnodup]
      exact hd.confirmedInBlock hcontent hconfirms.closed height affected
  | clear db' => exact dspClosed_empty _

/-- The lists of descendants are complete in every run. -/
theorem dspClosed_of_reachable {s : RunState}
    (h : Reachable (RunState.Start rpa) (DspStep H) s) :
    DspClosed (Pool.ofList s.txs) s.mp.dsps := by
  induction h with
  | @start s hs =>
      rw [hs.1]
      exact dspClosed_empty _
  | @next s t hs hstep ih =>
      have hinv := runInv_of_dspReachable hs
      cases hstep with
      | base hst => exact ih.step hinv hst
      | addProof dsp hin hdesc hadd =>
          have hcontent : Content H rpa (Pool.ofList s.txs) s.db s.mp.noDsps :=
            hinv.rep.toContent
          exact ih.add (hcontent.mem_txs.mp hin) hdesc hadd
      | rmProof hash => exact ih.rm hash

/-- The transaction `child` of the list spends an output of the transaction `parent` of it. -/
def ChildOf (txs : List NewTx) (parent child : TxHash) : Prop :=
  (∃ p ∈ txs, p.hash = parent) ∧ ∃ c ∈ txs, c.hash = child ∧ ∃ txo ∈ c.prevouts, txo.txHash = parent

theorem link_iff_childOf {txs : List NewTx} (hnodup : (txs.map NewTx.hash).Nodup) {p c : TxHash} :
    (Pool.ofList txs).Link c p ↔ ChildOf txs p c := by
  unfold Pool.Link Pool.Spends ChildOf
  rw [Option.ne_none_iff_exists']
  simp only [Pool.ofList_eq_some hnodup, and_assoc]

/-- The descendants of a transaction, without itself and of the transactions of the list. -/
theorem descends_iff {txs : List NewTx} (hnodup : (txs.map NewTx.hash).Nodup) {t x : TxHash} :
    Descends (Pool.ofList txs) t x ↔ x = t ∨ Relation.TransGen (ChildOf txs) t x := by
  have hrel : (fun p c => Pool.ofList txs p ≠ none ∧ (Pool.ofList txs).Spends c p) =
      ChildOf txs := by
    funext p c
    exact propext (link_iff_childOf hnodup)
  rw [Descends, hrel, Relation.reflTransGen_iff_eq_or_transGen]

/--
In every run the transactions in the mempool are those of the run, every stored
proof is about one of them, and it lists this transaction and all its descendants
in the mempool.
-/
theorem dsp_descendants_of_runs {s : RunState}
    (h : Reachable (RunState.Start rpa) (DspStep H) s) :
    (∀ g, g ∈ s.mp.txs ↔ ∃ nt ∈ s.txs, nt.hash = g) ∧
      ∀ (k : Hash) (p : DSProof), s.mp.dsps.dsproofs[k]? = some p →
        p.txHash ∈ s.mp.txs ∧
          ∀ t, t ∈ p.descendants ↔ t = p.txHash ∨
            Relation.TransGen (ChildOf s.txs) p.txHash t := by
  have hinv := runInv_of_dspReachable h
  have hclosed := dspClosed_of_reachable h
  have hnodup : (s.txs.map NewTx.hash).Nodup := hinv.nodup
  have hcontent : Content H rpa (Pool.ofList s.txs) s.db s.mp.noDsps := hinv.rep.toContent
  have hmem : ∀ g, g ∈ s.mp.txs ↔ Pool.ofList s.txs g ≠ none := fun g => hcontent.mem_txs
  refine ⟨?_, ?_⟩
  · intro g
    rw [hmem, Option.ne_none_iff_exists']
    simp only [Pool.ofList_eq_some hnodup]
  · intro k p hp
    refine ⟨(hmem _).mpr (hclosed.inPool k p hp), ?_⟩
    intro t
    rw [hclosed.descendants k p hp, descends_iff hnodup]

section Witness

/-- A proof about `parentTx`, known before its child. -/
def parentProof : DSProof where
  hash := 70
  serializedProof := [1, 2, 3]
  txo := ⟨9, 0⟩
  txHash := 1
  descendants := (∅ : HashSet).insert 1

theorem fresh_parentTx : Fresh (Pool.ofList []) [parentTx] :=
  ⟨by decide, fun _ _ => rfl, fun _ _ _ _ hq => by cases hq⟩

theorem fresh_childTx : Fresh (Pool.ofList [parentTx]) [childTx] := by
  refine ⟨by decide, ?_, ?_⟩
  · intro nt hnt
    rw [List.mem_singleton.mp hnt]
    decide
  · intro nt hnt g q hq txo htxo
    obtain ⟨hmem, -⟩ := (Pool.ofList_eq_some (by decide)).mp hq
    rw [List.mem_singleton.mp hmem] at htxo
    rw [List.mem_singleton.mp hnt, List.mem_singleton.mp htxo]
    decide

theorem resolved_parentTx : (Pool.ofList [parentTx]).Resolved opTrueHashers oneOutput := by
  intro h q hq txo htxo
  obtain ⟨hmem, -⟩ := (Pool.ofList_eq_some (by decide)).mp hq
  rw [List.mem_singleton.mp hmem] at htxo
  rw [List.mem_singleton.mp htxo]
  have hnone : Pool.ofList [parentTx] (TXO.mk 9 0).txHash = none := by decide
  exact ⟨_, (Pool.prevInfo_of_none hnone).trans rfl⟩

/-- Alone in the mempool `parentTx` has no descendants. -/
theorem descendants_parentProof (t : TxHash) :
    t ∈ parentProof.descendants ↔ Descends (Pool.ofList [parentTx]) parentProof.txHash t := by
  have hmem : t ∈ parentProof.descendants ↔ t = 1 ∨ t ∈ (∅ : HashSet) := mem_set_insert
  rw [hmem, descends_iff (by decide)]
  refine or_congr Iff.rfl ⟨fun ht => by simp at ht, ?_⟩
  intro hdesc
  obtain ⟨x, -, ⟨p, hp, hpx⟩, c, hc, -, txo, htxo, hprev⟩ := Relation.TransGen.tail'_iff.mp hdesc
  rw [List.mem_singleton.mp hc] at htxo
  rw [List.mem_singleton.mp hp] at hpx
  rw [List.mem_singleton.mp htxo, ← hpx] at hprev
  exact absurd hprev (by decide)

/-- The child of a transaction with a proof is added to the list of the proof. -/
theorem dsp_descendants_of_childTx : ∃ (s : RunState) (p : DSProof),
    Reachable (RunState.Start false) (DspStep opTrueHashers) s ∧ s.txs = [parentTx, childTx] ∧
      s.mp.dsps.dsproofs[parentProof.hash]? = some p ∧
      ∀ t, t ∈ p.descendants ↔ t = p.txHash ∨ Relation.TransGen (ChildOf s.txs) p.txHash t := by
  have hinit : Reachable (RunState.Start false) (DspStep opTrueHashers)
      { mp := empty false, txs := [], db := oneOutput } := .start ⟨rfl, rfl⟩
  obtain ⟨r₁, hok₁, hrep₁⟩ := rebuild false (by decide) resolved_parentTx ∅
  have hs₁ := hinit.next
    (.base (.add [parentTx] ∅ fresh_parentTx (noDoubleSpend_single parentTx) hok₁))
  have hin : (1 : TxHash) ∈ r₁.1.txs := by
    rw [hrep₁.toContent.mem_txs]
    decide
  have hadd : r₁.1.dsps.add parentProof = .ok (true, {
      dsproofs := (∅ : Std.ExtTreeMap Hash DSProof compare).insert parentProof.hash parentProof
      txDspsMap := parentProof.descendants.toList.foldl
        (fun m t => DSPs.link m t parentProof.hash) ∅ }) := by
    rw [hrep₁.dsps]
    rfl
  have hs₂ := hs₁.next (.addProof parentProof hin descendants_parentProof hadd)
  have hinv₂ := runInv_of_dspReachable hs₂
  have hres : ∀ nt ∈ [childTx], ∀ txo ∈ nt.prevouts, ∃ info,
      ((Pool.ofList [parentTx]).putAll [childTx]).prevInfo opTrueHashers oneOutput txo =
        some info := by
    intro nt hnt txo htxo
    rw [List.mem_singleton.mp hnt] at htxo
    exact resolved_parentChild 2 childTx (by decide) txo htxo
  obtain ⟨r₃, hok₃, -⟩ := hinv₂.rep.addNewTxs (Pool.keyed_ofList _) fresh_childTx hres ∅
  obtain ⟨r, hok, -⟩ := addNewTxs_ok_of_noDsps hok₃
  have hs := hs₂.next (.base (.add [childTx] ∅ fresh_childTx noDoubleSpend_parentChild hok))
  have hkept := ((dspClosed_of_reachable hs₂).addNewTxs hinv₂.rep.toContent
    (Pool.keyed_ofList _) fresh_childTx hok).2
  have hstored : parentProof.hash ∈ r.1.dsps.dsproofs := by
    rw [hkept.mem_iff]
    simp
  obtain ⟨p, hp⟩ := mem_iff_getElem?.mp hstored
  exact ⟨_, p, hs, rfl, hp, ((dsp_descendants_of_runs hs).2 _ p hp).2⟩

end Witness

end Mempool
end Shulcrum
