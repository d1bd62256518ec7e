import Shulcrum.DSProof.Status
import Shulcrum.Mempool.DropFrame
import Shulcrum.Mempool.DspAdd

/-!
# What the operations of the mempool report about proofs

`dropTxs` and `confirmedInBlock` collect the transactions that share a proof with a
removed one before they remove it.  `addNewTxs` notes the new transactions that get
a proof and then takes all that share a proof with one of them.

Only the tables of the proofs matter: nothing is asked of the other tables or of the
transactions.

**Results.**
* `reports_dropTxs`, `reports_confirmedInBlock`: the removals.
* `Spread`, `reports_addNewTxs`: the links that are added.
-/

namespace Shulcrum

open TreeMap DSPs

namespace DSPs

variable {d : DSPs}

/-- A proof that is linked to none of the removed transactions stays as it is. -/
theorem get_foldl_rmTx_of_not_linked (hd : Linked d) {txids : List TxHash} {h : Hash}
    (hno : ∀ u ∈ txids, ¬ Lists d.txDspsMap u h) :
    (txids.foldl (fun d txid => (d.rmTx txid).2) d).dsproofs[h]? = d.dsproofs[h]? := by
  induction txids generalizing d with
  | nil => rfl
  | cons u us ih =>
      have hone : (d.rmTx u).2.dsproofs[h]? = d.dsproofs[h]? := by
        rw [get_dsproofs_rmTx hd]
        cases hp : d.dsproofs[h]? with
        | none => rfl
        | some p =>
            have hnot : u ∉ p.descendants := fun hmem =>
              hno u List.mem_cons_self ((hd.lists_iff u h).mpr ⟨p, hp, hmem⟩)
            exact detach_of_not_mem (hd.filed h p hp).2 hnot
      rw [List.foldl_cons, ih (linked_rmTx hd).1, hone]
      intro v hv hl
      exact hno v (List.mem_cons_of_mem u hv) (lists_of_rmTx hd hl)

theorem lists_of_foldl_rmTx (hd : Linked d) {txids : List TxHash} {t : TxHash} {h : Hash}
    (hl : Lists (txids.foldl (fun d txid => (d.rmTx txid).2) d).txDspsMap t h) :
    Lists d.txDspsMap t h := by
  induction txids generalizing d with
  | nil => exact hl
  | cons u us ih => exact lists_of_rmTx hd (ih (linked_rmTx hd).1 hl)

/-- Removing transactions changes the status of those that share a proof with one of them. -/
theorem reports_foldl_rmTx (hd : Linked d) {txids : List TxHash} {D : HashSet}
    (hD : ∀ u ∈ txids, u ∈ D) :
    Reports (d.txsLinkedToTxs D) d (txids.foldl (fun d txid => (d.rmTx txid).2) d) := by
  refine reports_of_changed hd (removes_foldl_rmTx hd txids).linked fun t k hl hk => ?_
  have hlt : Lists d.txDspsMap t k := by
    rcases hl with hl | hl
    · exact hl
    · exact lists_of_foldl_rmTx hd hl
  have hshared : ∃ u ∈ txids, Lists d.txDspsMap u k := by
    by_contra hno
    push Not at hno
    exact hk (get_foldl_rmTx_of_not_linked hd hno).symm
  obtain ⟨u, hu, hlu⟩ := hshared
  exact mem_txsLinkedToTxs.mpr ⟨u, hD u hu, k, hlu, (hd.lists_iff t k).mp hlt⟩

end DSPs

namespace Mempool

/-! ## Removals -/

theorem reports_dropDsps {d : DSPs} (hd : Linked d) (gone : List TxHash) :
    Reports (dropReported d gone) d (dropDsps d gone) := by
  unfold dropReported dropDsps
  dsimp only
  split_ifs
  · rw [rmDspTxs_eq_foldl hd]
    exact reports_foldl_rmTx hd fun u hu => mem_foldl_insert.mpr (.inr hu)
  · exact reports_refl _ d

theorem reports_dropTxs {mp : Mempool} (hd : Linked mp.dsps) {affected : HashSet}
    {txids : List TxHash} {r : Mempool × List TxHash × HashSet × MempoolStats}
    (h : dropTxs mp affected txids = some r) :
    Reports r.2.2.2.dspTxsAffected mp.dsps r.1.dsps := by
  obtain ⟨s, hs, -, hmp, -, hdsp, -⟩ := exists_of_dropTxs h
  have hsame : s.mp.dsps = mp.dsps := by
    rw [hs, dsps_foldl_dropTx]
  have hresult : r.1.dsps = dropDsps mp.dsps r.2.1 := by
    rw [hmp, ← hsame]
    rfl
  rw [hdsp, hsame, hresult]
  exact reports_dropDsps hd r.2.1

theorem reports_confirmedInBlock {mp : Mempool} (hd : Linked mp.dsps)
    (txidMap : Std.ExtTreeMap TxHash Nat compare) (height : Nat) (affected : HashSet) :
    Reports (confirmedInBlock txidMap height mp affected).2.2.dspTxsAffected mp.dsps
      (confirmedInBlock txidMap height mp affected).1.dsps := by
  obtain ⟨hdsps, -⟩ := foldl_confirmTx_frame txidMap height txidMap.keys { mp := mp }
  unfold confirmedInBlock
  dsimp only
  rw [hdsps]
  split_ifs with hempty
  · rw [Std.ExtTreeSet.isEmpty_iff.mp hempty]
    exact reports_refl _ _
  · exact reports_foldl_rmTx hd fun u hu => Std.ExtTreeSet.mem_toList.mp hu

/-! ## New transactions -/

section Spread

variable {s s' s'' : AddState}

/-- Links are only added, and the transactions that get one are noted. -/
structure Spread (s s' : AddState) : Prop where
  linked : Linked s'.mp.dsps
  same : SameProofs s.mp.dsps s'.mp.dsps
  mono : ∀ tx h, s.Lists tx h → s'.Lists tx h
  keeps : ∀ tx ∈ s.dspTxsAffected, tx ∈ s'.dspTxsAffected
  noted : ∀ tx h, s'.Lists tx h → ¬ s.Lists tx h → tx ∈ s'.dspTxsAffected

theorem spread_of_same (hs : Linked s.mp.dsps) (hdsps : s'.mp.dsps = s.mp.dsps)
    (haffected : s'.dspTxsAffected = s.dspTxsAffected) : Spread s s' := by
  have hlists : ∀ tx h, s'.Lists tx h ↔ s.Lists tx h := by
    intro tx h
    rw [AddState.Lists, AddState.Lists, hdsps]
  refine ⟨hdsps ▸ hs, hdsps ▸ SameProofs.refl _, fun tx h hl => (hlists tx h).mpr hl, ?_, ?_⟩
  · intro tx htx
    rw [haffected]
    exact htx
  · exact fun tx h hl hno => absurd ((hlists tx h).mp hl) hno

theorem Spread.trans (h : Spread s s') (h' : Spread s' s'') : Spread s s'' where
  linked := h'.linked
  same := h.same.trans h'.same
  mono tx k hl := h'.mono tx k (h.mono tx k hl)
  keeps tx htx := h'.keeps tx (h.keeps tx htx)
  noted tx k hl hno := by
    by_cases hl' : s'.Lists tx k
    · exact h'.keeps tx (h.noted tx k hl' hno)
    · exact h'.noted tx k hl hl'

theorem AddState.Scan.spread {edges : List (TxHash × TxHash)} (h : s.Scan edges s') :
    Spread s s' :=
  ⟨h.linked, h.same, h.mono, fun tx htx => (h.affected tx).mpr (.inl htx),
    fun tx k hl hno => (h.affected tx).mpr (.inr ⟨k, hl, hno⟩)⟩

end Spread

section AddNewTxs

variable {H : Hashers} {db : TXO → Option TXOInfo} {isNew : TxHash → Bool} {s s' : AddState}

theorem spread_addInputDsps (hs : Linked s.mp.dsps) (hash prevTxId : TxHash) :
    Spread s (addInputDsps isNew hash prevTxId s) := by
  unfold addInputDsps
  split_ifs with hskip hnew
  · exact spread_of_same hs rfl rfl
  · exact spread_of_same hs rfl rfl
  · have hscan := (scan_addDspsOfParent hs hash prevTxId).spread
    exact hscan.trans (spread_of_same hscan.linked rfl rfl)

theorem spread_finishInput (hs : Linked s.mp.dsps) {hash : TxHash} {inNum : Nat} {input : CTxIn}
    {info : TXOInfo} : Spread s (finishInput H hash inNum input info s) := by
  have hsame : SameDsps s (finishInput H hash inNum input info s) := sameDsps_finishInput
  exact spread_of_same hs hsame.dsps hsame.affected

/-- One input of a new transaction. -/
theorem spread_addInput (hs : Linked s.mp.dsps) {hash : TxHash} {inNum : Nat} {input : CTxIn}
    (hok : addInput H db isNew hash s inNum input = .ok s') : Spread s s' := by
  unfold addInput at hok
  cases hprev : s.mp.txs[input.prevout.txHash]? with
  | none =>
      cases hdb : db input.prevout with
      | none => simp [hprev, hdb] at hok
      | some info =>
          simp only [hprev, hdb, Except.ok.injEq] at hok
          subst hok
          have hspend : Spread s { s with mp := { s.mp with
              txs := spendConfirmed hash input.prevout info s.mp.txs } } :=
            spread_of_same hs rfl rfl
          exact hspend.trans (spread_finishInput hspend.linked)
  | some ptx =>
      cases hout : ptx.txos[input.prevout.outN]?.join with
      | none => simp [hprev, hout] at hok
      | some info =>
          cases hspend : spendUnconfirmed hash input.prevout info s.mp.txs with
          | error e => simp [hprev, hout, hspend] at hok
          | ok txs =>
              simp only [hprev, hout, hspend, Except.ok.injEq] at hok
              subst hok
              have htxs : Spread s { s with mp := { s.mp with txs := txs } } :=
                spread_of_same hs rfl rfl
              have hdsps : Spread _ (addInputDsps isNew hash input.prevout.txHash _) :=
                spread_addInputDsps htxs.linked hash input.prevout.txHash
              exact (htxs.trans hdsps).trans (spread_finishInput hdsps.linked)

theorem spread_addInputs (hs : Linked s.mp.dsps) {hash : TxHash} {inNum : Nat}
    {inputs : List CTxIn} (hok : addInputs H db isNew hash s inNum inputs = .ok s') :
    Spread s s' := by
  induction inputs generalizing s inNum with
  | nil =>
      obtain rfl := Except.ok.inj hok
      exact spread_of_same hs rfl rfl
  | cons input inputs ih =>
      simp only [addInputs] at hok
      cases hone : addInput H db isNew hash s inNum input with
      | error e => simp [hone] at hok
      | ok s₁ =>
          simp only [hone] at hok
          have hspread := spread_addInput hs hone
          exact hspread.trans (ih hspread.linked hok)

theorem spread_addAllInputs (hs : Linked s.mp.dsps) {news : List NewTx}
    (hok : addAllInputs H db isNew s news = .ok s') : Spread s s' := by
  induction news generalizing s with
  | nil =>
      obtain rfl := Except.ok.inj hok
      exact spread_of_same hs rfl rfl
  | cons nt news ih =>
      simp only [addAllInputs] at hok
      cases hone : addInputs H db isNew nt.hash { s with seenParents := ∅ } 0 nt.ctx.vin with
      | error e => simp [hone] at hok
      | ok s₁ =>
          simp only [hone] at hok
          have hstart : Spread s { s with seenParents := ∅ } := spread_of_same hs rfl rfl
          have hspread := hstart.trans (spread_addInputs hstart.linked hone)
          exact hspread.trans (ih hspread.linked hok)

theorem spread_spreadNew (hs : Linked s.mp.dsps) : Spread s (spreadNew s) := by
  unfold spreadNew
  split_ifs
  · exact (scan_spreadDsps hs rfl).1.spread
  · exact spread_of_same hs rfl rfl

/-- A proof with the same transactions is the same proof. -/
theorem get_dsproofs_eq_of_lists {d d' : DSPs} (hd : Linked d) (hd' : Linked d')
    (hsame : SameProofs d d') {k : Hash}
    (hlists : ∀ t, DSPs.Lists d.txDspsMap t k ↔ DSPs.Lists d'.txDspsMap t k) :
    d.dsproofs[k]? = d'.dsproofs[k]? := by
  cases hp : d.dsproofs[k]? with
  | none =>
      have hk := hsame k
      rw [hp, Option.map_none, Option.map_eq_none_iff] at hk
      exact hk.symm
  | some p =>
      obtain ⟨p', hp', hcore⟩ := hsame.symm.get hp
      have hdesc : p.descendants = p'.descendants := by
        refine Std.ExtTreeSet.ext_mem fun t => ?_
        rw [← affects_of_get hp, ← affects_of_get hp', ← hd.lists_iff, ← hd'.lists_iff]
        exact hlists t
      have hparts : { p with descendants := p'.descendants } = p' := by
        have hset := congrArg (fun q : DSProof => { q with descendants := p'.descendants }) hcore
        exact hset
      rw [hp', ← hparts, ← hdesc]

/-- What is reported at the end of `addNewTxs`: all that share a proof with a noted one. -/
theorem reports_of_spread {d d' : DSPs} {D : HashSet} (hd : Linked d) (hd' : Linked d')
    (hsame : SameProofs d d')
    (hmono : ∀ t k, DSPs.Lists d.txDspsMap t k → DSPs.Lists d'.txDspsMap t k)
    (hnoted : ∀ t k, DSPs.Lists d'.txDspsMap t k → ¬ DSPs.Lists d.txDspsMap t k → t ∈ D) :
    Reports (if D.isEmpty then D else d'.txsLinkedToTxs D) d d' := by
  refine reports_of_changed hd hd' fun t k hl hk => ?_
  have hlt : DSPs.Lists d'.txDspsMap t k := hl.elim (hmono t k) id
  have hgained : ∃ u, DSPs.Lists d'.txDspsMap u k ∧ ¬ DSPs.Lists d.txDspsMap u k := by
    by_contra hno
    push Not at hno
    exact hk (get_dsproofs_eq_of_lists hd hd' hsame fun u => ⟨hmono u k, hno u⟩)
  obtain ⟨u, hu, hnew⟩ := hgained
  have hmem : u ∈ D := hnoted u k hu hnew
  have hne : ¬ D.isEmpty = true := by
    intro hempty
    rw [Std.ExtTreeSet.isEmpty_iff.mp hempty] at hmem
    simp at hmem
  rw [if_neg hne]
  exact mem_txsLinkedToTxs.mpr ⟨u, hmem, k, hu, (hd'.lists_iff t k).mp hlt⟩

theorem spread_passes {mp : Mempool} (hd : Linked mp.dsps) {affected : HashSet}
    {news : List NewTx} {s : AddState} (hok : passes H db mp affected news = .ok s) :
    Spread { mp := mp, scriptHashesAffected := affected } s := by
  have hsame := sameDsps_foldl_addTxOutputs (H := H) news
    { mp := mp, scriptHashesAffected := affected }
  have hfirst : Spread { mp := mp, scriptHashesAffected := affected }
      (news.foldl (addTxOutputs H) { mp := mp, scriptHashesAffected := affected }) :=
    spread_of_same hd hsame.dsps hsame.affected
  exact hfirst.trans (spread_addAllInputs hfirst.linked hok)

theorem reports_addNewTxs {mp : Mempool} (hd : Linked mp.dsps) {affected : HashSet}
    {news : List NewTx} {r : Mempool × HashSet × MempoolStats}
    (hok : addNewTxs H db mp affected news = .ok r) :
    Reports r.2.2.dspTxsAffected mp.dsps r.1.dsps := by
  obtain ⟨s, hpass, rfl⟩ := exists_passes_of_ok hok
  have hpasses := spread_passes hd hpass
  have hsorted : Spread s { s with mp := sortAffected s.scriptHashesAffected s.mp } :=
    spread_of_same hpasses.linked rfl rfl
  have hloop := spread_spreadNew hsorted.linked
  have hall := hpasses.trans (hsorted.trans hloop)
  rw [conclude, finishDsps_eq_spreadNew]
  exact reports_of_spread hd hall.linked hall.same hall.mono hall.noted

end AddNewTxs

end Mempool
end Shulcrum
