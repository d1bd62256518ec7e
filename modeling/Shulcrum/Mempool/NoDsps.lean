import Shulcrum.Mempool.DspSpread
import Shulcrum.Mempool.Run

/-!
# The mempool without its double-spend proofs

The transactions, the vectors of the script hashes and the prefix table never
depend on the double-spend proofs.  Forgetting the proofs commutes with every
operation, so that what holds in runs without proofs holds in all runs.

**Results.**
* `addNewTxs_noDsps`, `dropTxs_noDsps`, `confirmedInBlock_noDsps`: the operations
  on a mempool whose proofs are forgotten.
* `Step.noDsps`: a step is also a step of the runs without proofs.
-/

namespace Shulcrum

open BTC

namespace Mempool

/-- Forget the double-spend proofs. -/
def noDsps (mp : Mempool) : Mempool := { mp with dsps := {} }

/-- Forget what `addNewTxs` notes about double-spend proofs. -/
def AddState.noDsps (s : AddState) : AddState :=
  { mp := s.mp.noDsps, scriptHashesAffected := s.scriptHashesAffected }

/-- Forget what the removal loops note about double-spend proofs. -/
def RmState.noDsps (s : RmState) : RmState := { s with mp := s.mp.noDsps, dspTxids := ∅ }

section AddNewTxs

variable {H : Hashers} {db : TXO → Option TXOInfo}

theorem foldl_addTxOutputs_noDsps (news : List NewTx) (s : AddState) :
    (news.foldl (addTxOutputs H) s).noDsps = news.foldl (addTxOutputs H) s.noDsps := by
  induction news generalizing s with
  | nil => rfl
  | cons nt news ih => exact ih (addTxOutputs H s nt)

theorem addDspsOfParent_noDsps (hash prevTxId : TxHash) (s : AddState) :
    (addDspsOfParent hash prevTxId s).noDsps = s.noDsps := by
  unfold addDspsOfParent
  induction ((s.mp.dsps.dspHashesForTx prevTxId).getD ∅).toList generalizing s with
  | nil => rfl
  | cons dspHash dspHashes ih =>
      rw [List.foldl_cons, ih]
      rfl

theorem addInputDsps_noDsps (isNew : TxHash → Bool) (hash prevTxId : TxHash) (s : AddState) :
    (addInputDsps isNew hash prevTxId s).noDsps = s.noDsps := by
  unfold addInputDsps
  split_ifs
  · rfl
  · rfl
  · exact addDspsOfParent_noDsps hash prevTxId s

theorem addInputRpa_noDsps (hash : TxHash) (inNum : Nat) (input : CTxIn) (mp : Mempool) :
    (addInputRpa H hash inNum input mp).noDsps = addInputRpa H hash inNum input mp.noDsps := by
  have htable : mp.noDsps.optPrefixTable = mp.optPrefixTable := rfl
  simp only [addInputRpa, htable]
  cases mp.optPrefixTable with
  | none => rfl
  | some table =>
      dsimp only
      split_ifs <;> rfl

theorem finishInput_noDsps (hash : TxHash) (inNum : Nat) (input : CTxIn) (info : TXOInfo)
    (s : AddState) :
    (finishInput H hash inNum input info s).noDsps =
      finishInput H hash inNum input info s.noDsps := by
  unfold finishInput AddState.noDsps
  rw [addInputRpa_noDsps]
  rfl

/-- One input of a new transaction. -/
theorem addInput_noDsps (isNew : TxHash → Bool) (hash : TxHash) (s : AddState) (inNum : Nat)
    (input : CTxIn) :
    addInput H db isNew hash s.noDsps inNum input =
      (addInput H db isNew hash s inNum input).map AddState.noDsps := by
  have htxs : s.noDsps.mp.txs = s.mp.txs := rfl
  simp only [addInput, htxs]
  cases s.mp.txs[input.prevout.txHash]? with
  | none =>
      cases db input.prevout with
      | none => rfl
      | some info =>
          refine congrArg Except.ok ?_
          rw [finishInput_noDsps]
          rfl
  | some prevTx =>
      dsimp only
      cases prevTx.txos[input.prevout.outN]?.join with
      | none => rfl
      | some info =>
          dsimp only
          cases spendUnconfirmed hash input.prevout info s.mp.txs with
          | error e => rfl
          | ok txs =>
              refine congrArg Except.ok ?_
              rw [finishInput_noDsps, addInputDsps_noDsps, addInputDsps_eq rfl]
              rfl

theorem addInputs_noDsps (isNew : TxHash → Bool) (hash : TxHash) (inputs : List CTxIn)
    (s : AddState) (inNum : Nat) :
    addInputs H db isNew hash s.noDsps inNum inputs =
      (addInputs H db isNew hash s inNum inputs).map AddState.noDsps := by
  induction inputs generalizing s inNum with
  | nil => rfl
  | cons input inputs ih =>
      simp only [addInputs, addInput_noDsps]
      cases addInput H db isNew hash s inNum input with
      | error e => rfl
      | ok s' => exact ih s' (inNum + 1)

theorem addAllInputs_noDsps (isNew : TxHash → Bool) (news : List NewTx) (s : AddState) :
    addAllInputs H db isNew s.noDsps news =
      (addAllInputs H db isNew s news).map AddState.noDsps := by
  induction news generalizing s with
  | nil => rfl
  | cons nt news ih =>
      have hseen : { s.noDsps with seenParents := ∅ } =
          AddState.noDsps { s with seenParents := ∅ } := rfl
      simp only [addAllInputs, hseen, addInputs_noDsps]
      cases addInputs H db isNew nt.hash { s with seenParents := ∅ } 0 nt.ctx.vin with
      | error e => rfl
      | ok s' => exact ih s'

theorem spreadDspsOnce_noDsps (s : AddState) : (spreadDspsOnce s).2.noDsps = s.noDsps := by
  rw [spreadDspsOnce_eq, snd_foldl_countLinks]
  induction newLinks s generalizing s with
  | nil => rfl
  | cons e edges ih =>
      rw [List.foldl_cons, ih]
      exact addDspsOfParent_noDsps e.1 e.2 s

theorem spreadDsps_noDsps (fuel : Nat) (s : AddState) :
    (spreadDsps fuel s).noDsps = s.noDsps := by
  induction fuel generalizing s with
  | zero => rfl
  | succ fuel ih =>
      have hone := spreadDspsOnce_noDsps s
      simp only [spreadDsps]
      split_ifs
      · exact hone
      · rw [ih, hone]

theorem finishDsps_noDsps (s : AddState) : (finishDsps s).noDsps = s.noDsps := by
  rw [finishDsps_eq_spreadNew]
  have hloop : (spreadNew s).noDsps = s.noDsps := by
    unfold spreadNew
    split_ifs
    · exact spreadDsps_noDsps _ s
    · rfl
  exact hloop

/-- The two passes of `addNewTxs`. -/
def passes (H : Hashers) (db : TXO → Option TXOInfo) (mp : Mempool) (affected : HashSet)
    (news : List NewTx) : Except ConsistencyError AddState :=
  addAllInputs H db (fun h => news.any (·.hash == h))
    (news.foldl (addTxOutputs H) { mp := mp, scriptHashesAffected := affected }) news

/-- What `addNewTxs` does after the two passes. -/
def conclude (s : AddState) : AddState :=
  finishDsps { s with mp := sortAffected s.scriptHashesAffected s.mp }

/-- What `addNewTxs` returns. -/
def addResult (mp : Mempool) (s : AddState) : Mempool × HashSet × MempoolStats :=
  (s.mp, s.scriptHashesAffected,
    { oldSize := mp.txs.size
      newSize := s.mp.txs.size
      oldNumAddresses := mp.hashXTxs.size
      newNumAddresses := s.mp.hashXTxs.size
      dspTxsAffected := s.dspTxsAffected })

theorem addNewTxs_eq (mp : Mempool) (affected : HashSet) (news : List NewTx) :
    addNewTxs H db mp affected news =
      (passes H db mp affected news).map fun s => addResult mp (conclude s) := by
  simp only [addNewTxs, passes]
  cases addAllInputs H db (fun h => news.any (·.hash == h))
      (news.foldl (addTxOutputs H) { mp := mp, scriptHashesAffected := affected }) news with
  | error e => rfl
  | ok s => rfl

theorem exists_passes_of_ok {mp : Mempool} {affected : HashSet} {news : List NewTx}
    {r : Mempool × HashSet × MempoolStats} (hok : addNewTxs H db mp affected news = .ok r) :
    ∃ s, passes H db mp affected news = .ok s ∧ r = addResult mp (conclude s) := by
  rw [addNewTxs_eq] at hok
  cases hpass : passes H db mp affected news with
  | error e =>
      rw [hpass] at hok
      cases hok
  | ok s =>
      rw [hpass] at hok
      exact ⟨s, rfl, (Except.ok.inj hok).symm⟩

theorem passes_noDsps (mp : Mempool) (affected : HashSet) (news : List NewTx) :
    passes H db mp.noDsps affected news = (passes H db mp affected news).map AddState.noDsps := by
  have hfirst := foldl_addTxOutputs_noDsps (H := H) news
    { mp := mp, scriptHashesAffected := affected }
  unfold passes
  rw [← addAllInputs_noDsps, hfirst]
  rfl

theorem conclude_noDsps (s : AddState) : conclude s.noDsps = (conclude s).noDsps := by
  rw [conclude, conclude, finishDsps_noDsps, finishDsps_eq (by rfl) (by rfl)]
  rfl

/-- `addNewTxs` does the same with and without proofs, apart from the proofs. -/
theorem addNewTxs_noDsps (H : Hashers) (db : TXO → Option TXOInfo) (mp : Mempool)
    (affected : HashSet) (news : List NewTx) :
    (addNewTxs H db mp.noDsps affected news).map (fun r => (r.1, r.2.1)) =
      (addNewTxs H db mp affected news).map fun r => (r.1.noDsps, r.2.1) := by
  rw [addNewTxs_eq, addNewTxs_eq, passes_noDsps]
  cases passes H db mp affected news with
  | error e => rfl
  | ok s =>
      have hmp := congrArg AddState.mp (conclude_noDsps s)
      have haffected := congrArg AddState.scriptHashesAffected (conclude_noDsps s)
      exact congrArg Except.ok (Prod.ext hmp haffected)

end AddNewTxs

section Remove

theorem eraseTx_noDsps (s : RmState) (txid : TxHash) (tx : Tx) :
    (eraseTx s txid tx).noDsps = eraseTx s.noDsps txid tx := rfl

theorem dropTx_noDsps (txids : List TxHash) (s : RmState) (txid : TxHash) :
    (dropTx txids s txid).noDsps = dropTx txids s.noDsps txid := by
  have htxs : s.noDsps.mp.txs = s.mp.txs := rfl
  simp only [dropTx, htxs]
  cases s.mp.txs[txid]? with
  | none => rfl
  | some tx => rfl

theorem foldl_dropTx_noDsps (txids l : List TxHash) (s : RmState) :
    (l.foldl (dropTx txids) s).noDsps = l.foldl (dropTx txids) s.noDsps := by
  induction l generalizing s with
  | nil => rfl
  | cons txid l ih => rw [List.foldl_cons, List.foldl_cons, ih, dropTx_noDsps]

theorem dsps_foldl_dropTx (txids l : List TxHash) (s : RmState) :
    (l.foldl (dropTx txids) s).mp.dsps = s.mp.dsps := by
  induction l generalizing s with
  | nil => rfl
  | cons txid l ih =>
      rw [List.foldl_cons, ih]
      unfold dropTx
      cases s.mp.txs[txid]? with
      | none => rfl
      | some tx => rfl

/-- The proofs that `dropTxs` leaves. -/
def dropDsps (dsps : DSPs) (gone : List TxHash) : DSPs :=
  let txids2rm := gone.filter fun h => (dsps.dspHashesForTx h).isSome
  if ¬ dsps.isEmpty ∧ txids2rm ≠ [] then rmDspTxs dsps txids2rm else dsps

/-- The mempool that the loop of `dropTxs` ends with, without the dropped transactions in the
vectors. -/
def dropRest (gone : List TxHash) (s : RmState) : Mempool :=
  { s.mp with
    hashXTxs := rmTxsInHashXTxs s.mp.txs (fun h => decide (h ∈ gone)) s.scriptHashesAffected ∅
      s.mp.hashXTxs
    dsps := dropDsps s.mp.dsps gone }

theorem dropTxs_of_grow {mp : Mempool} {txids gone : List TxHash}
    (hgrow : growTxHashSetToIncludeDescendants mp.txs txids = some gone) (affected : HashSet) :
    ∃ r, dropTxs mp affected txids = some r ∧ r.2.1 = gone ∧
      r.1 = dropRest gone (gone.foldl (dropTx gone) { mp := mp }) := by
  unfold dropTxs
  rw [hgrow]
  exact ⟨_, rfl, rfl, rfl⟩

/-- `dropTxs` does the same with and without proofs, apart from the proofs. -/
theorem dropTxs_noDsps {mp : Mempool} {affected : HashSet} {txids : List TxHash}
    {r : Mempool × List TxHash × HashSet × MempoolStats}
    (h : dropTxs mp affected txids = some r) :
    ∃ r', dropTxs mp.noDsps affected txids = some r' ∧ r'.1 = r.1.noDsps ∧ r'.2.1 = r.2.1 ∧
      r.1.dsps = dropDsps mp.dsps r.2.1 := by
  obtain ⟨gone, hgrow⟩ := descendants_total mp.txs txids
  have hgrow' : growTxHashSetToIncludeDescendants mp.noDsps.txs txids = some gone := hgrow
  obtain ⟨r₁, hr₁, hgone₁, hmp₁⟩ := dropTxs_of_grow hgrow affected
  obtain ⟨r₂, hr₂, hgone₂, hmp₂⟩ := dropTxs_of_grow hgrow' affected
  rw [h, Option.some.injEq] at hr₁
  subst hr₁
  have hloop := foldl_dropTx_noDsps gone gone { mp := mp }
  have hstart : RmState.noDsps { mp := mp } = { mp := mp.noDsps } := rfl
  rw [hstart] at hloop
  refine ⟨r₂, hr₂, ?_, hgone₂.trans hgone₁.symm, ?_⟩
  · rw [hmp₁, hmp₂, ← hloop]
    rfl
  · rw [hmp₁, hgone₁, dropRest, dsps_foldl_dropTx]

section Confirmed

variable (txidMap : Std.ExtTreeMap TxHash Nat compare) (height : Nat)

theorem recategorizeSpendsForChild_noDsps (s : RmState) (child : TxHash) :
    (recategorizeSpendsForChild txidMap height s child).noDsps =
      recategorizeSpendsForChild txidMap height s.noDsps child := by
  have htxs : s.noDsps.mp.txs = s.mp.txs := rfl
  simp only [recategorizeSpendsForChild, htxs]
  cases s.mp.txs[child]? with
  | none => rfl
  | some tx =>
      dsimp only
      split_ifs <;> rfl

theorem confirmChild_noDsps (s : RmState) (child : TxHash) :
    (confirmChild txidMap height s child).noDsps =
      confirmChild txidMap height s.noDsps child := by
  have hrec : s.noDsps.recategorized = s.recategorized := rfl
  simp only [confirmChild, hrec]
  split_ifs
  · rfl
  · exact recategorizeSpendsForChild_noDsps txidMap height _ child

theorem foldl_confirmChild_noDsps (children : List TxHash) (s : RmState) :
    (children.foldl (confirmChild txidMap height) s).noDsps =
      children.foldl (confirmChild txidMap height) s.noDsps := by
  induction children generalizing s with
  | nil => rfl
  | cons child children ih => rw [List.foldl_cons, List.foldl_cons, ih, confirmChild_noDsps]

theorem confirmTx_noDsps (s : RmState) (txid : TxHash) :
    (confirmTx txidMap height s txid).noDsps = confirmTx txidMap height s.noDsps txid := by
  have htxs : s.noDsps.mp.txs = s.mp.txs := rfl
  simp only [confirmTx, htxs]
  cases s.mp.txs[txid]? with
  | none => rfl
  | some tx =>
      dsimp only
      rw [eraseTx_noDsps, foldl_confirmChild_noDsps]
      rfl

theorem foldl_confirmTx_noDsps (txids : List TxHash) (s : RmState) :
    (txids.foldl (confirmTx txidMap height) s).noDsps =
      txids.foldl (confirmTx txidMap height) s.noDsps := by
  induction txids generalizing s with
  | nil => rfl
  | cons txid txids ih => rw [List.foldl_cons, List.foldl_cons, ih, confirmTx_noDsps]

/-- `confirmedInBlock` does the same with and without proofs, apart from the proofs. -/
theorem confirmedInBlock_noDsps (mp : Mempool) (affected : HashSet) :
    (confirmedInBlock txidMap height mp.noDsps affected).1 =
      (confirmedInBlock txidMap height mp affected).1.noDsps := by
  have hloop := foldl_confirmTx_noDsps txidMap height txidMap.keys { mp := mp }
  have hstart : RmState.noDsps { mp := mp } = { mp := mp.noDsps } := rfl
  rw [hstart] at hloop
  simp only [confirmedInBlock, ← hloop]
  rfl

end Confirmed

end Remove

/-- Forget the double-spend proofs. -/
def RunState.noDsps (s : RunState) : RunState := { s with mp := s.mp.noDsps }

variable {H : Hashers}

theorem addNewTxs_noDsps_of_ok {db : TXO → Option TXOInfo} {mp : Mempool} {affected : HashSet}
    {news : List NewTx} {r : Mempool × HashSet × MempoolStats}
    (h : addNewTxs H db mp affected news = .ok r) :
    ∃ r', addNewTxs H db mp.noDsps affected news = .ok r' ∧ r'.1 = r.1.noDsps ∧
      r'.2.1 = r.2.1 := by
  have hmap := addNewTxs_noDsps H db mp affected news
  rw [h] at hmap
  cases h' : addNewTxs H db mp.noDsps affected news with
  | error e =>
      rw [h'] at hmap
      cases hmap
  | ok r' =>
      rw [h'] at hmap
      obtain ⟨hmp, haff⟩ := Prod.mk.inj (Except.ok.inj hmap)
      exact ⟨r', rfl, hmp, haff⟩

theorem addNewTxs_ok_of_noDsps {db : TXO → Option TXOInfo} {mp : Mempool} {affected : HashSet}
    {news : List NewTx} {r : Mempool × HashSet × MempoolStats}
    (h : addNewTxs H db mp.noDsps affected news = .ok r) :
    ∃ r', addNewTxs H db mp affected news = .ok r' ∧ r'.1.noDsps = r.1 ∧ r'.2.1 = r.2.1 := by
  have hmap := addNewTxs_noDsps H db mp affected news
  rw [h] at hmap
  cases h' : addNewTxs H db mp affected news with
  | error e =>
      rw [h'] at hmap
      cases hmap
  | ok r' =>
      rw [h'] at hmap
      obtain ⟨hmp, haff⟩ := Prod.mk.inj (Except.ok.inj hmap)
      exact ⟨r', rfl, hmp.symm, haff.symm⟩

/-- A step is a step of the runs without proofs. -/
theorem Step.noDsps {s t : RunState} (h : Step H s t) : Step H s.noDsps t.noDsps := by
  cases h with
  | @add news affected r hfresh hspends hok =>
      obtain ⟨r', hok', hmp, -⟩ := addNewTxs_noDsps_of_ok hok
      have hstep := Step.add (H := H) (s := s.noDsps) news affected hfresh hspends hok'
      rw [hmp] at hstep
      exact hstep
  | @drop txids affected r hdrop =>
      obtain ⟨r', hdrop', hmp, hgone, -⟩ := dropTxs_noDsps hdrop
      have hstep := Step.drop (H := H) (s := s.noDsps) txids affected hdrop'
      rw [hmp, hgone] at hstep
      exact hstep
  | @confirm txidMap height affected db' hconfirms =>
      have hstep := Step.confirm (H := H) (s := s.noDsps) txidMap height affected hconfirms
      have hmp := confirmedInBlock_noDsps txidMap height s.mp affected
      rw [RunState.noDsps, hmp] at hstep
      exact hstep
  | clear db' => exact Step.clear db'

end Mempool
end Shulcrum
