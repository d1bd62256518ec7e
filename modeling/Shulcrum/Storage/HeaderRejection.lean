import Shulcrum.Mempool.Run
import Shulcrum.Storage.Model

/-!
# Blocks whose header is rejected

`addBlock` takes the transactions of the block out of the mempool before it
verifies the header.  A rejected header leaves everything else as it was, so
that the call changes nothing exactly when the mempool has none of these
transactions, or is not touched at all.

**Results.**
* `mem_confirmedInBlock`: whatever the mempool, it loses the confirmed
  transactions.
* `addBlock_rejected_unchanged_iff`: when a rejected block leaves no trace.
-/

namespace Shulcrum
namespace Mempool

open TreeMap

variable {txidMap : Std.ExtTreeMap TxHash Nat compare} {height : Nat}

theorem mem_recategorizeSpendsForChild {s : RmState} {child h : TxHash} :
    h ∈ (recategorizeSpendsForChild txidMap height s child).mp.txs ↔ h ∈ s.mp.txs := by
  unfold recategorizeSpendsForChild
  cases hget : s.mp.txs[child]? with
  | none => rfl
  | some tx =>
      have hins : h ∈ s.mp.txs.insert child
          { tx with hashXs := tx.hashXs.map fun _ io => recategorizeIo txidMap height io } ↔
          h ∈ s.mp.txs := by
        rw [Std.ExtTreeMap.mem_insert]
        refine or_iff_right_of_imp fun hc => ?_
        rw [← Std.LawfulEqOrd.eq_of_compare hc]
        exact mem_iff_getElem?.mpr ⟨tx, hget⟩
      simp only
      split_ifs
      · exact hins
      · exact hins

theorem mem_confirmChild {s : RmState} {child h : TxHash} :
    h ∈ (confirmChild txidMap height s child).mp.txs ↔ h ∈ s.mp.txs := by
  unfold confirmChild
  split_ifs
  · rfl
  · exact mem_recategorizeSpendsForChild

theorem mem_foldl_confirmChild {cs : List TxHash} {s : RmState} {h : TxHash} :
    h ∈ (cs.foldl (confirmChild txidMap height) s).mp.txs ↔ h ∈ s.mp.txs := by
  induction cs generalizing s with
  | nil => rfl
  | cons c cs ih => exact ih.trans mem_confirmChild

theorem mem_eraseTx {s : RmState} {txid h : TxHash} {tx : Tx} :
    h ∈ (eraseTx s txid tx).mp.txs ↔ h ∈ s.mp.txs ∧ h ≠ txid := by
  have herase : h ∈ (eraseTx s txid tx).mp.txs ↔
      h ∈ (unlinkFromParentsAndChildren s.mp.txs tx).erase txid := Iff.rfl
  have hunlink : h ∈ unlinkFromParentsAndChildren s.mp.txs tx ↔ h ∈ s.mp.txs := by
    rw [mem_iff_getElem?, get_unlink, mem_iff_getElem?]
    simp
  rw [herase, Std.ExtTreeMap.mem_erase, hunlink, and_comm]
  refine and_congr_right fun _ => ?_
  rw [ne_eq, Std.LawfulEqCmp.compare_eq_iff_eq, eq_comm]

theorem mem_confirmTx {s : RmState} {txid h : TxHash} :
    h ∈ (confirmTx txidMap height s txid).mp.txs ↔ h ∈ s.mp.txs ∧ h ≠ txid := by
  unfold confirmTx
  cases hget : s.mp.txs[txid]? with
  | none =>
      refine ⟨fun hh => ⟨hh, ?_⟩, And.left⟩
      rintro rfl
      exact not_mem_iff_getElem?.mpr hget hh
  | some tx =>
      refine mem_eraseTx.trans (and_congr_left fun _ => ?_)
      exact mem_foldl_confirmChild

theorem mem_foldl_confirmTx {ts : List TxHash} {s : RmState} {h : TxHash} :
    h ∈ (ts.foldl (confirmTx txidMap height) s).mp.txs ↔ h ∈ s.mp.txs ∧ h ∉ ts := by
  induction ts generalizing s with
  | nil => simp
  | cons t ts ih =>
      rw [List.foldl_cons, ih, mem_confirmTx, and_assoc, List.mem_cons, not_or]

/-- Whatever the mempool, it loses the transactions of the block and no others. -/
theorem mem_confirmedInBlock {mp : Mempool} {affected : HashSet} {h : TxHash} :
    h ∈ (confirmedInBlock txidMap height mp affected).1.txs ↔ h ∈ mp.txs ∧ h ∉ txidMap := by
  have hrun : h ∈ (confirmedInBlock txidMap height mp affected).1.txs ↔
      h ∈ (txidMap.keys.foldl (confirmTx txidMap height) { mp := mp }).mp.txs := Iff.rfl
  rw [hrun, mem_foldl_confirmTx, Std.ExtTreeMap.mem_keys]

theorem foldl_confirmTx_of_absent {ts : List TxHash} {s : RmState}
    (h : ∀ t ∈ ts, t ∉ s.mp.txs) : ts.foldl (confirmTx txidMap height) s = s := by
  induction ts with
  | nil => rfl
  | cons t ts ih =>
      have ht : s.mp.txs[t]? = none := not_mem_iff_getElem?.mp (h t (by simp))
      have hstep : confirmTx txidMap height s t = s := by
        unfold confirmTx
        rw [ht]
      rw [List.foldl_cons, hstep]
      exact ih fun t' ht' => h t' (by simp [ht'])

theorem rmTxsInHashXTxs_of_empty {txs : TxMap} {removed : TxHash → Bool} {needingSort : HashSet}
    {m : HashXTxMap} : rmTxsInHashXTxs txs removed ∅ needingSort m = m := by
  apply Std.ExtTreeMap.ext_getElem?
  intro sh
  simp [rmTxsInHashXTxs]

/-- A block without transactions of the mempool does not change it. -/
theorem confirmedInBlock_of_absent {mp : Mempool} {affected : HashSet}
    (h : ∀ t ∈ txidMap, t ∉ mp.txs) : (confirmedInBlock txidMap height mp affected).1 = mp := by
  have hfold : txidMap.keys.foldl (confirmTx txidMap height) { mp := mp } = { mp := mp } :=
    foldl_confirmTx_of_absent fun t ht => h t (Std.ExtTreeMap.mem_keys.mp ht)
  simp only [confirmedInBlock, hfold, rmTxsInHashXTxs_of_empty]
  rfl

end Mempool

namespace Storage

open Invariant TreeMap Mempool

variable {H : Hashers} {opts : Options}

theorem mem_blockTxidMap {txNum0 : Nat} {ppb : PreProcessedBlock} {h : TxHash} :
    h ∈ blockTxidMap txNum0 ppb ↔ ∃ info ∈ ppb.txInfos.drop 1, info.hash = h := by
  have hfold : ∀ (l : List (TxInfo × Nat)) (m : Std.ExtTreeMap TxHash Nat compare),
      h ∈ l.foldl (fun m e => m.insertIfNew e.1.hash e.2) m ↔
        h ∈ m ∨ ∃ e ∈ l, e.1.hash = h := by
    intro l
    induction l with
    | nil => simp
    | cons e l ih =>
        intro m
        rw [List.foldl_cons, ih, Std.ExtTreeMap.mem_insertIfNew,
          Std.LawfulEqCmp.compare_eq_iff_eq]
        simp
        tauto
  rw [blockTxidMap, hfold]
  simp only [Std.ExtTreeMap.not_mem_empty, false_or]
  cases ppb.txInfos with
  | nil => simp
  | cons coinbase infos =>
      simp only [List.zipIdx_cons, List.drop_succ_cons, List.drop_zero]
      constructor
      · rintro ⟨e, he, rfl⟩
        exact ⟨e.1, List.fst_mem_of_mem_zipIdx he, rfl⟩
      · rintro ⟨info, hinfo, rfl⟩
        obtain ⟨i, hi⟩ := List.mem_iff_getElem?.mp hinfo
        exact ⟨(info, txNum0 + 1 + i), List.mk_add_mem_zipIdx_iff_getElem?.mpr hi, rfl⟩

/--
Everything is as before, apart from the set of recent transaction ids that
suppresses repeated notifications: the tables, the block and header state in
memory, the undo window and the mempool.
-/
def Unchanged (s s' : State) : Prop :=
  s' = { s with recentBlockTxHashes := s'.recentBlockTxHashes }

theorem confirmInMempool_eq (s : State) (ppb : PreProcessedBlock) (notifySubs trackRecent : Bool) :
    ∃ recent, (confirmInMempool s ppb notifySubs trackRecent).1 =
      { s with
        recentBlockTxHashes := recent
        mempool :=
          if notifySubs then
            (s.mempool.confirmedInBlock (blockTxidMap s.index.txNumNext ppb) ppb.height ∅).1
          else s.mempool } := by
  cases notifySubs with
  | true => exact ⟨_, rfl⟩
  | false => exact ⟨_, rfl⟩

theorem state_of_rejected {s s' : State} {ppb : PreProcessedBlock}
    {saveUndo notifySubs trackRecent : Bool} {errMsg : String}
    (h : addBlock H opts s ppb saveUndo notifySubs trackRecent =
      .headerVerificationFailure errMsg s') :
    s' = (confirmInMempool s ppb notifySubs trackRecent).1 := by
  simp only [addBlock] at h
  split at h
  · cases h
    rfl
  · split at h <;> cases h

/--
A rejected block leaves everything unchanged if and only if the call did not
touch the mempool or the mempool had none of the block's transactions.
-/
theorem addBlock_rejected_unchanged_iff {s s' : State} {ppb : PreProcessedBlock}
    {saveUndo notifySubs trackRecent : Bool} {errMsg : String}
    (h : addBlock H opts s ppb saveUndo notifySubs trackRecent =
      .headerVerificationFailure errMsg s') :
    Unchanged s s' ↔
      notifySubs = false ∨ ∀ info ∈ ppb.txInfos.drop 1, info.hash ∉ s.mempool.txs := by
  obtain ⟨recent, hstate⟩ := confirmInMempool_eq s ppb notifySubs trackRecent
  rw [state_of_rejected h, hstate]
  cases notifySubs with
  | false => simp [Unchanged]
  | true =>
      simp only [Unchanged, if_true, Bool.true_eq_false, false_or]
      constructor
      · intro heq info hinfo hmem
        have hmp := congrArg State.mempool heq
        simp only at hmp
        rw [← hmp] at hmem
        exact (mem_confirmedInBlock.mp hmem).2 (mem_blockTxidMap.mpr ⟨info, hinfo, rfl⟩)
      · intro habsent
        rw [confirmedInBlock_of_absent]
        intro t ht
        obtain ⟨info, hinfo, rfl⟩ := mem_blockTxidMap.mp ht
        exact habsent info hinfo

section SmallChain

/-- A header of the 80-byte layout. -/
def plainHeader (hashPrevBlock : Hash) : BTC.CBlockHeader :=
  { headerV2 := false
    nVersion := 1
    hashPrevBlock := hashPrevBlock
    hashMerkleRoot := 0
    nTime := 0
    nBits := 1
    nNonce := 0 }

def coinbaseTx (hash : TxHash) : CTransaction :=
  { hash := hash
    vin := [{ prevout := ⟨0, 4294967295⟩ }]
    vout := [{ nValue := 5000, scriptPubKey := [0x51] }] }

def firstBlock : CBlock where
  header := plainHeader 0
  vtx := [coinbaseTx 9]
  coinbase := rfl
  hash_ne_null := by decide

/-- The coinbase, a transaction that spends the first block, and one that spends that. -/
def secondBlock (hashPrevBlock : Hash) : CBlock where
  header := plainHeader hashPrevBlock
  vtx := [coinbaseTx 8, childTx.ctx, parentTx.ctx]
  coinbase := rfl
  hash_ne_null := by decide

/-- A block prepared for `addBlock`, or an empty one. -/
def prepared (height : Nat) (b : CBlock) : PreProcessedBlock :=
  match PreProcessedBlock.fill opTrueHashers height none 0 100 b with
  | .ok ppb => ppb
  | .error _ => { height := height, hash := 0, sizeBytes := 0, header := b.header }

/-- The storage after the first block. -/
def firstState : State :=
  match addBlock opTrueHashers {} {} (prepared 0 firstBlock) true false false with
  | .ok s _ => s
  | _ => {}

theorem rejected_secondBlock (mp : Mempool) (notifySubs : Bool) :
    ∃ errMsg, addBlock opTrueHashers {} { firstState with mempool := mp }
        (prepared 1 (secondBlock 1)) true notifySubs false =
      .headerVerificationFailure errMsg
        (confirmInMempool { firstState with mempool := mp } (prepared 1 (secondBlock 1))
          notifySubs false).1 := by
  cases notifySubs <;> exact ⟨_, rfl⟩

/-- A block on another branch, with transactions of the mempool, changes the mempool. -/
theorem addBlock_rejected_changes_mempool : ∃ r : RunState,
    Reachable (RunState.Start false) (Mempool.Step opTrueHashers) r ∧
      r.txs = [parentTx, childTx] ∧ ∃ (s' : State) (errMsg : String),
        addBlock opTrueHashers {} { firstState with mempool := r.mp }
            (prepared 1 (secondBlock 1)) true true false =
          .headerVerificationFailure errMsg s' ∧
        ¬ Unchanged { firstState with mempool := r.mp } s' := by
  obtain ⟨r, hr, htxs, -⟩ := exists_parentChild_run
  have hmem : (1 : TxHash) ∈ r.mp.txs := by
    rw [(runInv_of_reachable hr).rep.toContent.mem_txs, htxs]
    decide
  obtain ⟨errMsg, hrej⟩ := rejected_secondBlock r.mp true
  refine ⟨r, hr, htxs, _, errMsg, hrej, fun heq => ?_⟩
  have hsame : (r.mp.confirmedInBlock (blockTxidMap 1 (prepared 1 (secondBlock 1))) 1 ∅).1 =
      r.mp := congrArg State.mempool heq
  rw [← hsame] at hmem
  refine (mem_confirmedInBlock.mp hmem).2 (mem_blockTxidMap.mpr ?_)
  exact ⟨{ hash := 1, nInputs := 1, nOutputs := 1, input0Index := some 2, output0Index := some 2 },
    by decide, rfl⟩

/-- A block on another branch with a transaction that the mempool has not seen. -/
def strangeBlock : CBlock where
  header := plainHeader 1
  vtx := [coinbaseTx 8, { childTx.ctx with hash := 3 }]
  coinbase := rfl
  hash_ne_null := by decide

theorem rejected_strangeBlock {r : RunState}
    (hr : Reachable (RunState.Start false) (Mempool.Step opTrueHashers) r)
    (htxs : r.txs = [parentTx, childTx]) :
    (∃ errMsg, addBlock opTrueHashers {} { firstState with mempool := r.mp }
        (prepared 1 strangeBlock) true true false =
      .headerVerificationFailure errMsg
        (confirmInMempool { firstState with mempool := r.mp } (prepared 1 strangeBlock) true
          false).1) ∧
      ∀ info ∈ (prepared 1 strangeBlock).txInfos.drop 1, info.hash ∉ r.mp.txs := by
  refine ⟨⟨_, rfl⟩, fun info hinfo hmem => ?_⟩
  have hthree : ∀ info ∈ (prepared 1 strangeBlock).txInfos.drop 1, info.hash = 3 := by decide
  rw [hthree info hinfo, (runInv_of_reachable hr).rep.toContent.mem_txs, htxs] at hmem
  revert hmem
  decide

/-- The rejection of that block changes nothing. -/
theorem addBlock_rejected_unchanged_iff_strange : ∃ r : RunState,
    Reachable (RunState.Start false) (Mempool.Step opTrueHashers) r ∧
      r.txs = [parentTx, childTx] ∧ ∃ (s' : State) (errMsg : String),
        addBlock opTrueHashers {} { firstState with mempool := r.mp } (prepared 1 strangeBlock)
            true true false = .headerVerificationFailure errMsg s' ∧
          Unchanged { firstState with mempool := r.mp } s' := by
  obtain ⟨r, hr, htxs, -⟩ := exists_parentChild_run
  obtain ⟨⟨errMsg, hrej⟩, hnew⟩ := rejected_strangeBlock hr htxs
  exact ⟨r, hr, htxs, _, errMsg, hrej, (addBlock_rejected_unchanged_iff hrej).mpr (.inr hnew)⟩

end SmallChain

end Storage
end Shulcrum
