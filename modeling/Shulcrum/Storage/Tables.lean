import Shulcrum.Lib.Fallible
import Shulcrum.Storage.Changes

/-!
# Lookups in the tables after a block is added or undone

One lemma for each table and each of the two operations, stated by lookup.
-/

namespace Shulcrum
namespace Storage

open TreeMap

/-- The key of `scripthash_unspent` for an output. -/
def shunspentKey (txo : TXO) (info : TXOInfo) : ShunspentKey :=
  { hashX := info.hashX, ctxo := CompactTXO.make info.txNum txo.outN }

/-- The entry of the UTXO set as it is read back. -/
def storedInfo (info : TXOInfo) : TXOInfo := { info with txNum := compactTxNum info.txNum }

theorem compactTxNum_of_le {n : Nat} (h : n ≤ txNumMax) : compactTxNum n = n := by
  simp only [txNumMax] at h
  simp only [compactTxNum]
  omega

theorem storedInfo_of_le {info : TXOInfo} (h : info.txNum ≤ txNumMax) : storedInfo info = info := by
  rw [storedInfo, compactTxNum_of_le h]

theorem make_txNum {n k : Nat} (h : n ≤ txNumMax) : (CompactTXO.make n k).txNum = n := by
  rw [CompactTXO.make, compactTxNum_of_le h]

theorem make_n {n k : Nat} (h : k ≤ ioNumMax) : (CompactTXO.make n k).n = k := by
  simp only [ioNumMax] at h
  simp only [CompactTXO.make]
  omega

theorem make_eq {n k : Nat} (hn : n ≤ txNumMax) (hk : k ≤ ioNumMax) :
    CompactTXO.make n k = ⟨n, k⟩ := by
  have hmod : k % 16777216 = k := by
    simp only [ioNumMax] at hk
    omega
  rw [CompactTXO.make, compactTxNum_of_le hn, hmod]

namespace UTXOBatch

theorem foldl_add (b : UTXOBatch) (l : List (TXO × TXOInfo)) :
    l.foldl (fun b e => b.add e.1 e.2 (CompactTXO.make e.2.txNum e.1.outN)) b =
      { utxoset := l.foldl (fun m e => m.insert e.1 (storedInfo e.2)) b.utxoset
        shunspent := l.foldl (fun m e => m.insert (shunspentKey e.1 e.2)
          ⟨e.2.amount, e.2.tokenDataPtr⟩) b.shunspent
        utxoCt := b.utxoCt + l.length } := by
  induction l generalizing b with
  | nil => simp
  | cons e l ih =>
      rw [List.foldl_cons, ih]
      simp only [add, List.foldl_cons, List.length_cons, mk.injEq]
      refine ⟨rfl, rfl, ?_⟩
      push_cast
      ring

theorem foldl_remove {α : Type} (txo : α → TXO) (hashX : α → HashX) (ctxo : α → CompactTXO)
    (b : UTXOBatch) (l : List α) :
    l.foldl (fun b a => b.remove (txo a) (hashX a) (ctxo a)) b =
      { utxoset := l.foldl (fun m a => m.erase (txo a)) b.utxoset
        shunspent := l.foldl (fun m a => m.erase ⟨hashX a, ctxo a⟩) b.shunspent
        utxoCt := b.utxoCt - l.length } := by
  induction l generalizing b with
  | nil => simp
  | cons a l ih =>
      rw [List.foldl_cons, ih]
      simp only [remove, List.foldl_cons, List.length_cons, mk.injEq, true_and]
      push_cast
      ring

end UTXOBatch

namespace ChainIndex

section Utxos

variable {b : UTXOBatch} {adds : List (TXO × TXOInfo)} {spends : List Spend} {undo : UndoInfo}

theorem get_applyUtxos {txo : TXO} {info : TXOInfo} :
    (applyUtxos b adds spends).utxoset[txo]? = some info ↔
      (adds.foldl (fun m e => m.insert e.1 (storedInfo e.2)) b.utxoset)[txo]? = some info ∧
        ∀ sp ∈ spends, sp.txo ≠ txo := by
  rw [applyUtxos, UTXOBatch.foldl_add, UTXOBatch.foldl_remove]
  exact get_foldl_erase Spend.txo _

theorem get_applyUtxos_shunspent (b : UTXOBatch) (adds : List (TXO × TXOInfo))
    (spends : List Spend) {key : ShunspentKey} {v : SHUnspentValue} :
    (applyUtxos b adds spends).shunspent[key]? = some v ↔
      (adds.foldl (fun m e => m.insert (shunspentKey e.1 e.2)
          (⟨e.2.amount, e.2.tokenDataPtr⟩ : SHUnspentValue)) b.shunspent)[key]? = some v ∧
        ∀ sp ∈ spends, shunspentKey sp.txo sp.info ≠ key := by
  rw [applyUtxos, UTXOBatch.foldl_add, UTXOBatch.foldl_remove]
  exact get_foldl_erase (fun sp : Spend => shunspentKey sp.txo sp.info) _

theorem utxoCt_applyUtxos :
    (applyUtxos b adds spends).utxoCt = b.utxoCt + adds.length - spends.length := by
  rw [applyUtxos, UTXOBatch.foldl_add, UTXOBatch.foldl_remove]

theorem get_undoUtxos {txo : TXO} {info : TXOInfo} :
    (undoUtxos b undo).utxoset[txo]? = some info ↔
      (undo.delUndos.foldl (fun m e => m.insert e.1 (storedInfo e.2)) b.utxoset)[txo]? =
          some info ∧
        ∀ e ∈ undo.addUndos, e.1 ≠ txo := by
  rw [undoUtxos, UTXOBatch.foldl_add, UTXOBatch.foldl_remove]
  exact get_foldl_erase Prod.fst _

theorem get_undoUtxos_shunspent {key : ShunspentKey} {v : SHUnspentValue} :
    (undoUtxos b undo).shunspent[key]? = some v ↔
      (undo.delUndos.foldl (fun m e => m.insert (shunspentKey e.1 e.2)
          (⟨e.2.amount, e.2.tokenDataPtr⟩ : SHUnspentValue)) b.shunspent)[key]? = some v ∧
        ∀ e ∈ undo.addUndos, (⟨e.2.1, e.2.2⟩ : ShunspentKey) ≠ key := by
  rw [undoUtxos, UTXOBatch.foldl_add, UTXOBatch.foldl_remove]
  exact get_foldl_erase (fun e : TXO × HashX × CompactTXO => (⟨e.2.1, e.2.2⟩ : ShunspentKey)) _

theorem utxoCt_undoUtxos :
    (undoUtxos b undo).utxoCt = b.utxoCt + undo.delUndos.length - undo.addUndos.length := by
  rw [undoUtxos, UTXOBatch.foldl_add, UTXOBatch.foldl_remove]

end Utxos

section History

variable {shist shist' : Std.ExtTreeMap HashX (List Nat) compare} {txNum0 : Nat}

theorem get_appendHistory (shist : Std.ExtTreeMap HashX (List Nat) compare) (txNum0 : Nat)
    (ag : HashXAggregated) (hx : HashX) :
    (appendHistory shist txNum0 ag)[hx]? =
      ag[hx]?.elim shist[hx]? fun a => some (shist[hx]?.getD [] ++
        a.txNumsInvolvingHashX.map fun n => compactTxNum (n + txNum0)) :=
  get_foldl_alter_toList ag
    (fun a old => some (old.getD [] ++
      a.txNumsInvolvingHashX.map fun n => compactTxNum (n + txNum0))) shist hx

/-- A list without the numbers from `txNum0` on; none if nothing is left. -/
def cutList (txNum0 : Nat) (vec : List Nat) : Option (List Nat) :=
  let newVec := vec.filter fun n => decide (n < txNum0)
  if newVec.isEmpty then none else some newVec

theorem cutList_append {old new : List Nat} (hold : ∀ n ∈ old, n < txNum0)
    (hnew : ∀ n ∈ new, txNum0 ≤ n) :
    cutList txNum0 (old ++ new) = if old.isEmpty then none else some old := by
  have hkeep : old.filter (fun n => decide (n < txNum0)) = old :=
    List.filter_eq_self.mpr fun n hn => by simpa using hold n hn
  have hdrop : new.filter (fun n => decide (n < txNum0)) = [] :=
    List.filter_eq_nil_iff.mpr fun n hn => by simpa using hnew n hn
  simp only [cutList, List.filter_append, hkeep, hdrop, List.append_nil]

theorem cutList_eq_some {vec l : List Nat} (h : cutList txNum0 vec = some l) :
    l = vec.filter (fun n => decide (n < txNum0)) ∧ l ≠ [] := by
  simp only [cutList] at h
  split_ifs at h with hempty
  cases h
  refine ⟨rfl, fun hnil => hempty ?_⟩
  rw [hnil]
  rfl

theorem get_undoHistories {l : List HashX} (h : undoHistories shist txNum0 l = .ok shist')
    (hsorted : ∀ (hx : HashX) (vec : List Nat), shist[hx]? = some vec → vec.Pairwise (· < ·))
    (hx : HashX) :
    shist'[hx]? = if hx ∈ l then shist[hx]?.bind (cutList txNum0) else shist[hx]? := by
  induction l generalizing shist' with
  | nil =>
      cases h
      simp
  | cons sh rest ih =>
      rw [undoHistories] at h
      cases hget : shist[sh]? with
      | none =>
          rw [hget] at h
          cases h
      | some vec =>
          rw [hget] at h
          cases hrest : undoHistories shist txNum0 rest with
          | error e =>
              rw [hrest] at h
              cases h
          | ok m =>
              rw [hrest] at h
              cases h
              have hcut : SortUnique.sortUnique natLe (vec.filter fun n => decide (n < txNum0)) =
                  vec.filter fun n => decide (n < txNum0) :=
                sortUnique_of_pairwise ((hsorted sh vec hget).filter _)
              rw [hcut]
              by_cases hk : sh = hx
              · subst hk
                simp only [List.mem_cons, true_or, if_true, hget, Option.bind_some, cutList]
                split_ifs with hempty
                · rw [get_erase, if_pos rfl]
                · rw [get_insert, if_pos rfl]
              · have hmem : hx ∈ sh :: rest ↔ hx ∈ rest := by
                  simp [show hx ≠ sh from fun heq => hk heq.symm]
                rw [if_congr hmem rfl rfl, ← ih hrest]
                split_ifs
                · rw [get_erase, if_neg hk]
                · rw [get_insert, if_neg hk]

theorem undoHistories_ok {l : List HashX} (h : ∀ hx ∈ l, hx ∈ shist) :
    ∃ shist', undoHistories shist txNum0 l = .ok shist' := by
  induction l with
  | nil => exact ⟨shist, rfl⟩
  | cons sh rest ih =>
      obtain ⟨m, hm⟩ := ih fun hx hmem => h hx (by simp [hmem])
      obtain ⟨vec, hvec⟩ := mem_iff_getElem?.mp (h sh (by simp))
      rw [undoHistories, hvec]
      simp only [hm]
      exact ⟨_, rfl⟩

end History

section TxNums

variable {m m' : Std.ExtTreeMap (BitVec 48) (List Nat) compare}

/-- The numbers appended to the bucket of a key. -/
def bucketOf (txInfos : List TxInfo) (txNum0 : Nat) (key : BitVec 48) : List Nat :=
  ((txInfos.zipIdx txNum0).filter fun e => decide (makeKeyFromHash e.1.hash = key)).map Prod.snd

theorem get_foldl_concat (l : List (TxInfo × Nat)) (key : BitVec 48) :
    (l.foldl (fun m e => concat m (makeKeyFromHash e.1.hash) [e.2]) m)[key]? =
      let nums := (l.filter fun e => decide (makeKeyFromHash e.1.hash = key)).map Prod.snd
      if nums.isEmpty then m[key]? else some (m[key]?.getD [] ++ nums) := by
  induction l generalizing m with
  | nil => simp
  | cons e l ih =>
      rw [List.foldl_cons, ih]
      simp only [concat, get_alter]
      by_cases hk : makeKeyFromHash e.1.hash = key
      · simp only [hk, if_true, List.filter_cons, decide_true, List.map_cons,
          Option.getD_some, List.isEmpty_cons, Bool.false_eq_true, if_false, List.append_assoc,
          List.singleton_append]
        split_ifs with hempty
        · rw [List.isEmpty_iff.mp hempty]
        · rfl
      · simp only [hk, if_false, List.filter_cons, decide_false, Bool.false_eq_true]

theorem get_insertForBlock (m : Std.ExtTreeMap (BitVec 48) (List Nat) compare) (txNum0 : Nat)
    (txInfos : List TxInfo) (key : BitVec 48) :
    (insertForBlock m txNum0 txInfos)[key]? =
      if (bucketOf txInfos txNum0 key).isEmpty then m[key]?
      else some (m[key]?.getD [] ++ bucketOf txInfos txNum0 key) :=
  get_foldl_concat _ key

theorem mem_bucketOf {txInfos : List TxInfo} {txNum0 n : Nat} {key : BitVec 48} :
    n ∈ bucketOf txInfos txNum0 key ↔
      ∃ i info, txInfos[i]? = some info ∧ makeKeyFromHash info.hash = key ∧ n = txNum0 + i := by
  simp only [bucketOf, List.mem_map, List.mem_filter, decide_eq_true_eq]
  constructor
  · rintro ⟨⟨info, n⟩, ⟨hmem, hkey⟩, rfl⟩
    obtain ⟨hle, hget⟩ := List.mk_mem_zipIdx_iff_le_and_getElem?_sub.mp hmem
    exact ⟨_, info, hget, hkey, by simp only; omega⟩
  · rintro ⟨i, info, hget, hkey, rfl⟩
    exact ⟨(info, txNum0 + i), ⟨List.mk_add_mem_zipIdx_iff_getElem?.mpr hget, hkey⟩, rfl⟩

theorem get_truncateBucket {old : Std.ExtTreeMap (BitVec 48) (List Nat) compare} {txNum : Nat}
    {rec : TxHash} {key : BitVec 48} :
    (truncateBucket old txNum m rec)[key]? =
      if makeKeyFromHash rec = key ∧ old[key]? ≠ none then old[key]?.bind (cutList txNum)
      else m[key]? := by
  by_cases hk : makeKeyFromHash rec = key
  · subst hk
    simp only [truncateBucket, true_and]
    cases hget : old[makeKeyFromHash rec]? with
    | none => simp
    | some vals =>
        simp only [ne_eq, reduceCtorEq, not_false_eq_true, if_true, Option.bind_some, cutList]
        split_ifs
        · rw [get_erase, if_pos rfl]
        · rw [get_insert, if_pos rfl]
  · rw [if_neg fun h => hk h.1]
    simp only [truncateBucket]
    cases old[makeKeyFromHash rec]? with
    | none => rfl
    | some vals =>
        simp only
        split_ifs
        · rw [get_erase, if_neg hk]
        · rw [get_insert, if_neg hk]

theorem get_foldl_truncateBucket {old : Std.ExtTreeMap (BitVec 48) (List Nat) compare}
    {txNum : Nat} {recs : List TxHash} {key : BitVec 48} :
    (recs.foldl (truncateBucket old txNum) m)[key]? =
      if (∃ rec ∈ recs, makeKeyFromHash rec = key) ∧ old[key]? ≠ none then
        old[key]?.bind (cutList txNum) else m[key]? := by
  induction recs generalizing m with
  | nil => simp
  | cons rec recs ih =>
      rw [List.foldl_cons, ih, get_truncateBucket]
      simp only [List.mem_cons, exists_eq_or_imp]
      by_cases hrest : (∃ rec ∈ recs, makeKeyFromHash rec = key) ∧ old[key]? ≠ none
      · rw [if_pos hrest, if_pos ⟨.inr hrest.1, hrest.2⟩]
      · rw [if_neg hrest]
        refine if_congr ?_ rfl rfl
        constructor
        · rintro ⟨hk, hne⟩
          exact ⟨.inl hk, hne⟩
        · rintro ⟨hk | hk, hne⟩
          · exact ⟨hk, hne⟩
          · exact absurd ⟨hk, hne⟩ hrest

theorem get_truncateForUndo {ix : ChainIndex} {txNum : Nat} (h : truncateForUndo ix txNum = .ok m')
    (key : BitVec 48) :
    m'[key]? = if ∃ rec ∈ ix.txNums.drop txNum, makeKeyFromHash rec = key then
      ix.txhash2txnum[key]?.bind (cutList txNum) else ix.txhash2txnum[key]? := by
  unfold truncateForUndo at h
  split_ifs at h
  cases hrows : (ix.txNums.drop txNum).mapM (readRow ix.txhash2txnum) with
  | error e =>
      rw [hrows] at h
      cases h
  | ok rows =>
      rw [hrows] at h
      cases h
      rw [get_foldl_truncateBucket]
      cases hget : ix.txhash2txnum[key]? with
      | none => simp
      | some vals => simp

/-- A row is read to its end exactly when an `int` holds its size. -/
theorem exists_readRow_iff {rec : TxHash}
    (hval : ∀ n ∈ m[makeKeyFromHash rec]?.getD [], n < 2 ^ 64) :
    (∃ vals, readRow m rec = .ok vals) ↔ (rowBytes m (makeKeyFromHash rec)).length < 2 ^ 31 := by
  constructor
  · rintro ⟨vals, h⟩
    by_contra hlen
    have herror : ∃ e, VarInt.deserializeAll false (rowBytes m (makeKeyFromHash rec)).length
        (rowBytes m (makeKeyFromHash rec)) = .error e :=
      VarInt.deserializeAll_of_ge hval (not_lt.mp hlen)
    obtain ⟨e, he⟩ := herror
    simp only [readRow, he] at h
    cases h
  · intro hlen
    have hread : VarInt.deserializeAll false (rowBytes m (makeKeyFromHash rec)).length
        (rowBytes m (makeKeyFromHash rec)) = _ := (VarInt.deserializeAll_encode_iff hval).mpr hlen
    simp only [readRow, hread]
    exact ⟨_, rfl⟩

/-- The rows of the records from `txNum` on can be read. -/
def RowsFit (ix : ChainIndex) (txNum : Nat) : Prop :=
  ∀ rec ∈ ix.txNums.drop txNum,
    (rowBytes ix.txhash2txnum (makeKeyFromHash rec)).length < 2 ^ 31

theorem exists_truncateForUndo_iff {ix : ChainIndex} {txNum : Nat} (hle : txNum ≤ ix.txNums.length)
    (hval : ∀ (key : BitVec 48), ∀ n ∈ ix.txhash2txnum[key]?.getD [], n < 2 ^ 64) :
    (∃ m, truncateForUndo ix txNum = .ok m) ↔ RowsFit ix txNum := by
  have hrows : (∃ rows, (ix.txNums.drop txNum).mapM (readRow ix.txhash2txnum) = .ok rows) ↔
      RowsFit ix txNum := by
    rw [Fallible.exists_mapM_iff]
    exact forall₂_congr fun rec _ => exists_readRow_iff (hval _)
  rw [← hrows, truncateForUndo, if_neg (not_lt.mpr hle)]
  cases (ix.txNums.drop txNum).mapM (readRow ix.txhash2txnum) with
  | error e => simp
  | ok rows => simp

end TxNums

end ChainIndex
end Storage
end Shulcrum
