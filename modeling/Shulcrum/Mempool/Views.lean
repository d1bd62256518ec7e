import Shulcrum.Mempool.Spec

/-!
# Updates of mempool records and of pools

How the updates made by the mempool operations look through `Tx.io`, and how
the abstract pool changes when a transaction is put into it or gets one more
input.  `TxRep.congr` moves the record of a transaction to another pool that
agrees with the first as far as that transaction can see.
-/

namespace Shulcrum

open BTC SortUnique TreeMap

namespace Tx

theorem io_updIo {tx : Tx} {sh sh' : HashX} {f : IOInfo → IOInfo} :
    (tx.updIo sh f).io sh' = if sh = sh' then f (tx.io sh') else tx.io sh' := by
  simp only [io, updIo, get_alter]
  split_ifs <;> rfl

theorem mem_updIo {tx : Tx} {sh sh' : HashX} {f : IOInfo → IOInfo} :
    sh' ∈ (tx.updIo sh f).hashXs ↔ sh' = sh ∨ sh' ∈ tx.hashXs := by
  simp only [updIo, mem_iff_getElem?, get_alter]
  by_cases h : sh = sh'
  · simp [h]
  · have h' : sh' ≠ sh := fun e => h e.symm
    simp [h, h']

theorem io_modifyIo {tx : Tx} {sh sh' : HashX} {f : IOInfo → IOInfo} (hsh : sh ∈ tx.hashXs) :
    (tx.modifyIo sh f).io sh' = if sh = sh' then f (tx.io sh') else tx.io sh' := by
  simp only [io, modifyIo, get_modify]
  split_ifs with h
  · subst h
    obtain ⟨v, hv⟩ := mem_iff_getElem?.mp hsh
    simp [hv]
  · rfl

theorem mem_modifyIo {tx : Tx} {sh sh' : HashX} {f : IOInfo → IOInfo} :
    sh' ∈ (tx.modifyIo sh f).hashXs ↔ sh' ∈ tx.hashXs := by
  simp only [modifyIo]
  exact Std.ExtTreeMap.mem_modify

end Tx

theorem mem_pushTx {m : HashXTxMap} {sh sh' : HashX} {h h' : TxHash} :
    h' ∈ (pushTx m sh h)[sh']?.getD [] ↔ h' ∈ m[sh']?.getD [] ∨ (sh' = sh ∧ h' = h) := by
  simp only [pushTx, get_alter]
  by_cases hsh : sh = sh'
  · simp [hsh]
  · have hsh' : sh' ≠ sh := fun e => hsh e.symm
    simp [hsh, hsh']

theorem pushTx_ne_nil {m : HashXTxMap} (hm : ∀ sh : HashX, m[sh]? ≠ some []) {sh : HashX}
    {h : TxHash} (sh' : HashX) : (pushTx m sh h)[sh']? ≠ some [] := by
  simp only [pushTx, get_alter]
  split_ifs
  · simp
  · exact hm sh'

theorem get_pushTx_of_ne {m : HashXTxMap} {sh sh' : HashX} {h : TxHash} (hne : sh' ≠ sh) :
    (pushTx m sh h)[sh']? = m[sh']? := by
  rw [pushTx, get_alter, if_neg (fun e => hne e.symm)]

namespace NewTx

/-- A transaction with one more input. -/
def addVin (nt : NewTx) (input : CTxIn) : NewTx :=
  { nt with ctx := { nt.ctx with vin := nt.ctx.vin ++ [input] } }

/-- A transaction with other inputs. -/
def withVin (nt : NewTx) (vin : List CTxIn) : NewTx :=
  { nt with ctx := { nt.ctx with vin := vin } }

@[simp] theorem hash_addVin (nt : NewTx) (input : CTxIn) : (nt.addVin input).hash = nt.hash := rfl

@[simp] theorem hash_withVin (nt : NewTx) (vin : List CTxIn) : (nt.withVin vin).hash = nt.hash :=
  rfl

@[simp] theorem outAt_addVin (H : Hashers) (nt : NewTx) (input : CTxIn) (n : Nat) :
    (nt.addVin input).outAt H n = nt.outAt H n := rfl

@[simp] theorem outAt_withVin (H : Hashers) (nt : NewTx) (vin : List CTxIn) (n : Nat) :
    (nt.withVin vin).outAt H n = nt.outAt H n := rfl

@[simp] theorem prevouts_addVin (nt : NewTx) (input : CTxIn) :
    (nt.addVin input).prevouts = nt.prevouts ++ [input.prevout] := by
  simp [prevouts, addVin]

@[simp] theorem prevouts_withVin_nil (nt : NewTx) : (nt.withVin []).prevouts = [] := rfl

@[simp] theorem withVin_self (nt : NewTx) : nt.withVin nt.ctx.vin = nt := rfl

end NewTx

namespace Pool

variable {H : Hashers} {P P' : Pool} {db db' : TXO → Option TXOInfo}

/-- The pools have the same outputs under an id. -/
def OutsAgree (H : Hashers) (P P' : Pool) (h : TxHash) : Prop :=
  (P h).map (NewTx.outInfos H) = (P' h).map (NewTx.outInfos H)

theorem OutsAgree.none_iff {h : TxHash} (ha : OutsAgree H P P' h) : P h = none ↔ P' h = none := by
  unfold OutsAgree at ha
  rw [← Option.map_eq_none_iff, ha, Option.map_eq_none_iff]

theorem OutsAgree.symm {h : TxHash} (ha : OutsAgree H P P' h) : OutsAgree H P' P h :=
  Eq.symm ha

/-- An output found in one pool is found in the other. -/
theorem OutsAgree.exists_outAt {h : TxHash} (ha : OutsAgree H P P' h) {n : Nat} {info : TXOInfo}
    (hex : ∃ p, P h = some p ∧ p.outAt H n = some info) :
    ∃ p, P' h = some p ∧ p.outAt H n = some info := by
  obtain ⟨p, hp, hout⟩ := hex
  unfold OutsAgree at ha
  rw [hp, Option.map_some] at ha
  obtain ⟨p', hp', hinfos⟩ := Option.map_eq_some_iff.mp ha.symm
  refine ⟨p', hp', ?_⟩
  rw [NewTx.outAt, hinfos]
  exact hout

theorem OutsAgree.prevInfo {txo : TXO} (ha : OutsAgree H P P' txo.txHash)
    (hdb : P txo.txHash = none → db txo = db' txo) :
    P.prevInfo H db txo = P'.prevInfo H db' txo := by
  unfold Pool.prevInfo
  cases hp : P txo.txHash with
  | none =>
      rw [ha.none_iff.mp hp]
      exact hdb hp
  | some p =>
      cases hp' : P' txo.txHash with
      | none => rw [ha.none_iff.mpr hp'] at hp; cases hp
      | some p' =>
          unfold OutsAgree at ha
          rw [hp, hp', Option.map_some, Option.map_some, Option.some.injEq] at ha
          simp only [NewTx.outAt, ha]

theorem prevInfo_of_some {txo : TXO} {p : NewTx} (h : P txo.txHash = some p) :
    P.prevInfo H db txo = p.outAt H txo.outN := by
  rw [prevInfo, h]

theorem prevInfo_of_none {txo : TXO} (h : P txo.txHash = none) :
    P.prevInfo H db txo = db txo := by
  rw [prevInfo, h]

/-- File a transaction in the pool. -/
def put (P : Pool) (nt : NewTx) : Pool := fun h => if h = nt.hash then some nt else P h

/-- Give the transaction filed under `h` one more input. -/
def grow (P : Pool) (h : TxHash) (input : CTxIn) : Pool :=
  fun g => (P g).map fun q => if g = h then q.addVin input else q

theorem outsAgree_grow (h : TxHash) (input : CTxIn) (g : TxHash) :
    OutsAgree H P (P.grow h input) g := by
  unfold OutsAgree grow
  rw [Option.map_map]
  congr 1
  funext q
  simp only [Function.comp]
  split_ifs <;> rfl

theorem grow_eq_some {h g : TxHash} {input : CTxIn} {q' : NewTx} :
    P.grow h input g = some q' ↔
      ∃ q, P g = some q ∧ q' = if g = h then q.addVin input else q := by
  simp only [grow, Option.map_eq_some_iff]
  constructor
  · rintro ⟨q, hq, rfl⟩
    exact ⟨q, hq, rfl⟩
  · rintro ⟨q, hq, rfl⟩
    exact ⟨q, hq, rfl⟩

theorem spent_grow {h : TxHash} (hP : P h ≠ none) {input : CTxIn} {txo : TXO} :
    (P.grow h input).Spent txo ↔ P.Spent txo ∨ txo = input.prevout := by
  constructor
  · rintro ⟨g, q', hq', hmem⟩
    obtain ⟨q, hq, rfl⟩ := grow_eq_some.mp hq'
    by_cases hg : g = h
    · rw [if_pos hg, NewTx.prevouts_addVin, List.mem_append, List.mem_singleton] at hmem
      exact hmem.imp (fun hm => ⟨g, q, hq, hm⟩) id
    · rw [if_neg hg] at hmem
      exact .inl ⟨g, q, hq, hmem⟩
  · rintro (⟨g, q, hq, hmem⟩ | rfl)
    · refine ⟨g, _, grow_eq_some.mpr ⟨q, hq, rfl⟩, ?_⟩
      split_ifs
      · simp [hmem]
      · exact hmem
    · obtain ⟨q, hq⟩ := Option.ne_none_iff_exists'.mp hP
      refine ⟨h, _, grow_eq_some.mpr ⟨q, hq, rfl⟩, ?_⟩
      simp

theorem spends_grow {h : TxHash} (hP : P h ≠ none) {input : CTxIn} {c g : TxHash} :
    (P.grow h input).Spends c g ↔ P.Spends c g ∨ (c = h ∧ g = input.prevout.txHash) := by
  constructor
  · rintro ⟨q', hq', txo, hmem, hg⟩
    obtain ⟨q, hq, rfl⟩ := grow_eq_some.mp hq'
    by_cases hc : c = h
    · rw [if_pos hc, NewTx.prevouts_addVin, List.mem_append, List.mem_singleton] at hmem
      rcases hmem with hmem | rfl
      · exact .inl ⟨q, hq, txo, hmem, hg⟩
      · exact .inr ⟨hc, hg.symm⟩
    · rw [if_neg hc] at hmem
      exact .inl ⟨q, hq, txo, hmem, hg⟩
  · rintro (⟨q, hq, txo, hmem, hg⟩ | ⟨rfl, rfl⟩)
    · refine ⟨_, grow_eq_some.mpr ⟨q, hq, rfl⟩, txo, ?_, hg⟩
      split_ifs
      · simp [hmem]
      · exact hmem
    · obtain ⟨q, hq⟩ := Option.ne_none_iff_exists'.mp hP
      refine ⟨_, grow_eq_some.mpr ⟨q, hq, rfl⟩, input.prevout, ?_, rfl⟩
      simp

/-- Two pools look the same to a transaction. -/
structure Agree (H : Hashers) (P P' : Pool) (db db' : TXO → Option TXOInfo) (nt : NewTx) :
    Prop where
  outs : ∀ txo ∈ nt.prevouts, OutsAgree H P P' txo.txHash
  db_eq : ∀ txo ∈ nt.prevouts, P txo.txHash = none → db txo = db' txo
  spent : ∀ n, P.Spent ⟨nt.hash, n⟩ ↔ P'.Spent ⟨nt.hash, n⟩
  spends : ∀ c, P.Spends c nt.hash ↔ P'.Spends c nt.hash

namespace Agree

variable {nt : NewTx}

theorem prevInfo (ha : Agree H P P' db db' nt) {txo : TXO} (htxo : txo ∈ nt.prevouts) :
    P.prevInfo H db txo = P'.prevInfo H db' txo :=
  (ha.outs txo htxo).prevInfo (ha.db_eq txo htxo)

theorem touches (ha : Agree H P P' db db' nt) (sh : HashX) :
    P.Touches H db nt sh ↔ P'.Touches H db' nt sh := by
  unfold Touches
  refine or_congr_right (exists_congr fun txo => and_congr_right fun htxo => ?_)
  rw [ha.prevInfo htxo]

theorem inSum (ha : Agree H P P' db db' nt) : P.inSum H db nt = P'.inSum H db' nt := by
  unfold Pool.inSum
  congr 1
  apply List.map_congr_left
  intro txo htxo
  rw [ha.prevInfo htxo]

end Agree
end Pool

namespace Mempool

variable {H : Hashers} {rpa : Bool} {P P' : Pool} {db db' : TXO → Option TXOInfo}
  {nt : NewTx} {tx : Tx}

/-- A record stays right in a pool that looks the same to its transaction. -/
theorem TxRep.congr (h : TxRep H rpa P db nt tx) (ha : Pool.Agree H P P' db db' nt) :
    TxRep H rpa P' db' nt tx where
  hash := h.hash
  sizeBytes := h.sizeBytes
  vsizeBytes := h.vsizeBytes
  txos := h.txos
  fee := by rw [h.fee, ha.inSum]
  mem_hashXs sh := by rw [h.mem_hashXs, ha.touches]
  conf sh txo info := by
    rw [h.conf]
    refine and_congr_right fun htxo => ?_
    rw [← (ha.outs txo htxo).none_iff]
    refine and_congr_right fun hnone => ?_
    rw [ha.db_eq txo htxo hnone]
  unconf sh txo info := by
    rw [h.unconf]
    refine and_congr_right fun htxo => and_congr_left fun _ => ?_
    exact ⟨(ha.outs txo htxo).exists_outAt, (ha.outs txo htxo).symm.exists_outAt⟩
  utxo sh n := by rw [h.utxo, ha.spent]
  parents p := by
    rw [h.parents]
    constructor
    · rintro ⟨hp, txo, htxo, rfl⟩
      exact ⟨fun hn => hp ((ha.outs txo htxo).none_iff.mpr hn), txo, htxo, rfl⟩
    · rintro ⟨hp, txo, htxo, rfl⟩
      exact ⟨fun hn => hp ((ha.outs txo htxo).none_iff.mp hn), txo, htxo, rfl⟩
  children c := by rw [h.children, ha.spends]
  rpaNone := h.rpaNone
  rpaSome := h.rpaSome

theorem hasUnconfirmedParents_iff {tx : Tx} :
    tx.hasUnconfirmedParents = true ↔ ∃ p, p ∈ tx.parents := by
  rw [Tx.hasUnconfirmedParents, Bool.not_eq_true', Std.ExtTreeSet.isEmpty_eq_false_iff]
  exact set_ne_empty_iff

/-- The unconfirmed spends of a transaction are counted over all script hashes. -/
theorem nUnconfs_eq_zero_iff {tx : Tx} :
    tx.nUnconfs = 0 ↔ ∀ (sh : HashX) (txo : TXO), txo ∉ (tx.io sh).unconfirmedSpends := by
  have hzero : tx.nUnconfs = 0 ↔
      ∀ e ∈ tx.hashXs.toList, e.2.unconfirmedSpends.size = 0 := by
    rw [Tx.nUnconfs, List.sum_eq_zero_iff]
    simp only [List.mem_map, forall_exists_index, and_imp, forall_apply_eq_imp_iff₂]
  rw [hzero]
  constructor
  · intro hall sh txo htxo
    have hsh : sh ∈ tx.hashXs := by
      by_contra hn
      rw [Tx.io_of_not_mem hn] at htxo
      simp at htxo
    have hsize := hall (sh, tx.io sh)
      (Std.ExtTreeMap.mem_toList_iff_getElem?_eq_some.mpr (Tx.get_hashXs_of_mem hsh))
    rw [← Std.ExtTreeMap.eq_empty_iff_size_eq_zero,
      Std.ExtTreeMap.eq_empty_iff_forall_not_mem] at hsize
    exact hsize txo htxo
  · rintro hall ⟨sh, io⟩ hmem
    have hio : tx.io sh = io := by
      rw [Tx.io, Std.ExtTreeMap.mem_toList_iff_getElem?_eq_some.mp hmem]
      rfl
    rw [← Std.ExtTreeMap.eq_empty_iff_size_eq_zero, Std.ExtTreeMap.eq_empty_iff_forall_not_mem]
    intro txo htxo
    rw [← hio] at htxo
    exact hall sh txo htxo

/-- The flag of a transaction says whether it spends from the pool. -/
theorem TxRep.hasUnconfirmedParents (h : TxRep H rpa P db nt tx) :
    tx.hasUnconfirmedParents = true ↔ ∃ txo ∈ nt.prevouts, P txo.txHash ≠ none := by
  rw [hasUnconfirmedParents_iff]
  constructor
  · rintro ⟨p, hp⟩
    obtain ⟨hP, txo, htxo, rfl⟩ := (h.parents p).mp hp
    exact ⟨txo, htxo, hP⟩
  · rintro ⟨txo, htxo, hP⟩
    exact ⟨txo.txHash, (h.parents _).mpr ⟨hP, txo, htxo, rfl⟩⟩

end Mempool
end Shulcrum
