import Shulcrum.Mempool.Views

/-!
# First pass of `addNewTxs`

A new transaction is filed in the mempool with its outputs and without any
inputs.  `OutInv` describes the loop over the outputs; `Content.addTxOutputs`
says that the pass takes a mempool of the pool `P` to a mempool of `P` with the
new transactions put into it, still without inputs.
-/

namespace Shulcrum

open BTC SortUnique TreeMap

namespace Pool

variable {H : Hashers} {P : Pool} {db : TXO → Option TXOInfo}

/-- No transaction of the pool spends from the transaction `h`. -/
def Unused (P : Pool) (h : TxHash) : Prop :=
  ∀ g q, P g = some q → ∀ txo ∈ q.prevouts, txo.txHash ≠ h

theorem put_of_ne {nt : NewTx} {h : TxHash} (hne : h ≠ nt.hash) : P.put nt h = P h :=
  if_neg hne

@[simp] theorem put_self (nt : NewTx) : P.put nt nt.hash = some nt := if_pos rfl

theorem put_eq_some {nt q : NewTx} {h : TxHash} :
    P.put nt h = some q ↔ (h = nt.hash ∧ q = nt) ∨ (h ≠ nt.hash ∧ P h = some q) := by
  by_cases hh : h = nt.hash
  · subst hh
    simp [eq_comm]
  · simp [put_of_ne hh, hh]

theorem Keyed.put (hP : P.Keyed) (nt : NewTx) : (P.put nt).Keyed := by
  intro h q hq
  rcases put_eq_some.mp hq with ⟨rfl, rfl⟩ | ⟨-, hq⟩
  · rfl
  · exact hP h q hq

theorem spent_put_withVin_nil {nt : NewTx} (hnone : P nt.hash = none) {txo : TXO} :
    (P.put (nt.withVin [])).Spent txo ↔ P.Spent txo := by
  constructor
  · rintro ⟨h, q, hq, hmem⟩
    rcases put_eq_some.mp hq with ⟨-, rfl⟩ | ⟨-, hq⟩
    · simp at hmem
    · exact ⟨h, q, hq, hmem⟩
  · rintro ⟨h, q, hq, hmem⟩
    refine ⟨h, q, put_eq_some.mpr (.inr ⟨?_, hq⟩), hmem⟩
    rintro rfl
    simp [hnone] at hq

theorem spends_put_withVin_nil {nt : NewTx} (hnone : P nt.hash = none) {c p : TxHash} :
    (P.put (nt.withVin [])).Spends c p ↔ P.Spends c p := by
  constructor
  · rintro ⟨q, hq, txo, hmem, hp⟩
    rcases put_eq_some.mp hq with ⟨-, rfl⟩ | ⟨-, hq⟩
    · simp at hmem
    · exact ⟨q, hq, txo, hmem, hp⟩
  · rintro ⟨q, hq, txo, hmem, hp⟩
    refine ⟨q, put_eq_some.mpr (.inr ⟨?_, hq⟩), txo, hmem, hp⟩
    rintro rfl
    simp [hnone] at hq

/-- An unspent new transaction is not seen by the other ones. -/
theorem agree_put_withVin_nil {nt : NewTx} (hnone : P nt.hash = none) (hunused : P.Unused nt.hash)
    {h : TxHash} {q : NewTx} (hq : P h = some q) :
    Agree H P (P.put (nt.withVin [])) db db q where
  outs txo htxo := by
    have hne : txo.txHash ≠ (nt.withVin []).hash := hunused h q hq txo htxo
    rw [OutsAgree, put_of_ne hne]
  db_eq _ _ _ := rfl
  spent _ := (spent_put_withVin_nil hnone).symm
  spends _ := (spends_put_withVin_nil hnone).symm

theorem Unused.not_spent {h : TxHash} (hP : P.Unused h) (n : Nat) : ¬ P.Spent ⟨h, n⟩ := by
  rintro ⟨g, q, hq, hmem⟩
  exact hP g q hq _ hmem rfl

theorem Unused.not_spends {h : TxHash} (hP : P.Unused h) (c : TxHash) : ¬ P.Spends c h := by
  rintro ⟨q, hq, txo, hmem, hh⟩
  exact hP c q hq txo hmem hh

theorem Unused.put_withVin_nil {h : TxHash} (hP : P.Unused h) (nt : NewTx) :
    (P.put (nt.withVin [])).Unused h := by
  intro g q hq txo hmem
  rcases put_eq_some.mp hq with ⟨-, rfl⟩ | ⟨-, hq⟩
  · simp at hmem
  · exact hP g q hq txo hmem

theorem touches_withVin_nil {nt : NewTx} {sh : HashX} :
    P.Touches H db (nt.withVin []) sh ↔ ∃ n info, nt.outAt H n = some info ∧ info.hashX = sh := by
  simp [Touches]

end Pool

namespace Mempool

variable {H : Hashers} {rpa : Bool} {P : Pool} {db : TXO → Option TXOInfo}

/-- The valid output number `n` among `outs`. -/
def outOf (H : Hashers) (outs : List CTxOut) (n : Nat) : Option TXOInfo :=
  (outs.map (outInfo H))[n]?.join

theorem outOf_append {outs : List CTxOut} {out : CTxOut} {n : Nat} {info : TXOInfo} :
    outOf H (outs ++ [out]) n = some info ↔
      outOf H outs n = some info ∨ (n = outs.length ∧ outInfo H out = some info) := by
  unfold outOf
  rw [List.map_append]
  rcases lt_trichotomy n outs.length with h | rfl | h
  · rw [List.getElem?_append_left (by simpa using h)]
    simp [h.ne]
  · rw [List.getElem?_append_right (by simp)]
    simp
  · rw [List.getElem?_append_right (by simpa using h.le)]
    have hsub : ¬ n - outs.length = 0 := by omega
    have hlen : ¬ n = outs.length := by omega
    rw [List.getElem?_eq_none (by simpa using (by omega : 1 ≤ n - outs.length)),
      List.getElem?_eq_none (by simpa using h.le)]
    simp [hlen]

/-- Some of the outputs goes to the script hash. -/
def PaysTo (H : Hashers) (outs : List CTxOut) (sh : HashX) : Prop :=
  ∃ n info, outOf H outs n = some info ∧ info.hashX = sh

theorem paysTo_append {outs : List CTxOut} {out : CTxOut} {sh : HashX} :
    PaysTo H (outs ++ [out]) sh ↔
      PaysTo H outs sh ∨ ∃ info, outInfo H out = some info ∧ info.hashX = sh := by
  unfold PaysTo
  constructor
  · rintro ⟨n, info, hout, hsh⟩
    rcases outOf_append.mp hout with hout | ⟨-, hout⟩
    · exact .inl ⟨n, info, hout, hsh⟩
    · exact .inr ⟨info, hout, hsh⟩
  · rintro (⟨n, info, hout, hsh⟩ | ⟨info, hout, hsh⟩)
    · exact ⟨n, info, outOf_append.mpr (.inl hout), hsh⟩
    · exact ⟨outs.length, info, outOf_append.mpr (.inr ⟨rfl, hout⟩), hsh⟩

/-- The loop over the outputs of `nt`, when `outs` are done and `k` are left. -/
structure OutInv (H : Hashers) (m : HashXTxMap) (affected : HashSet) (nt : NewTx)
    (outs : List CTxOut) (k : Nat) (s : OutState) : Prop where
  hash : s.tx.hash = nt.hash
  sizeBytes : s.tx.sizeBytes = nt.sizeBytes
  vsizeBytes : s.tx.vsizeBytes = nt.vsizeBytes
  txos : s.tx.txos = outs.map (outInfo H) ++ List.replicate k none
  fee : s.tx.fee = - ((outs.map CTxOut.nValue).sum : Int)
  mem_hashXs : ∀ sh, sh ∈ s.tx.hashXs ↔ PaysTo H outs sh
  conf : ∀ sh, (s.tx.io sh).confirmedSpends = ∅
  unconf : ∀ sh, (s.tx.io sh).unconfirmedSpends = ∅
  utxo : ∀ sh n, n ∈ (s.tx.io sh).utxo ↔ ∃ info, outOf H outs n = some info ∧ info.hashX = sh
  parents : s.tx.parents = ∅
  children : s.tx.children = ∅
  rpa : s.tx.optRpaPrefixSet = none
  mem_hashXTxs : ∀ (sh : HashX) (h : TxHash), h ∈ s.hashXTxs[sh]?.getD [] ↔
    h ∈ m[sh]?.getD [] ∨ (PaysTo H outs sh ∧ h = nt.hash)
  ne_nil : ∀ sh : HashX, s.hashXTxs[sh]? ≠ some []
  affected : ∀ sh, sh ∈ s.scriptHashesAffected ↔ sh ∈ affected ∨ PaysTo H outs sh
  unaffected : ∀ sh, ¬ PaysTo H outs sh → s.hashXTxs[sh]? = m[sh]?

theorem outInv_start {m : HashXTxMap} (hm : ∀ sh : HashX, m[sh]? ≠ some []) (affected : HashSet)
    (nt : NewTx) :
    OutInv H m affected nt [] nt.ctx.vout.length
      ⟨{ hash := nt.hash
         sizeBytes := nt.sizeBytes
         vsizeBytes := nt.vsizeBytes
         txos := List.replicate nt.ctx.vout.length none }, m, affected⟩ := by
  constructor <;> simp [Tx.io, PaysTo, outOf, hm]

/-- One round of the loop over the outputs. -/
theorem OutInv.step {m : HashXTxMap} {affected : HashSet} {nt : NewTx} {outs : List CTxOut}
    {k : Nat} {s : OutState} (h : OutInv H m affected nt outs (k + 1) s) (out : CTxOut) :
    OutInv H m affected nt (outs ++ [out]) k (addOutput H s outs.length out) := by
  have hfee : s.tx.fee - out.nValue =
      - (((outs ++ [out]).map CTxOut.nValue).sum : Int) := by
    rw [h.fee]
    simp
    omega
  cases hinfo : outInfo H out with
  | none =>
      have hpays : ∀ sh, PaysTo H (outs ++ [out]) sh ↔ PaysTo H outs sh := by
        intro sh
        simp [paysTo_append, hinfo]
      have hout : ∀ n info, outOf H (outs ++ [out]) n = some info ↔ outOf H outs n = some info := by
        intro n info
        simp [outOf_append, hinfo]
      simp only [addOutput, hinfo]
      exact
        { hash := h.hash
          sizeBytes := h.sizeBytes
          vsizeBytes := h.vsizeBytes
          txos := by
            rw [h.txos, List.replicate_succ]
            simp [hinfo]
          fee := hfee
          mem_hashXs := fun sh => by rw [hpays]; exact h.mem_hashXs sh
          conf := h.conf
          unconf := h.unconf
          utxo := fun sh n => by simp only [hout]; exact h.utxo sh n
          parents := h.parents
          children := h.children
          rpa := h.rpa
          mem_hashXTxs := fun sh g => by rw [hpays]; exact h.mem_hashXTxs sh g
          ne_nil := h.ne_nil
          affected := fun sh => by rw [hpays]; exact h.affected sh
          unaffected := fun sh hsh => h.unaffected sh (fun hp => hsh ((hpays sh).mpr hp)) }
  | some info =>
      have hpays : ∀ sh, PaysTo H (outs ++ [out]) sh ↔ PaysTo H outs sh ∨ sh = info.hashX := by
        intro sh
        simp [paysTo_append, hinfo, eq_comm]
      have hout : ∀ n i, outOf H (outs ++ [out]) n = some i ↔
          outOf H outs n = some i ∨ (n = outs.length ∧ i = info) := by
        intro n i
        rw [outOf_append, hinfo, Option.some.injEq, eq_comm (a := info)]
      have hhashXs : (addOutput H s outs.length out).tx.hashXs =
          (s.tx.updIo info.hashX fun io =>
            { io with utxo := io.utxo.insert outs.length }).hashXs := by
        simp only [addOutput, hinfo]
      have hio : ∀ sh, (addOutput H s outs.length out).tx.io sh = if info.hashX = sh then
          { s.tx.io sh with utxo := (s.tx.io sh).utxo.insert outs.length } else s.tx.io sh := by
        intro sh
        rw [Tx.io, hhashXs]
        exact Tx.io_updIo
      have htxos : (addOutput H s outs.length out).tx.txos =
          s.tx.txos.set outs.length (some info) := by
        simp only [addOutput, hinfo]
      have hpush : (addOutput H s outs.length out).hashXTxs =
          pushTx s.hashXTxs info.hashX nt.hash := by
        simp only [addOutput, hinfo, h.hash]
      have haff : (addOutput H s outs.length out).scriptHashesAffected =
          s.scriptHashesAffected.insert info.hashX := by
        simp only [addOutput, hinfo]
      have hrest : (addOutput H s outs.length out).tx =
          { s.tx with
            txos := (addOutput H s outs.length out).tx.txos
            hashXs := (addOutput H s outs.length out).tx.hashXs
            fee := s.tx.fee - out.nValue } := by
        simp only [addOutput, hinfo]
        rfl
      exact
        { hash := by rw [hrest]; exact h.hash
          sizeBytes := by rw [hrest]; exact h.sizeBytes
          vsizeBytes := by rw [hrest]; exact h.vsizeBytes
          txos := by
            rw [htxos, h.txos, List.replicate_succ]
            simp [hinfo]
          fee := by rw [hrest]; exact hfee
          mem_hashXs := fun sh => by
            rw [hhashXs, Tx.mem_updIo, h.mem_hashXs, hpays, or_comm]
          conf := fun sh => by
            rw [hio]
            split_ifs <;> exact h.conf sh
          unconf := fun sh => by
            rw [hio]
            split_ifs <;> exact h.unconf sh
          utxo := fun sh n => by
            rw [hio]
            simp only [hout, or_and_right, exists_or]
            by_cases hsh : info.hashX = sh
            · rw [if_pos hsh, mem_set_insert, h.utxo, or_comm]
              simp [hsh]
            · rw [if_neg hsh, h.utxo]
              simp [hsh]
          parents := by rw [hrest]; exact h.parents
          children := by rw [hrest]; exact h.children
          rpa := by rw [hrest]; exact h.rpa
          mem_hashXTxs := fun sh g => by
            rw [hpush, mem_pushTx, h.mem_hashXTxs, hpays]
            tauto
          ne_nil := by
            rw [hpush]
            exact pushTx_ne_nil h.ne_nil
          affected := fun sh => by
            rw [haff, mem_set_insert, h.affected, hpays]
            tauto
          unaffected := fun sh hsh => by
            rw [hpays, not_or] at hsh
            rw [hpush, get_pushTx_of_ne hsh.2, h.unaffected sh hsh.1] }

/-- The whole loop over the outputs. -/
theorem OutInv.addOutputs {m : HashXTxMap} {affected : HashSet} {nt : NewTx}
    {outs rest : List CTxOut} {s : OutState} (h : OutInv H m affected nt outs rest.length s) :
    OutInv H m affected nt (outs ++ rest) 0 (addOutputs H s outs.length rest) := by
  induction rest generalizing outs s with
  | nil =>
      rw [List.append_nil]
      exact h
  | cons out rest ih =>
      have hstep := ih (h.step out)
      rw [List.append_assoc, List.length_append] at hstep
      exact hstep

/-- The record of a new transaction before its inputs are added. -/
theorem OutInv.txRep {m : HashXTxMap} {affected : HashSet} {nt : NewTx} {s : OutState}
    (h : OutInv H m affected nt nt.ctx.vout 0 s) (hunused : P.Unused nt.hash) :
    TxRep H rpa P db (nt.withVin []) s.tx where
  hash := h.hash
  sizeBytes := h.sizeBytes
  vsizeBytes := h.vsizeBytes
  txos := by rw [h.txos]; exact List.append_nil _
  fee := by
    have hin : P.inSum H db (nt.withVin []) = 0 := by simp [Pool.inSum]
    rw [h.fee, hin, Nat.cast_zero, zero_sub]
    rfl
  mem_hashXs sh := by
    rw [h.mem_hashXs, Pool.touches_withVin_nil]
    rfl
  conf sh txo info := by simp [h.conf]
  unconf sh txo info := by simp [h.unconf]
  utxo sh n := by
    rw [h.utxo]
    exact ⟨fun hex => ⟨hex, hunused.not_spent n⟩, fun hex => hex.1⟩
  parents p := by simp [h.parents]
  children c := by simp [h.children, hunused.not_spends c]
  rpaNone := by simp [h.rpa, NewTx.withVin]
  rpaSome s' hs' := by simp [h.rpa] at hs'

/-- The state of `addNewTxs` when its mempool represents `P`, started from `m`. -/
structure AddInv (H : Hashers) (rpa : Bool) (P : Pool) (db : TXO → Option TXOInfo)
    (m : HashXTxMap) (s : AddState) : Prop where
  content : Content H rpa P db s.mp
  keyed : P.Keyed
  dspTxs : s.dspTxsAffected = ∅
  unaffected : ∀ sh, sh ∉ s.scriptHashesAffected → s.mp.hashXTxs[sh]? = m[sh]?

theorem TableRep.put_withVin_nil {t : Option MempoolPrefixTable} (h : TableRep H rpa P t)
    {nt : NewTx} (hnone : P nt.hash = none) : TableRep H rpa (P.put (nt.withVin [])) t := by
  refine ⟨h.1, fun hrpa => ?_⟩
  obtain ⟨t, rfl, ht⟩ := h.2 hrpa
  refine ⟨t, rfl, fun p g => ?_⟩
  rw [ht]
  constructor
  · rintro ⟨q, hq, hp⟩
    refine ⟨q, Pool.put_eq_some.mpr (.inr ⟨?_, hq⟩), hp⟩
    rintro rfl
    simp [hnone] at hq
  · rintro ⟨q, hq, hp⟩
    rcases Pool.put_eq_some.mp hq with ⟨-, rfl⟩ | ⟨-, hq⟩
    · simp [NewTx.rpaPrefixes, NewTx.withVin] at hp
    · exact ⟨q, hq, hp⟩

/-- A new transaction is filed with its outputs. -/
theorem AddInv.addTxOutputs {m : HashXTxMap} {s : AddState} (h : AddInv H rpa P db m s)
    {nt : NewTx} (hnone : P nt.hash = none) (hunused : P.Unused nt.hash) :
    AddInv H rpa (P.put (nt.withVin [])) db m (addTxOutputs H s nt) := by
  have hout := (outInv_start (H := H) h.content.ne_nil s.scriptHashesAffected nt).addOutputs
  rw [List.nil_append, List.length_nil] at hout
  have hagree : ∀ g q, P g = some q → Pool.Agree H P (P.put (nt.withVin [])) db db q :=
    fun g q hq => Pool.agree_put_withVin_nil hnone hunused hq
  have htouches : ∀ sh, (P.put (nt.withVin [])).Touches H db (nt.withVin []) sh ↔
      PaysTo H nt.ctx.vout sh := fun sh => Pool.touches_withVin_nil
  have hne : ∀ g q, P g = some q → g ≠ nt.hash := by
    rintro g q hq rfl
    simp [hnone] at hq
  refine ⟨⟨?_, ?_, ?_, hout.ne_nil, h.content.table.put_withVin_nil hnone, h.content.dsps⟩,
    h.keyed.put _, h.dspTxs, ?_⟩
  · intro g hg
    have hgne : g ≠ nt.hash := by
      rintro rfl
      have hself := Pool.put_self (P := P) (nt.withVin [])
      rw [NewTx.hash_withVin, hg] at hself
      cases hself
    rw [Pool.put_of_ne (by exact hgne)] at hg
    simp only [Mempool.addTxOutputs, get_insert, if_neg (Ne.symm hgne)]
    exact h.content.absent g hg
  · intro g q hq
    simp only [Mempool.addTxOutputs, get_insert]
    rcases Pool.put_eq_some.mp hq with ⟨hg, rfl⟩ | ⟨hg, hq⟩
    · rw [NewTx.hash_withVin] at hg
      rw [if_pos hg.symm]
      exact ⟨_, rfl, hout.txRep (hunused.put_withVin_nil nt)⟩
    · rw [if_neg (Ne.symm (hne g q hq))]
      obtain ⟨tx, hget, hrep⟩ := h.content.present g q hq
      exact ⟨tx, hget, hrep.congr (hagree g q hq)⟩
  · intro sh g
    simp only [Mempool.addTxOutputs]
    rw [hout.mem_hashXTxs, h.content.mem_hashXTxs]
    constructor
    · rintro (⟨q, hq, htouch⟩ | ⟨hpays, rfl⟩)
      · exact ⟨q, Pool.put_eq_some.mpr (.inr ⟨hne g q hq, hq⟩),
          ((hagree g q hq).touches sh).mp htouch⟩
      · exact ⟨_, Pool.put_self (nt.withVin []), (htouches sh).mpr hpays⟩
    · rintro ⟨q, hq, htouch⟩
      rcases Pool.put_eq_some.mp hq with ⟨hg, rfl⟩ | ⟨hg, hq⟩
      · exact .inr ⟨(htouches sh).mp htouch, hg⟩
      · exact .inl ⟨q, hq, ((hagree g q hq).touches sh).mpr htouch⟩
  · intro sh hsh
    simp only [Mempool.addTxOutputs] at hsh ⊢
    rw [hout.affected, not_or] at hsh
    rw [hout.unaffected sh hsh.2]
    exact h.unaffected sh hsh.1

end Mempool
end Shulcrum
