import Shulcrum.Lib.TreeMap
import Shulcrum.Mempool.Model

/-!
# What a mempool represents

The abstract mempool is a set of transactions, the `Pool`, over the set `db` of
confirmed unspent outputs.  `Rep` says that a concrete mempool represents a
pool: every component is described by what the transactions of the pool spend
and create, without reference to how it was built.

**Results.**
* `Rep.unique`: a pool is represented by at most one mempool.
* `isOrder_txRefLe`: `TxRefOrdering` is a linear order of the ids.
-/

namespace Shulcrum

open BTC SortUnique TreeMap

/-- A set of transactions by id. -/
abbrev Pool := TxHash → Option NewTx

namespace NewTx

variable (H : Hashers)

/-- The outputs a transaction spends. -/
def prevouts (nt : NewTx) : List TXO := nt.ctx.vin.map CTxIn.prevout

/-- The entries of `txos`. -/
def outInfos (nt : NewTx) : List (Option TXOInfo) := nt.ctx.vout.map (Mempool.outInfo H)

/-- The valid output with a given number. -/
def outAt (nt : NewTx) (n : Nat) : Option TXOInfo := (nt.outInfos H)[n]?.join

/-- The prefixes of the indexed inputs. -/
def rpaPrefixes (nt : NewTx) : List UInt16 :=
  (nt.ctx.vin.take rpaInputIndexLimit).map H.rpaPrefix

/-- The sum of all output values. -/
def outSum (nt : NewTx) : Nat := (nt.ctx.vout.map CTxOut.nValue).sum

end NewTx

namespace Pool

variable (H : Hashers) (P : Pool) (db : TXO → Option TXOInfo)

/-- The output a spend refers to: one of the pool, else a confirmed one. -/
def prevInfo (txo : TXO) : Option TXOInfo :=
  match P txo.txHash with
  | some p => p.outAt H txo.outN
  | none => db txo

/-- Some transaction of the pool spends the output. -/
def Spent (txo : TXO) : Prop := ∃ h q, P h = some q ∧ txo ∈ q.prevouts

/-- The transaction `child` of the pool spends an output of `parent`. -/
def Spends (child parent : TxHash) : Prop :=
  ∃ q, P child = some q ∧ ∃ txo ∈ q.prevouts, txo.txHash = parent

/-- The transaction has an output to the script hash or spends one. -/
def Touches (nt : NewTx) (sh : HashX) : Prop :=
  (∃ n info, nt.outAt H n = some info ∧ info.hashX = sh) ∨
    ∃ txo ∈ nt.prevouts, ∃ info, P.prevInfo H db txo = some info ∧ info.hashX = sh

/-- The sum of the values of all inputs. -/
def inSum (nt : NewTx) : Nat :=
  (nt.prevouts.map fun txo => ((P.prevInfo H db txo).map TXOInfo.amount).getD 0).sum

/-- Transactions are filed under their own id. -/
def Keyed : Prop := ∀ h nt, P h = some nt → nt.hash = h

/-- Every input refers to an output of the pool or of the database. -/
def Resolved : Prop :=
  ∀ h nt, P h = some nt → ∀ txo ∈ nt.prevouts, ∃ info, P.prevInfo H db txo = some info

/-- No output is spent by two transactions of the pool. -/
def NoDoubleSpend : Prop :=
  ∀ h q h' q' txo, P h = some q → P h' = some q' → txo ∈ q.prevouts → txo ∈ q'.prevouts → h = h'

end Pool

namespace Mempool

variable (H : Hashers) (rpa : Bool) (P : Pool) (db : TXO → Option TXOInfo)

/-- The record of a transaction of the pool, apart from its parents. -/
structure TxCore (nt : NewTx) (tx : Tx) : Prop where
  hash : tx.hash = nt.hash
  sizeBytes : tx.sizeBytes = nt.sizeBytes
  vsizeBytes : tx.vsizeBytes = nt.vsizeBytes
  txos : tx.txos = nt.outInfos H
  fee : tx.fee = (P.inSum H db nt : Int) - nt.outSum
  mem_hashXs : ∀ sh, sh ∈ tx.hashXs ↔ P.Touches H db nt sh
  conf : ∀ sh txo info, (tx.io sh).confirmedSpends[txo]? = some info ↔
    txo ∈ nt.prevouts ∧ P txo.txHash = none ∧ db txo = some info ∧ info.hashX = sh
  unconf : ∀ sh txo info, (tx.io sh).unconfirmedSpends[txo]? = some info ↔
    txo ∈ nt.prevouts ∧ (∃ p, P txo.txHash = some p ∧ p.outAt H txo.outN = some info) ∧
      info.hashX = sh
  utxo : ∀ sh n, n ∈ (tx.io sh).utxo ↔
    (∃ info, nt.outAt H n = some info ∧ info.hashX = sh) ∧ ¬ P.Spent ⟨nt.hash, n⟩
  children : ∀ c, c ∈ tx.children ↔ P.Spends c nt.hash
  rpaNone : tx.optRpaPrefixSet = none ↔ rpa = false ∨ nt.ctx.vin = []
  rpaSome : ∀ s, tx.optRpaPrefixSet = some s → ∀ p, p ∈ s ↔ p ∈ nt.rpaPrefixes H

/-- The record of a transaction of the pool. -/
structure TxRep (nt : NewTx) (tx : Tx) : Prop extends TxCore H rpa P db nt tx where
  parents : ∀ p, p ∈ tx.parents ↔ P p ≠ none ∧ ∃ txo ∈ nt.prevouts, txo.txHash = p

/-- The prefix table lists the prefixes of the transactions of the pool. -/
def TableRep (table : Option MempoolPrefixTable) : Prop :=
  (rpa = false → table = none) ∧
    (rpa = true → ∃ t, table = some t ∧
      ∀ p h, (p, h) ∈ t ↔ ∃ nt, P h = some nt ∧ p ∈ nt.rpaPrefixes H)

/-- The mempool represents the pool, up to the order within `hashXTxs`. -/
structure Content (mp : Mempool) : Prop where
  absent : ∀ h, P h = none → mp.txs[h]? = none
  present : ∀ h nt, P h = some nt → ∃ tx, mp.txs[h]? = some tx ∧ TxRep H rpa P db nt tx
  mem_hashXTxs : ∀ (sh : HashX) (h : TxHash), h ∈ mp.hashXTxs[sh]?.getD [] ↔
    ∃ nt, P h = some nt ∧ P.Touches H db nt sh
  ne_nil : ∀ sh : HashX, mp.hashXTxs[sh]? ≠ some []
  table : TableRep H rpa P mp.optPrefixTable
  dsps : mp.dsps = {}

/-- The vectors of `hashXTxs` are strictly increasing in `TxRefOrdering`. -/
def Sorted (mp : Mempool) : Prop :=
  ∀ (sh : HashX) (v : List TxHash), mp.hashXTxs[sh]? = some v →
    v.Pairwise fun a b => txRefLe mp.txs a b = true ∧ a ≠ b

/-- The mempool represents the pool. -/
structure Rep (mp : Mempool) : Prop extends Content H rpa P db mp where
  sorted : Sorted mp

end Mempool

theorem isOrder_txRefLe (txs : TxMap) : IsOrder (txRefLe txs) where
  trans a b c := by
    simp only [txRefLe]
    generalize txs[a]?.any Tx.hasUnconfirmedParents = x
    generalize txs[b]?.any Tx.hasUnconfirmedParents = y
    generalize txs[c]?.any Tx.hasUnconfirmedParents = z
    have htrans : a ≤ b → b ≤ c → a ≤ c := BitVec.le_trans
    cases x <;> cases y <;> cases z <;> simp <;> exact htrans
  total a b := by
    simp only [txRefLe]
    generalize txs[a]?.any Tx.hasUnconfirmedParents = x
    generalize txs[b]?.any Tx.hasUnconfirmedParents = y
    have htotal : a ≤ b ∨ b ≤ a := BitVec.le_total a b
    cases x <;> cases y <;> simp [htotal]
  antisymm a b := by
    simp only [txRefLe]
    generalize txs[a]?.any Tx.hasUnconfirmedParents = x
    generalize txs[b]?.any Tx.hasUnconfirmedParents = y
    have hanti : a ≤ b → b ≤ a → a = b := fun h₁ h₂ => BitVec.le_antisymm h₁ h₂
    cases x <;> cases y <;> simp <;> exact hanti

namespace Tx

theorem io_of_not_mem {tx : Tx} {sh : HashX} (h : sh ∉ tx.hashXs) : tx.io sh = {} := by
  rw [io, not_mem_iff_getElem?.mp h]
  rfl

theorem get_hashXs_of_mem {tx : Tx} {sh : HashX} (h : sh ∈ tx.hashXs) :
    tx.hashXs[sh]? = some (tx.io sh) := by
  obtain ⟨io, hio⟩ := mem_iff_getElem?.mp h
  rw [Tx.io, hio]
  rfl

/-- The entries of `hashXs` are determined by their keys and by `io`. -/
theorem hashXs_ext {tx₁ tx₂ : Tx} (hmem : ∀ sh, sh ∈ tx₁.hashXs ↔ sh ∈ tx₂.hashXs)
    (hio : ∀ sh, tx₁.io sh = tx₂.io sh) : tx₁.hashXs = tx₂.hashXs := by
  apply Std.ExtTreeMap.ext_getElem?
  intro sh
  by_cases h : sh ∈ tx₁.hashXs
  · rw [get_hashXs_of_mem h, get_hashXs_of_mem ((hmem sh).mp h), hio]
  · rw [not_mem_iff_getElem?.mp h, not_mem_iff_getElem?.mp (fun h' => h ((hmem sh).mpr h'))]

end Tx

theorem IOInfo.ext_mem {io₁ io₂ : IOInfo}
    (hconf : ∀ (txo : TXO) info, io₁.confirmedSpends[txo]? = some info ↔
      io₂.confirmedSpends[txo]? = some info)
    (hunconf : ∀ (txo : TXO) info, io₁.unconfirmedSpends[txo]? = some info ↔
      io₂.unconfirmedSpends[txo]? = some info)
    (hutxo : ∀ n, n ∈ io₁.utxo ↔ n ∈ io₂.utxo) : io₁ = io₂ := by
  obtain ⟨c₁, u₁, x₁⟩ := io₁
  obtain ⟨c₂, u₂, x₂⟩ := io₂
  have hc : c₁ = c₂ := Std.ExtTreeMap.ext_getElem? fun txo => Option.ext (hconf txo)
  have hu : u₁ = u₂ := Std.ExtTreeMap.ext_getElem? fun txo => Option.ext (hunconf txo)
  have hx : x₁ = x₂ := Std.ExtTreeSet.ext_mem hutxo
  rw [hc, hu, hx]

namespace Mempool

variable {H : Hashers} {rpa : Bool} {P : Pool} {db : TXO → Option TXOInfo}

theorem TxRep.rpa_unique {nt : NewTx} {tx₁ tx₂ : Tx} (h₁ : TxRep H rpa P db nt tx₁)
    (h₂ : TxRep H rpa P db nt tx₂) : tx₁.optRpaPrefixSet = tx₂.optRpaPrefixSet := by
  cases hs₁ : tx₁.optRpaPrefixSet with
  | none => exact (h₂.rpaNone.mpr (h₁.rpaNone.mp hs₁)).symm
  | some s₁ =>
      cases hs₂ : tx₂.optRpaPrefixSet with
      | none =>
          have := h₁.rpaNone.mpr (h₂.rpaNone.mp hs₂)
          rw [hs₁] at this
          cases this
      | some s₂ =>
          rw [Option.some.injEq]
          apply Std.ExtTreeSet.ext_mem
          intro p
          rw [h₁.rpaSome s₁ hs₁, h₂.rpaSome s₂ hs₂]

/-- The record of a transaction is determined by the pool. -/
theorem TxRep.unique {nt : NewTx} {tx₁ tx₂ : Tx} (h₁ : TxRep H rpa P db nt tx₁)
    (h₂ : TxRep H rpa P db nt tx₂) : tx₁ = tx₂ := by
  have hhashXs : tx₁.hashXs = tx₂.hashXs := by
    apply Tx.hashXs_ext
    · intro sh
      rw [h₁.mem_hashXs, h₂.mem_hashXs]
    · intro sh
      apply IOInfo.ext_mem
      · intro txo info
        rw [h₁.conf, h₂.conf]
      · intro txo info
        rw [h₁.unconf, h₂.unconf]
      · intro n
        rw [h₁.utxo, h₂.utxo]
  have hparents : tx₁.parents = tx₂.parents := by
    apply Std.ExtTreeSet.ext_mem
    intro p
    rw [h₁.parents, h₂.parents]
  have hchildren : tx₁.children = tx₂.children := by
    apply Std.ExtTreeSet.ext_mem
    intro c
    rw [h₁.children, h₂.children]
  have hrpa := h₁.rpa_unique h₂
  cases tx₁
  cases tx₂
  simp only [Tx.mk.injEq]
  exact ⟨h₁.hash.trans h₂.hash.symm, h₁.sizeBytes.trans h₂.sizeBytes.symm,
    h₁.vsizeBytes.trans h₂.vsizeBytes.symm, h₁.fee.trans h₂.fee.symm,
    h₁.txos.trans h₂.txos.symm, hhashXs, hrpa, hparents, hchildren⟩

theorem TableRep.unique {t₁ t₂ : Option MempoolPrefixTable} (h₁ : TableRep H rpa P t₁)
    (h₂ : TableRep H rpa P t₂) : t₁ = t₂ := by
  cases rpa with
  | false => rw [h₁.1 rfl, h₂.1 rfl]
  | true =>
      obtain ⟨s₁, rfl, hs₁⟩ := h₁.2 rfl
      obtain ⟨s₂, rfl, hs₂⟩ := h₂.2 rfl
      congr 1
      ext ⟨p, h⟩
      rw [hs₁, hs₂]

theorem Content.txs_unique {mp₁ mp₂ : Mempool} (h₁ : Content H rpa P db mp₁)
    (h₂ : Content H rpa P db mp₂) : mp₁.txs = mp₂.txs := by
  apply Std.ExtTreeMap.ext_getElem?
  intro h
  cases hP : P h with
  | none => rw [h₁.absent h hP, h₂.absent h hP]
  | some nt =>
      obtain ⟨tx₁, hget₁, hrep₁⟩ := h₁.present h nt hP
      obtain ⟨tx₂, hget₂, hrep₂⟩ := h₂.present h nt hP
      rw [hget₁, hget₂, hrep₁.unique hrep₂]

/-- The vector of a script hash is determined by the pool and the order. -/
theorem Rep.hashXTxs_unique {mp₁ mp₂ : Mempool} (h₁ : Rep H rpa P db mp₁)
    (h₂ : Rep H rpa P db mp₂) : mp₁.hashXTxs = mp₂.hashXTxs := by
  have htxs := h₁.toContent.txs_unique h₂.toContent
  apply Std.ExtTreeMap.ext_getElem?
  intro sh
  have hmem : ∀ h, h ∈ mp₁.hashXTxs[sh]?.getD [] ↔ h ∈ mp₂.hashXTxs[sh]?.getD [] := by
    intro h
    rw [h₁.mem_hashXTxs, h₂.mem_hashXTxs]
  have hne₁ := h₁.ne_nil sh
  have hne₂ := h₂.ne_nil sh
  cases hv₁ : mp₁.hashXTxs[sh]? with
  | none =>
      cases hv₂ : mp₂.hashXTxs[sh]? with
      | none => rfl
      | some v₂ =>
          have hnil : v₂ = [] := by
            rw [List.eq_nil_iff_forall_not_mem]
            intro h hh
            have := (hmem h).mpr (by rw [hv₂]; exact hh)
            simp [hv₁] at this
          rw [hv₂, hnil] at hne₂
          exact absurd rfl hne₂
  | some v₁ =>
      cases hv₂ : mp₂.hashXTxs[sh]? with
      | none =>
          have hnil : v₁ = [] := by
            rw [List.eq_nil_iff_forall_not_mem]
            intro h hh
            have := (hmem h).mp (by rw [hv₁]; exact hh)
            simp [hv₂] at this
          rw [hv₁, hnil] at hne₁
          exact absurd rfl hne₁
      | some v₂ =>
          have hs₁ := h₁.sorted sh v₁ hv₁
          have hs₂ := h₂.sorted sh v₂ hv₂
          rw [← htxs] at hs₂
          rw [hv₁, hv₂] at hmem
          rw [eq_of_strict (isOrder_txRefLe _) hs₁ hs₂ hmem]

/-- A pool is represented by at most one mempool. -/
theorem Rep.unique {mp₁ mp₂ : Mempool} (h₁ : Rep H rpa P db mp₁) (h₂ : Rep H rpa P db mp₂) :
    mp₁ = mp₂ := by
  have htxs := h₁.toContent.txs_unique h₂.toContent
  have hhashXTxs := h₁.hashXTxs_unique h₂
  have htable := h₁.table.unique h₂.table
  have hdsps : mp₁.dsps = mp₂.dsps := h₁.dsps.trans h₂.dsps.symm
  cases mp₁
  cases mp₂
  simp only [Mempool.mk.injEq]
  exact ⟨htxs, hhashXTxs, htable, hdsps⟩

end Mempool
end Shulcrum
