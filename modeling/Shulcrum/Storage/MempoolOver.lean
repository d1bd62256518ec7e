import Shulcrum.Mempool.NoDsps
import Shulcrum.Storage.History

/-!
# The mempool over a chain

A mempool is consistent with the database if it represents a pool of
transactions over the unspent outputs of the chain, and none of them is in the
chain.  What a query finds in the two is said here in terms of the blocks and
of the pool.

**Results.**
* `MempoolOver.mem_listed`: the transactions listed under a script hash.
* `MempoolOver.record`: the record of a transaction of the pool.
* `MempoolOver.spent_iff`: the confirmed outputs that the pool spends.
* `MempoolOver.exists_of_reachable`: there is such a mempool over every chain.
-/

namespace Shulcrum
namespace Storage

open Invariant TreeMap Flatten ChainIndex

/-- A run of valid blocks, with a mempool of the transactions of a pool over its outputs. -/
structure MempoolOver (H : Hashers) (opts : Options) (rpa : Bool) (P : Pool) (r : ChainRun) :
    Prop where
  run : Reachable ChainRun.Start (ChainStep H opts ValidBlock) r
  rep : Mempool.Rep H rpa P (fun txo => r.state.index.utxos.utxoset[txo]?) r.state.mempool.noDsps
  keyed : P.Keyed
  /-- No transaction of the chain is in the pool. -/
  new : ∀ e ∈ chainTxs r.blocks, P e.2.hash = none

namespace MempoolOver

variable {H : Hashers} {opts : Options} {rpa : Bool} {P : Pool} {r : ChainRun}

/-- The transactions that the mempool lists under a script hash. -/
def listed (s : State) (hx : HashX) : List TxHash := s.mempool.hashXTxs[hx]?.getD []

/-- What an unspent output of the database is. -/
def db (r : ChainRun) (txo : TXO) : Option TXOInfo := r.state.index.utxos.utxoset[txo]?

section Listed

variable {hx : HashX} {h : TxHash}

theorem mem_listed (hm : MempoolOver H opts rpa P r) :
    h ∈ listed r.state hx ↔ ∃ nt, P h = some nt ∧ P.Touches H (db r) nt hx :=
  hm.rep.mem_hashXTxs hx h

theorem nodup_listed (hm : MempoolOver H opts rpa P r) (hx : HashX) :
    (listed r.state hx).Nodup :=
  hm.rep.nodup_listed hx

/-- The record of a transaction of the pool. -/
theorem record (hm : MempoolOver H opts rpa P r) {nt : NewTx} (hP : P h = some nt) :
    ∃ tx, r.state.mempool.txs[h]? = some tx ∧ tx.hash = h ∧
      Mempool.TxRep H rpa P (db r) nt tx := by
  obtain ⟨tx, hget, hrep⟩ := hm.rep.present h nt hP
  exact ⟨tx, hget, hrep.hash.trans (hm.keyed h nt hP), hrep⟩

/-- A listed transaction is stored, and knows what it does with the script hash. -/
theorem listed_record (hm : MempoolOver H opts rpa P r) (hmem : h ∈ listed r.state hx) :
    ∃ nt tx, P h = some nt ∧ r.state.mempool.txs[h]? = some tx ∧ tx.hash = h ∧
      tx.hashXs[hx]? = some (tx.io hx) ∧ Mempool.TxRep H rpa P (db r) nt tx := by
  obtain ⟨nt, hP, htouch⟩ := hm.mem_listed.mp hmem
  obtain ⟨tx, hget, hhash, hrep⟩ := hm.record hP
  exact ⟨nt, tx, hP, hget, hhash, Tx.get_hashXs_of_mem ((hrep.mem_hashXs hx).mpr htouch), hrep⟩

/-- An output of the database is not one of the pool. -/
theorem not_mem_pool (hm : MempoolOver H opts rpa P r) {txo : TXO} {info : TXOInfo}
    (hget : db r txo = some info) : P txo.txHash = none := by
  obtain ⟨⟨txNum, height, tx, out, hx, hchain, hhash, -⟩, -⟩ :=
    ((utxos_exact hm.run).utxo txo info).mp hget
  rw [← hhash]
  exact hm.new _ (List.mem_of_getElem? hchain)

/-- The pool spends a confirmed output of a script hash iff a listed transaction says so. -/
theorem spent_iff (hm : MempoolOver H opts rpa P r) {txo : TXO} {info : TXOInfo}
    (hget : db r txo = some info) :
    P.Spent txo ↔ ∃ h ∈ listed r.state info.hashX, ∃ tx, r.state.mempool.txs[h]? = some tx ∧
      txo ∈ (tx.io info.hashX).confirmedSpends := by
  have hnone := hm.not_mem_pool hget
  constructor
  · rintro ⟨h, nt, hP, hspend⟩
    obtain ⟨tx, htx, -, hrep⟩ := hm.record hP
    refine ⟨h, hm.mem_listed.mpr ⟨nt, hP, .inr ⟨txo, hspend, info, ?_, rfl⟩⟩, tx, htx, ?_⟩
    · rw [Pool.prevInfo, hnone]
      exact hget
    · exact mem_iff_getElem?.mpr ⟨info, (hrep.conf _ _ _).mpr ⟨hspend, hnone, hget, rfl⟩⟩
  · rintro ⟨h, hmem, tx, htx, hspend⟩
    obtain ⟨nt, tx', hP, htx', -, -, hrep⟩ := hm.listed_record hmem
    rw [htx] at htx'
    cases htx'
    obtain ⟨info', hget'⟩ := mem_iff_getElem?.mp hspend
    exact ⟨h, nt, hP, ((hrep.conf _ _ _).mp hget').1⟩

end Listed

/-- Transactions whose inputs are all there can be put into the mempool of a chain. -/
theorem exists_of_reachable (rpa : Bool)
    (h : Reachable ChainRun.Start (ChainStep H opts ValidBlock) r) {txs : List NewTx}
    (hnodup : (txs.map NewTx.hash).Nodup) (hres : (Pool.ofList txs).Resolved H (db r))
    (hnew : ∀ e ∈ chainTxs r.blocks, ∀ nt ∈ txs, nt.hash ≠ e.2.hash) :
    ∃ mp, MempoolOver H opts rpa (Pool.ofList txs)
      { r with state := { r.state with mempool := mp } } := by
  obtain ⟨mp, -, hrep⟩ := Mempool.rebuild rpa hnodup hres ∅
  refine ⟨mp.1, h.next (.mempool mp.1), ?_, Pool.keyed_ofList txs, fun e he => ?_⟩
  · have hdsps : mp.1.noDsps = mp.1 := by
      rw [Mempool.noDsps, ← hrep.dsps]
    rw [hdsps]
    exact hrep
  · by_contra hne
    obtain ⟨nt, hP⟩ := Option.ne_none_iff_exists'.mp hne
    obtain ⟨hmem, hhash⟩ := (Pool.ofList_eq_some hnodup).mp hP
    exact hnew e he nt hmem hhash

end MempoolOver

end Storage
end Shulcrum
