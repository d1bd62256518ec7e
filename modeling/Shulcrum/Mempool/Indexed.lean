import Shulcrum.Mempool.DspRun
import Shulcrum.Storage.Model

/-!
# The tables of a mempool point at each other

`Indexed` says how the tables of a mempool refer to each other, without saying
which transactions it should hold: a listed transaction is stored and touches
the script hash, a parent is stored and knows its child, a transaction with a
proof is stored.  Unlike `Rep` it needs nothing of the transactions, so it
holds whatever the node sends.

`Covers` compares two mempools: every script hash, txid and proof link that
differs is in one of three sets.

**Results.**
* `indexed_of_reachable`: the mempools of all runs of the operations are indexed.
* `Covers.trans`: changes of two operations are covered by both together.
-/

namespace Shulcrum

open BTC TreeMap DSPs

namespace Mempool

/-- The mempool part of `getHistory`. -/
def history (mp : Mempool) (sh : HashX) : List Storage.HistoryItem :=
  (mp.hashXTxs[sh]?.getD []).filterMap fun hash =>
    mp.txs[hash]?.map fun tx =>
      { hash := tx.hash
        height := if tx.hasUnconfirmedParents then -1 else 0
        fee := some tx.fee }

theorem unconfirmedHistory_eq_history (s : Storage.State) (sh : HashX) :
    Storage.unconfirmedHistory s (s.mempool.hashXTxs[sh]?.getD []) = s.mempool.history sh := rfl

/-- The tables refer to each other. -/
structure Indexed (mp : Mempool) : Prop where
  keyed : ∀ (h : TxHash) (tx : Tx), mp.txs[h]? = some tx → tx.hash = h
  listed : ∀ (sh : HashX) (h : TxHash), h ∈ mp.hashXTxs[sh]?.getD [] →
    ∃ tx, mp.txs[h]? = some tx ∧ sh ∈ tx.hashXs
  ne_nil : ∀ sh : HashX, mp.hashXTxs[sh]? ≠ some []
  parents : ∀ (c : TxHash) (tx : Tx), mp.txs[c]? = some tx → ∀ p ∈ tx.parents,
    ∃ ptx, mp.txs[p]? = some ptx ∧ c ∈ ptx.children
  linked : Linked mp.dsps
  proofs : ∀ (t : TxHash) (h : Hash), DSPs.Lists mp.dsps.txDspsMap t h → t ∈ mp.txs

theorem indexed_clear (mp : Mempool) : Indexed mp.clear where
  keyed h tx htx := by simp [clear] at htx
  listed sh h hh := by simp [clear] at hh
  ne_nil sh := by simp [clear]
  parents c tx htx := by simp [clear] at htx
  linked := linked_empty
  proofs t h := by simp [clear, DSPs.Lists]

/-- A mempool that represents a pool is indexed. -/
theorem DspClosed.indexed {H : Hashers} {rpa : Bool} {P : Pool} {db : TXO → Option TXOInfo}
    {mp : Mempool} (hd : DspClosed P mp.dsps) (h : Content H rpa P db mp.noDsps)
    (hkeyed : P.Keyed) : Indexed mp := by
  have hget : ∀ (g : TxHash) (tx : Tx), mp.txs[g]? = some tx →
      ∃ nt, P g = some nt ∧ TxRep H rpa P db nt tx := by
    intro g tx htx
    cases hP : P g with
    | none =>
        have habs : mp.txs[g]? = none := h.absent g hP
        rw [habs] at htx
        cases htx
    | some nt =>
        obtain ⟨tx', htx', hrep⟩ := h.present g nt hP
        have heq : mp.txs[g]? = some tx' := htx'
        rw [heq, Option.some.injEq] at htx
        exact ⟨nt, rfl, htx ▸ hrep⟩
  refine ⟨?_, ?_, h.ne_nil, ?_, hd.linked, ?_⟩
  · intro g tx htx
    obtain ⟨nt, hP, hrep⟩ := hget g tx htx
    rw [hrep.hash, hkeyed g nt hP]
  · intro sh g hg
    obtain ⟨nt, hP, htouch⟩ := (h.mem_hashXTxs sh g).mp hg
    obtain ⟨tx, htx, hrep⟩ := h.present g nt hP
    exact ⟨tx, htx, (hrep.mem_hashXs sh).mpr htouch⟩
  · intro c tx htx p hp
    obtain ⟨nt, hP, hrep⟩ := hget c tx htx
    obtain ⟨hPp, txo, htxo, rfl⟩ := (hrep.parents p).mp hp
    obtain ⟨q, hq⟩ := Option.ne_none_iff_exists'.mp hPp
    obtain ⟨ptx, hptx, hprep⟩ := h.present _ q hq
    refine ⟨ptx, hptx, (hprep.children c).mpr ⟨nt, hP, txo, htxo, ?_⟩⟩
    rw [hkeyed _ q hq]
  · intro t k hl
    obtain ⟨q, hq⟩ := Option.ne_none_iff_exists'.mp (hd.mem_of_lists hl)
    obtain ⟨tx, htx, -⟩ := h.present t q hq
    exact mem_iff_getElem?.mpr ⟨tx, htx⟩

/-- The mempools of all runs of the operations are indexed. -/
theorem indexed_of_reachable {H : Hashers} {rpa : Bool} {s : RunState}
    (h : Invariant.Reachable (RunState.Start rpa) (DspStep H) s) : Indexed s.mp := by
  have hinv := runInv_of_dspReachable h
  exact (dspClosed_of_reachable h).indexed hinv.rep.toContent (Pool.keyed_ofList s.txs)

/-- Every difference between the mempools is in one of the sets. -/
structure Covers (scriptHashes txids dspTxs : HashSet) (mp mp' : Mempool) : Prop where
  history : ∀ sh ∉ scriptHashes, mp'.history sh = mp.history sh
  txids : ∀ h ∉ txids, (h ∈ mp'.txs ↔ h ∈ mp.txs)
  dsps : ∀ t ∉ dspTxs, mp'.dsps.dspHashesForTx t = mp.dsps.dspHashesForTx t

theorem Covers.refl (scriptHashes txids dspTxs : HashSet) (mp : Mempool) :
    Covers scriptHashes txids dspTxs mp mp :=
  ⟨fun _ _ => rfl, fun _ _ => Iff.rfl, fun _ _ => rfl⟩

/-- The sets may be larger. -/
theorem Covers.mono {S S' T T' D D' : HashSet} {mp mp' : Mempool} (h : Covers S T D mp mp')
    (hS : ∀ a ∈ S, a ∈ S') (hT : ∀ a ∈ T, a ∈ T') (hD : ∀ a ∈ D, a ∈ D') :
    Covers S' T' D' mp mp' :=
  ⟨fun sh hsh => h.history sh fun hm => hsh (hS sh hm),
    fun t ht => h.txids t fun hm => ht (hT t hm),
    fun t ht => h.dsps t fun hm => ht (hD t hm)⟩

theorem Covers.trans {S T D : HashSet} {mp mp' mp'' : Mempool} (h : Covers S T D mp mp')
    (h' : Covers S T D mp' mp'') : Covers S T D mp mp'' :=
  ⟨fun sh hsh => (h'.history sh hsh).trans (h.history sh hsh),
    fun t ht => (h'.txids t ht).trans (h.txids t ht),
    fun t ht => (h'.dsps t ht).trans (h.dsps t ht)⟩

/-- An entry of a history is the same if the record is the same to a client. -/
structure SameEntry (tx tx' : Tx) : Prop where
  hash : tx'.hash = tx.hash
  fee : tx'.fee = tx.fee
  parents : tx'.parents = tx.parents

theorem SameEntry.trans {tx tx' tx'' : Tx} (h : SameEntry tx tx') (h' : SameEntry tx' tx'') :
    SameEntry tx tx'' :=
  ⟨h'.hash.trans h.hash, h'.fee.trans h.fee, h'.parents.trans h.parents⟩

/-- The history is the same if the vector is, and what it says of every transaction. -/
theorem history_congr {mp mp' : Mempool} {sh : HashX}
    (hvec : mp'.hashXTxs[sh]? = mp.hashXTxs[sh]?)
    (hrec : ∀ h ∈ mp.hashXTxs[sh]?.getD [], ∃ tx tx', mp.txs[h]? = some tx ∧
      mp'.txs[h]? = some tx' ∧ tx'.hash = tx.hash ∧ tx'.fee = tx.fee ∧
        tx'.hasUnconfirmedParents = tx.hasUnconfirmedParents) :
    mp'.history sh = mp.history sh := by
  unfold history
  rw [hvec]
  refine List.filterMap_congr fun h hh => ?_
  obtain ⟨tx, tx', htx, htx', hhash, hfee, hflag⟩ := hrec h hh
  rw [htx, htx', Option.map_some, Option.map_some, hhash, hfee, hflag]

/-- The history is the same if the vector is and its records are. -/
theorem history_eq {mp mp' : Mempool} {sh : HashX} (hvec : mp'.hashXTxs[sh]? = mp.hashXTxs[sh]?)
    (hrec : ∀ h ∈ mp.hashXTxs[sh]?.getD [], ∃ tx tx', mp.txs[h]? = some tx ∧
      mp'.txs[h]? = some tx' ∧ SameEntry tx tx') : mp'.history sh = mp.history sh := by
  refine history_congr hvec fun h hh => ?_
  obtain ⟨tx, tx', htx, htx', hsame⟩ := hrec h hh
  refine ⟨tx, tx', htx, htx', hsame.hash, hsame.fee, ?_⟩
  rw [Tx.hasUnconfirmedParents, Tx.hasUnconfirmedParents, hsame.parents]

/-- An empty mempool has no histories and no proofs. -/
theorem Indexed.covers_clear_of_empty {mp : Mempool} (h : Indexed mp)
    (hempty : mp.txs.isEmpty = true) (S T D : HashSet) : Covers S T D mp mp.clear := by
  have hnone : ∀ t, t ∉ mp.txs := by
    rw [Std.ExtTreeMap.isEmpty_iff] at hempty
    simp [hempty]
  have hlist : ∀ sh : HashX, mp.hashXTxs[sh]?.getD [] = [] := by
    intro sh
    rw [List.eq_nil_iff_forall_not_mem]
    intro g hg
    obtain ⟨tx, htx, -⟩ := h.listed sh g hg
    exact hnone g (mem_iff_getElem?.mpr ⟨tx, htx⟩)
  refine ⟨?_, ?_, ?_⟩
  · intro sh _
    simp [history, hlist, clear]
  · intro t _
    simp [hnone, clear]
  · intro t _
    refine get_eq_of_lists_iff linked_empty.noEmpty h.linked.noEmpty fun k => ?_
    have hno : ¬ DSPs.Lists mp.dsps.txDspsMap t k := fun hl => hnone t (h.proofs t k hl)
    simp only [hno, iff_false]
    simp [DSPs.Lists]

end Mempool
end Shulcrum
