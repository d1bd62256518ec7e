import Shulcrum.Storage.ListUnspent

/-!
# The limit on the length of answers

`getHistory` and `listUnspent` count what they find, and throw when the count
is over `maxHistory`.  The answer is then what was collected before.  Confirmed
entries that are too many by themselves are meant to give an empty answer, too
many of both kinds a truncated one.

**Results.**
* `getHistory_full`: a history in terms of the chain and the pool.
* `listUnspent_of_le`, `listUnspent_of_lt`: the unspent outputs, below and
  above the limit.
* `history_limit`: when the answers keep to the contract.
-/

namespace Shulcrum
namespace Storage

open Invariant TreeMap SortUnique Flatten ChainIndex MempoolOver

section Statements

/--
The contract of the limit `m`, for `c` confirmed and `u` unconfirmed entries that are counted
and answers that are complete if they have every `Entry`.
-/
structure LimitContract {α : Type} (m c u : Nat) (Entry : α → Prop) (l : List α) : Prop where
  empty : m < c → l = []
  complete : c + u ≤ m → l.Nodup ∧ ∀ e, e ∈ l ↔ Entry e
  part : c ≤ m → m < c + u → l.Nodup ∧ ∀ e ∈ l, Entry e

variable (H : Hashers) (P : Pool) (r : ChainRun) (hx : HashX)

/-- The entries of a history: the transactions of the chain that involve the script hash, and
those of the pool that touch it. -/
inductive HistoryEntry : HistoryItem → Prop
  | confirmed {n height : Nat} {tx : CTransaction} :
      (chainTxs r.blocks)[n]? = some (height, tx) → Involves H r.blocks hx n →
      HistoryEntry { hash := tx.hash, height := height }
  | unconfirmed {h : TxHash} {nt : NewTx} {tx : Tx} :
      P h = some nt → P.Touches H (db r) nt hx → r.state.mempool.txs[h]? = some tx →
      HistoryEntry
        { hash := h
          height := if tx.hasUnconfirmedParents then -1 else 0
          fee := some tx.fee }

/-- The unspent outputs: those of the chain that the pool does not spend, and those of the pool
that it does not spend itself. -/
inductive UnspentEntry : UnspentItem → Prop
  | confirmed {txo : TXO} {info : TXOInfo} {height : Nat} :
      db r txo = some info → info.hashX = hx → ¬ P.Spent txo →
      info.confirmedHeight = some height →
      UnspentEntry
        { hash := txo.txHash
          height := height
          txPos := txo.outN
          value := info.amount
          txNum := info.txNum
          tokenDataPtr := info.tokenDataPtr }
  | unconfirmed {h : TxHash} {nt : NewTx} {tx : Tx} {n : Nat} {info : TXOInfo} :
      P h = some nt → r.state.mempool.txs[h]? = some tx → nt.outAt H n = some info →
      info.hashX = hx → ¬ P.Spent ⟨h, n⟩ →
      UnspentEntry
        { hash := h
          height := 0
          fee := some tx.fee
          txPos := n
          value := info.amount
          txNum := fudgedTxNum r.state tx
          tokenDataPtr := info.tokenDataPtr }

/-- The first of the counts that is not zero is over the limit, if there is one. -/
def FirstOverflows (m : Nat) (counts : List Nat) : Prop :=
  ∀ k, counts.find? (fun k => decide (0 < k)) = some k → m < k

end Statements

section History

variable {H : Hashers} {opts : Options} {rpa : Bool} {P : Pool} {r : ChainRun} {hx : HashX}

/-- The item of a number in the chain. -/
theorem historyItem_eq_some {blocks : List CBlock} {n : Nat} {item : HistoryItem} :
    historyItem blocks 0 none n = some item ↔ ∃ height tx,
      (chainTxs blocks)[n]? = some (height, tx) ∧ item = { hash := tx.hash, height := height } := by
  rw [historyItem]
  cases hget : (chainTxs blocks)[n]? with
  | none => simp
  | some e =>
      obtain ⟨height, tx⟩ := e
      simp [eq_comm]

theorem nodup_confirmedItems {blocks : List CBlock} (hdist : DistinctIds blocks) {nums : List Nat}
    (hnums : nums.Pairwise (· < ·)) : (nums.filterMap (historyItem blocks 0 none)).Nodup := by
  refine List.Nodup.filterMap (fun n n' item hn hn' => ?_) (hnums.imp fun h => Nat.ne_of_lt h)
  obtain ⟨height, tx, hget, hitem⟩ := historyItem_eq_some.mp hn
  obtain ⟨height', tx', hget', hitem'⟩ := historyItem_eq_some.mp hn'
  have hhash : tx.hash = tx'.hash := by
    rw [hitem] at hitem'
    exact congrArg HistoryItem.hash hitem'
  have heq := hdist.eq_of_hash (List.mem_of_getElem? hget) (List.mem_of_getElem? hget') hhash
  rw [← heq] at hget'
  exact (List.getElem?_inj (List.getElem?_eq_some_iff.mp hget).1 (List.Nodup.of_map _ hdist)).mp
    (hget.trans hget'.symm)

/-- The unconfirmed part of a history. -/
theorem mem_unconfirmedHistory (hm : MempoolOver H opts rpa P r) {item : HistoryItem} :
    item ∈ unconfirmedHistory r.state (listed r.state hx) ↔ ∃ h nt tx, P h = some nt ∧
      P.Touches H (db r) nt hx ∧ r.state.mempool.txs[h]? = some tx ∧
        item =
          { hash := h
            height := if tx.hasUnconfirmedParents then -1 else 0
            fee := some tx.fee } := by
  rw [unconfirmedHistory, List.mem_filterMap]
  constructor
  · rintro ⟨h, hmem, hitem⟩
    obtain ⟨nt, hP, htouch⟩ := hm.mem_listed.mp hmem
    obtain ⟨tx, htx, rfl, -⟩ := hm.record hP
    rw [htx, Option.map_some, Option.some.injEq] at hitem
    exact ⟨tx.hash, nt, tx, hP, htouch, htx, hitem.symm⟩
  · rintro ⟨h, nt, tx, hP, htouch, htx, rfl⟩
    obtain ⟨tx', htx', rfl, -⟩ := hm.record hP
    rw [htx, Option.some.injEq] at htx'
    subst htx'
    refine ⟨tx.hash, hm.mem_listed.mpr ⟨nt, hP, htouch⟩, ?_⟩
    rw [htx, Option.map_some]

theorem nodup_unconfirmedHistory (hm : MempoolOver H opts rpa P r) :
    (unconfirmedHistory r.state (listed r.state hx)).Nodup := by
  refine List.Nodup.filterMap (fun h h' item hh hh' => ?_) (hm.nodup_listed hx)
  obtain ⟨tx, htx, rfl⟩ := Option.map_eq_some_iff.mp hh
  obtain ⟨tx', htx', heq⟩ := Option.map_eq_some_iff.mp hh'
  have hhash : ∀ {g : TxHash} {gtx : Tx}, r.state.mempool.txs[g]? = some gtx → gtx.hash = g := by
    intro g gtx hget
    obtain ⟨nt, hP⟩ : ∃ nt, P g = some nt := by
      cases hP : P g with
      | none =>
          have habsent := hm.rep.absent g hP
          exact absurd (hget.symm.trans habsent) (by simp)
      | some nt => exact ⟨nt, rfl⟩
    obtain ⟨gtx', hget', hg, -⟩ := hm.record hP
    rw [hget, Option.some.injEq] at hget'
    rw [hget']
    exact hg
  rw [← hhash htx, ← hhash htx']
  exact (congrArg HistoryItem.hash heq).symm

/-- A history with both parts, below and above the limit. -/
theorem getHistory_full (hm : MempoolOver H opts rpa P r) (limits : Options) :
    getHistory limits r.state hx true true 0 none =
      if limits.maxHistory < (r.state.index.shist[hx]?.getD []).length then []
      else if limits.maxHistory < (r.state.index.shist[hx]?.getD []).length +
          (listed r.state hx).length then
        (r.state.index.shist[hx]?.getD []).filterMap (historyItem r.blocks 0 none)
      else (r.state.index.shist[hx]?.getD []).filterMap (historyItem r.blocks 0 none) ++
        unconfirmedHistory r.state (listed r.state hx) := by
  obtain ⟨hans, -⟩ := histories_of_reachable hm.run
  have hconf : confirmedHistory r.state 0 none (r.state.index.shist[hx]?.getD []) =
      ((r.state.index.shist[hx]?.getD []).filterMap (historyItem r.blocks 0 none), true) :=
    hans.confirmedHistory_eq (hans.numbered.wellFormed.history hx).1 (hans.lt_length hx)
  simp only [getHistory, if_true, incrementCtr, Nat.zero_add, listed]
  by_cases hc : limits.maxHistory < (r.state.index.shist[hx]?.getD []).length
  · rw [if_pos hc, if_pos hc]
  · rw [if_neg hc, if_neg hc]
    by_cases hu : limits.maxHistory < (r.state.index.shist[hx]?.getD []).length +
        (r.state.mempool.hashXTxs[hx]?.getD []).length
    · simp only [hconf, and_self, if_true, gt_iff_lt, if_pos hu]
      exact (if_pos hu).symm
    · simp only [hconf, and_self, if_true, gt_iff_lt, if_neg hu]
      exact (if_neg hu).symm

/-- `getHistory` keeps to the contract. -/
theorem getHistory_limit (hm : MempoolOver H opts rpa P r) (limits : Options) :
    LimitContract limits.maxHistory (r.state.index.shist[hx]?.getD []).length
      (listed r.state hx).length (HistoryEntry H P r hx)
      (getHistory limits r.state hx true true 0 none) := by
  obtain ⟨hans, hhist⟩ := histories_of_reachable hm.run
  have hnodup := nodup_confirmedItems (distinctIds_of_reachable hm.run)
    (hans.numbered.wellFormed.history hx).1
  have hmem : ∀ item, item ∈ (r.state.index.shist[hx]?.getD []).filterMap
      (historyItem r.blocks 0 none) ↔ ∃ (n height : Nat) (tx : CTransaction),
        (chainTxs r.blocks)[n]? = some (height, tx) ∧ Involves H r.blocks hx n ∧
          item = { hash := tx.hash, height := height } := by
    intro item
    simp only [List.mem_filterMap, historyItem_eq_some, hhist hx]
    tauto
  rw [getHistory_full hm]
  refine ⟨fun hc => if_pos hc, fun hle => ?_, fun hc hu => ?_⟩
  · rw [if_neg (by omega), if_neg (by omega)]
    constructor
    · refine List.Nodup.append hnodup (nodup_unconfirmedHistory hm) ?_
      intro item hconf hunconf
      obtain ⟨n, height, tx, -, -, rfl⟩ := (hmem item).mp hconf
      obtain ⟨h, nt, mtx, -, -, -, heq⟩ := (mem_unconfirmedHistory hm).mp hunconf
      exact absurd (congrArg HistoryItem.fee heq) nofun
    · intro item
      rw [List.mem_append, hmem, mem_unconfirmedHistory hm]
      constructor
      · rintro (⟨n, height, tx, hget, hinv, rfl⟩ | ⟨h, nt, tx, hP, htouch, htx, rfl⟩)
        · exact .confirmed hget hinv
        · exact .unconfirmed hP htouch htx
      · rintro (⟨hget, hinv⟩ | ⟨hP, htouch, htx⟩)
        · exact .inl ⟨_, _, _, hget, hinv, rfl⟩
        · exact .inr ⟨_, _, _, hP, htouch, htx, rfl⟩
  · rw [if_neg (by omega), if_pos hu]
    refine ⟨hnodup, fun item hitem => ?_⟩
    obtain ⟨n, height, tx, hget, hinv, rfl⟩ := (hmem item).mp hitem
    exact .confirmed hget hinv

end History

section Unspent

variable {H : Hashers} {opts : Options} {rpa : Bool} {P : Pool} {r : ChainRun} {hx : HashX}

/-- The items of a listed transaction are its outputs to the script hash that nothing in the pool
spends, and it counts them all. -/
theorem mem_unspentItems (hm : MempoolOver H opts rpa P r) {h : TxHash}
    (hmem : h ∈ listed r.state hx) {item : UnspentItem} :
    item ∈ unspentItems r.state hx h ↔ ∃ nt tx n info, P h = some nt ∧
      r.state.mempool.txs[h]? = some tx ∧ nt.outAt H n = some info ∧ info.hashX = hx ∧
        ¬ P.Spent ⟨h, n⟩ ∧
        item =
          { hash := h
            height := 0
            fee := some tx.fee
            txPos := n
            value := info.amount
            txNum := fudgedTxNum r.state tx
            tokenDataPtr := info.tokenDataPtr } := by
  obtain ⟨nt, tx, hP, htx, hhash, -, hrep⟩ := hm.listed_record hmem
  have hkey := hm.keyed h nt hP
  have hitems : unspentItems r.state hx h =
      unspentOfTx r.state .includeTokens tx (tx.io hx) := by
    simp only [unspentItems, htx]
  have hout : ∀ n : Nat, tx.txos[n]?.join = nt.outAt H n := by
    intro n
    rw [hrep.txos, NewTx.outAt]
  have hutxo : ∀ n : Nat, n ∈ (tx.io hx).utxo.toList ↔
      (∃ info, nt.outAt H n = some info ∧ info.hashX = hx) ∧ ¬ P.Spent ⟨h, n⟩ := by
    intro n
    rw [Std.ExtTreeSet.mem_toList, hrep.utxo, hkey]
  rw [hitems, unspentOfTx, List.mem_filterMap]
  simp only [unspentItem_eq_some, hout, hutxo, hhash]
  constructor
  · rintro ⟨n, ⟨⟨info, hat, hinfo⟩, hunspent⟩, info', hat', rfl⟩
    rw [hat, Option.some.injEq] at hat'
    subst hat'
    exact ⟨nt, tx, n, info, hP, htx, hat, hinfo, hunspent, rfl⟩
  · rintro ⟨nt', tx', n, info, hP', htx', hat, hinfo, hunspent, rfl⟩
    rw [hP, Option.some.injEq] at hP'
    rw [htx, Option.some.injEq] at htx'
    subst hP' htx'
    exact ⟨n, ⟨⟨info, hat, hinfo⟩, hunspent⟩, info, hat, rfl⟩

/-- A listed transaction adds no items iff it adds nothing to the counter. -/
theorem unspentItems_eq_nil_iff (hm : MempoolOver H opts rpa P r) {h : TxHash}
    (hmem : h ∈ listed r.state hx) :
    unspentItems r.state hx h = [] ↔ utxoCount r.state hx h = 0 := by
  obtain ⟨nt, tx, hP, htx, -, -, hrep⟩ := hm.listed_record hmem
  have hcount : utxoCount r.state hx h = (tx.io hx).utxo.toList.length := by
    simp only [utxoCount, htx, Std.ExtTreeSet.length_toList]
  constructor
  · intro hnil
    rw [hcount, List.length_eq_zero_iff, List.eq_nil_iff_forall_not_mem]
    intro n hn
    rw [Std.ExtTreeSet.mem_toList, hrep.utxo, hm.keyed h nt hP] at hn
    obtain ⟨⟨info, hat, hinfo⟩, hunspent⟩ := hn
    have hitem := (mem_unspentItems hm hmem).mpr
      ⟨nt, tx, n, info, hP, htx, hat, hinfo, hunspent, rfl⟩
    rw [hnil] at hitem
    cases hitem
  · intro hzero
    rw [hcount, List.length_eq_zero_iff] at hzero
    simp only [unspentItems, htx, unspentOfTx, hzero, List.filterMap_nil]

/-- A transaction has no more unspent outputs than outputs. -/
theorem utxoCount_le (hm : MempoolOver H opts rpa P r) {h : TxHash} {nt : NewTx}
    (hP : P h = some nt) : utxoCount r.state hx h ≤ nt.ctx.vout.length := by
  obtain ⟨tx, htx, -, hrep⟩ := hm.record hP
  have hsub : (tx.io hx).utxo.toList ⊆ List.range nt.ctx.vout.length := by
    intro n hn
    rw [Std.ExtTreeSet.mem_toList, hrep.utxo] at hn
    obtain ⟨⟨info, hat, -⟩, -⟩ := hn
    rw [NewTx.outAt, NewTx.outInfos, List.getElem?_map, Option.join_eq_some_iff,
      Option.map_eq_some_iff] at hat
    obtain ⟨out, hout, -⟩ := hat
    exact List.mem_range.mpr (List.getElem?_eq_some_iff.mp hout).1
  have hle := ((nodup_set_toList (tx.io hx).utxo).subperm hsub).length_le
  rw [List.length_range, Std.ExtTreeSet.length_toList] at hle
  simpa only [utxoCount, htx] using hle

theorem nodup_unspentItems (h : TxHash) : (unspentItems r.state hx h).Nodup := by
  cases htx : r.state.mempool.txs[h]? with
  | none =>
      simp only [unspentItems, htx]
      exact List.nodup_nil
  | some tx =>
      simp only [unspentItems, htx, unspentOfTx]
      refine List.Nodup.filterMap (fun n n' item hn hn' => ?_) (nodup_set_toList _)
      -- the position in the item is the number of the output
      obtain ⟨info, -, rfl⟩ := unspentItem_eq_some.mp hn
      obtain ⟨info', -, heq⟩ := unspentItem_eq_some.mp hn'
      exact congrArg UnspentItem.txPos heq

/-- No item of the mempool is listed twice. -/
theorem nodup_unconfirmedItems (hm : MempoolOver H opts rpa P r) {txvec : List TxHash}
    (hnodup : txvec.Nodup) (hsub : ∀ h ∈ txvec, h ∈ listed r.state hx) :
    (txvec.flatMap (unspentItems r.state hx)).Nodup := by
  refine List.nodup_flatMap.mpr ⟨fun h _ => nodup_unspentItems h, ?_⟩
  refine hnodup.imp_of_mem fun {h h'} hh hh' hne item hitem hitem' => hne ?_
  obtain ⟨nt, tx, n, info, -, -, -, -, -, rfl⟩ := (mem_unspentItems hm (hsub h hh)).mp hitem
  obtain ⟨nt', tx', n', info', -, -, -, -, -, heq⟩ :=
    (mem_unspentItems hm (hsub h' hh')).mp hitem'
  exact congrArg (fun item => item.toHistoryItem.hash) heq

theorem mem_unconfirmedItems (hm : MempoolOver H opts rpa P r) {txvec : List TxHash}
    (hsub : ∀ h ∈ txvec, h ∈ listed r.state hx) {item : UnspentItem}
    (hitem : item ∈ txvec.flatMap (unspentItems r.state hx)) :
    UnspentEntry H P r hx item ∧ ∃ fee, item.fee = some fee := by
  obtain ⟨h, hh, hitem⟩ := List.mem_flatMap.mp hitem
  obtain ⟨nt, tx, n, info, hP, htx, hat, hinfo, hunspent, rfl⟩ :=
    (mem_unspentItems hm (hsub h hh)).mp hitem
  exact ⟨.unconfirmed hP htx hat hinfo hunspent, _, rfl⟩

/-! ### The rows of the database -/

/-- What a row of the script hash stands for. -/
structure RowOf (r : ChainRun) (hx : HashX) (row : ShunspentKey × SHUnspentValue) (txo : TXO)
    (info : TXOInfo) (height : Nat) : Prop where
  get : db r txo = some info
  hashX : info.hashX = hx
  confirmedHeight : info.confirmedHeight = some height
  row_eq : row = (⟨hx, ⟨info.txNum, txo.outN⟩⟩, ⟨info.amount, info.tokenDataPtr⟩)
  hashForTxNum : hashForTxNum r.state info.txNum = some txo.txHash
  heightForTxNum : heightForTxNum r.state info.txNum = some height

/-- A row stands for one output. -/
theorem RowOf.unique {row : ShunspentKey × SHUnspentValue} {txo txo' : TXO} {info info' : TXOInfo}
    {height height' : Nat} (h : RowOf r hx row txo info height)
    (h' : RowOf r hx row txo' info' height') : txo = txo' ∧ info = info' ∧ height = height' := by
  have hrow := h.row_eq.symm.trans h'.row_eq
  simp only [Prod.mk.injEq, ShunspentKey.mk.injEq, CompactTXO.mk.injEq, true_and] at hrow
  obtain ⟨⟨hnum, hout⟩, -⟩ := hrow
  have hhash := h'.hashForTxNum
  rw [← hnum, h.hashForTxNum, Option.some.injEq] at hhash
  have htxo : txo = txo' := by
    cases txo
    cases txo'
    simp only at hhash hout
    rw [hhash, hout]
  have hget := h'.get
  rw [← htxo, h.get, Option.some.injEq] at hget
  have hheight := h'.confirmedHeight
  rw [← hget, h.confirmedHeight, Option.some.injEq] at hheight
  exact ⟨htxo, hget, hheight⟩

theorem rowOf_of_get (hm : MempoolOver H opts rpa P r) {txo : TXO} {info : TXOInfo}
    (hget : db r txo = some info) : ∃ height,
      RowOf r info.hashX
        (⟨info.hashX, ⟨info.txNum, txo.outN⟩⟩, ⟨info.amount, info.tokenDataPtr⟩) txo info
        height := by
  have hex := utxos_exact hm.run
  obtain ⟨⟨txNum, height, tx, out, hx', hchain, hhash, hout, hlock, rfl⟩, -⟩ :=
    (hex.utxo txo info).mp hget
  obtain ⟨hans, -⟩ := histories_of_reachable hm.run
  exact ⟨height, hget, rfl, rfl, rfl, hex.txHash _ _ hget, hans.height hchain⟩

theorem exists_rowOf (hm : MempoolOver H opts rpa P r) {row : ShunspentKey × SHUnspentValue}
    (hrow : row ∈ unspentRows r.state hx) : ∃ txo info height, RowOf r hx row txo info height := by
  obtain ⟨hmem, hhx⟩ := List.mem_filter.mp hrow
  rw [decide_eq_true_eq] at hhx
  have hget := Std.ExtTreeMap.mem_toList_iff_getElem?_eq_some.mp hmem
  obtain ⟨txo, info, hinfo, hkey, hval⟩ := ((utxos_exact hm.run).unspent row.1 row.2).mp hget
  obtain ⟨height, hrowOf⟩ := rowOf_of_get hm hinfo
  rw [hkey] at hhx
  have hhash : info.hashX = hx := hhx
  rw [hhash] at hrowOf hkey
  have hrow' : row = (⟨hx, ⟨info.txNum, txo.outN⟩⟩, ⟨info.amount, info.tokenDataPtr⟩) :=
    Prod.ext hkey hval
  rw [hrow']
  exact ⟨txo, info, height, hrowOf⟩

theorem mem_unspentRows (hm : MempoolOver H opts rpa P r) {txo : TXO} {info : TXOInfo}
    (hget : db r txo = some info) :
    (⟨info.hashX, ⟨info.txNum, txo.outN⟩⟩, ⟨info.amount, info.tokenDataPtr⟩) ∈
      unspentRows r.state info.hashX := by
  refine List.mem_filter.mpr ⟨?_, decide_eq_true rfl⟩
  exact Std.ExtTreeMap.mem_toList_iff_getElem?_eq_some.mpr
    (((utxos_exact hm.run).unspent _ _).mpr ⟨txo, info, hget, rfl, rfl⟩)

/-- The item of a confirmed output. -/
def confirmedItem (txo : TXO) (info : TXOInfo) (height : Nat) : UnspentItem where
  hash := txo.txHash
  height := height
  txPos := txo.outN
  value := info.amount
  txNum := info.txNum
  tokenDataPtr := info.tokenDataPtr

/-- The last loop finds every row, and lists those that are not noted as spent. -/
theorem confirmedUnspent_eq {spends : Std.ExtTreeSet TXO compare}
    {rows : List (ShunspentKey × SHUnspentValue)}
    (hrows : ∀ row ∈ rows, ∃ txo info height, RowOf r hx row txo info height) :
    ∃ items, confirmedUnspent r.state spends (rows.map fun row => (row.1.ctxo, row.2)) =
        (items, true) ∧
      (items.map fun item => (⟨item.txNum, item.txPos⟩ : CompactTXO)).Sublist
        (rows.map fun row => row.1.ctxo) ∧
      ∀ item, item ∈ items ↔ ∃ row ∈ rows, ∃ txo info height, RowOf r hx row txo info height ∧
        txo ∉ spends ∧ item = confirmedItem txo info height := by
  induction rows with
  | nil => exact ⟨[], rfl, List.Sublist.slnil, by simp⟩
  | cons row rows ih =>
      obtain ⟨items, hrun, hsub, hmem⟩ :=
        ih fun row' hrow' => hrows row' (List.mem_cons_of_mem _ hrow')
      obtain ⟨txo, info, height, hrow⟩ := hrows row List.mem_cons_self
      have hfirst : (row.1.ctxo, row.2) = ((⟨info.txNum, txo.outN⟩ : CompactTXO),
          (⟨info.amount, info.tokenDataPtr⟩ : SHUnspentValue)) := by
        rw [hrow.row_eq]
      have hctxo := congrArg Prod.fst hfirst
      simp only at hctxo
      rw [List.map_cons, List.map_cons, hfirst, hctxo]
      by_cases hspent : txo ∈ spends
      · refine ⟨items, ?_, hsub.cons _, fun item => ?_⟩
        · simp only [confirmedUnspent, hrow.hashForTxNum, hrow.heightForTxNum, hrun, if_pos hspent]
        · rw [hmem]
          constructor
          · rintro ⟨row', hrow', hitem⟩
            exact ⟨row', List.mem_cons_of_mem _ hrow', hitem⟩
          · rintro ⟨row', hrow', txo', info', height', hof, hnot, rfl⟩
            rcases List.mem_cons.mp hrow' with rfl | hrow'
            · rw [← (hrow.unique hof).1] at hnot
              exact absurd hspent hnot
            · exact ⟨row', hrow', txo', info', height', hof, hnot, rfl⟩
      · refine ⟨confirmedItem txo info height :: items, ?_, ?_, fun item => ?_⟩
        · simp only [confirmedUnspent, hrow.hashForTxNum, hrow.heightForTxNum, hrun,
            if_neg hspent, confirmedItem]
        · rw [List.map_cons]
          exact hsub.cons_cons _
        · rw [List.mem_cons, hmem]
          constructor
          · rintro (rfl | ⟨row', hrow', hitem⟩)
            · exact ⟨row, List.mem_cons_self, txo, info, height, hrow, hspent, rfl⟩
            · exact ⟨row', List.mem_cons_of_mem _ hrow', hitem⟩
          · rintro ⟨row', hrow', txo', info', height', hof, hnot, rfl⟩
            rcases List.mem_cons.mp hrow' with rfl | hrow'
            · obtain ⟨rfl, rfl, rfl⟩ := hrow.unique hof
              exact .inl rfl
            · exact .inr ⟨row', hrow', txo', info', height', hof, hnot, rfl⟩

theorem nodup_unspentRows (s : State) (hx : HashX) :
    ((unspentRows s hx).map fun row => row.1.ctxo).Nodup := by
  rw [List.Nodup, List.pairwise_map]
  refine ((distinct_toList _).filter _).imp_of_mem fun {a b} ha hb hne heq => hne ?_
  have hhash : a.1.hashX = b.1.hashX :=
    (of_decide_eq_true (List.mem_filter.mp ha).2).trans
      (of_decide_eq_true (List.mem_filter.mp hb).2).symm
  cases ha' : a.1
  cases hb' : b.1
  rw [ha', hb'] at hhash heq
  simp only at hhash heq
  rw [hhash, heq]

/-! ### The answers -/

theorem stored_listed (hm : MempoolOver H opts rpa P r) : ∀ h ∈ listed r.state hx, ∃ tx,
    r.state.mempool.txs[h]? = some tx ∧ tx.hashXs[hx]? = some (tx.io hx) := by
  intro h hmem
  obtain ⟨nt, tx, -, htx, -, hio, -⟩ := hm.listed_record hmem
  exact ⟨tx, htx, hio⟩

/-- What `listUnspent` returns over the limit: the items of the transactions of the mempool that
were counted before the limit was exceeded. -/
theorem listUnspent_of_lt (hm : MempoolOver H opts rpa P r)
    (tokenLt : TokenData → TokenData → Bool) {limits : Options}
    (hmoney : ∀ row ∈ unspentRows r.state hx, row.2.amount ≤ maxMoney)
    (h : limits.maxHistory < (unspentRows r.state hx).length +
      ((listed r.state hx).map (utxoCount r.state hx)).sum) :
    ∃ pre post, listed r.state hx = pre ++ post ∧
      (pre.map (utxoCount r.state hx)).sum ≤ limits.maxHistory ∧
      (∀ last post', post = last :: post' →
        limits.maxHistory < (pre.map (utxoCount r.state hx)).sum + utxoCount r.state hx last) ∧
      listUnspent tokenLt limits r.state hx .includeTokens =
        pre.flatMap (unspentItems r.state hx) := by
  obtain ⟨hfit, hover⟩ := @unconfirmedUnspent_eq limits r.state hx _ (stored_listed hm)
    {} (Nat.zero_le _)
  simp only [List.nil_append, Nat.zero_add] at hfit hover
  rw [listUnspent]
  rcases le_or_gt ((listed r.state hx).map (utxoCount r.state hx)).sum limits.maxHistory
    with hu | hu
  · obtain ⟨loop, hrun, hret, hctr, -⟩ := hfit hu
    obtain ⟨e, he⟩ := (@scanUnspent_eq limits hx _ hmoney loop.ctr).2 (by omega) (by omega)
    refine ⟨listed r.state hx, [], (List.append_nil _).symm, hu, nofun, ?_⟩
    rw [listed] at hrun
    simp only [hrun, he, hret]
  · obtain ⟨pre, last, post, heq, hpre, hlast, hrun⟩ := hover hu
    refine ⟨pre, last :: post, heq, hpre, ?_, ?_⟩
    · rintro last' post' hpost
      cases hpost
      exact hlast
    · rw [listed] at hrun
      simp only [hrun]

/-- The two parts of `listUnspent` up to the limit, under any token filter. -/
theorem listUnspent_parts (hm : MempoolOver H opts rpa P r)
    (tokenLt : TokenData → TokenData → Bool) {limits : Options}
    (hmoney : ∀ row ∈ unspentRows r.state hx, row.2.amount ≤ maxMoney)
    (h : (unspentRows r.state hx).length +
      ((listed r.state hx).map (utxoCount r.state hx)).sum ≤ limits.maxHistory) :
    ∃ (spends : Std.ExtTreeSet TXO compare) (items : List UnspentItem),
      (∀ txo info, db r txo = some info → info.hashX = hx → (txo ∈ spends ↔ P.Spent txo)) ∧
      confirmedUnspent r.state spends
        ((unspentRows r.state hx).map fun row => (row.1.ctxo, row.2)) = (items, true) ∧
      ∀ tokenFilter, listUnspent tokenLt limits r.state hx tokenFilter =
        sort (fun a b => !UnspentItem.lt tokenLt b a)
          (keptItems tokenFilter
            ((listed r.state hx).flatMap (unspentItems r.state hx) ++ items)) := by
  obtain ⟨hfit, -⟩ := @unconfirmedUnspent_eq limits r.state hx _ (stored_listed hm)
    {} (Nat.zero_le _)
  simp only [List.nil_append, Nat.zero_add] at hfit
  obtain ⟨loop, hrun, hret, hctr, hspends⟩ := hfit (by omega)
  have hscan := (@scanUnspent_eq limits hx _ hmoney loop.ctr).1 (by omega)
  obtain ⟨items, hconf, -⟩ := @confirmedUnspent_eq r hx loop.mempoolConfirmedSpends _
    fun row hrow => exists_rowOf hm hrow
  refine ⟨loop.mempoolConfirmedSpends, items, fun txo info hget hhash => ?_, hconf,
    fun tokenFilter => ?_⟩
  · -- what is noted as spent is what the pool spends
    rw [hspends, hm.spent_iff hget, hhash]
    simp [ConfirmedSpend]
  · have hunconf := @unconfirmedUnspent_filter limits r.state hx tokenFilter {} (listed r.state hx)
    have hempty : UnspentLoop.kept tokenFilter {} = {} := rfl
    rw [hrun, hempty, Except.map, Except.mapError, listed] at hunconf
    have hscan' := @scanUnspent_filter limits hx tokenFilter loop.ctr (unspentRows r.state hx)
    rw [hscan, Except.map] at hscan'
    have hctr' : (loop.kept tokenFilter).ctr = loop.ctr := rfl
    have hspends' : (loop.kept tokenFilter).mempoolConfirmedSpends =
        loop.mempoolConfirmedSpends := rfl
    have hret' : (loop.kept tokenFilter).ret = keptItems tokenFilter loop.ret := rfl
    rw [listUnspent]
    simp only [hunconf, hctr', hscan', hspends', confirmedUnspent_filter tokenFilter hconf, if_true,
      hret', hret, keptItems, List.filter_append]

/-- `listUnspent` is complete up to the limit. -/
theorem listUnspent_of_le (hm : MempoolOver H opts rpa P r)
    (tokenLt : TokenData → TokenData → Bool) {limits : Options}
    (hmoney : ∀ row ∈ unspentRows r.state hx, row.2.amount ≤ maxMoney)
    (h : (unspentRows r.state hx).length +
      ((listed r.state hx).map (utxoCount r.state hx)).sum ≤ limits.maxHistory) :
    (listUnspent tokenLt limits r.state hx .includeTokens).Nodup ∧
      ∀ item, item ∈ listUnspent tokenLt limits r.state hx .includeTokens ↔
        UnspentEntry H P r hx item := by
  obtain ⟨spends, items, hspends, hconf, hparts⟩ := listUnspent_parts hm tokenLt hmoney h
  obtain ⟨items', hconf', hsub, hitems⟩ := @confirmedUnspent_eq r hx spends _
    fun row hrow => exists_rowOf hm hrow
  rw [hconf, Prod.mk.injEq] at hconf'
  obtain ⟨rfl, -⟩ := hconf'
  have heq := hparts .includeTokens
  rw [keptItems_includeTokens] at heq
  have hnoted : ∀ {txo info height row}, RowOf r hx row txo info height →
      (txo ∈ spends ↔ P.Spent txo) := fun hrow => hspends _ _ hrow.get hrow.hashX
  have hdisjoint : ∀ item ∈ (listed r.state hx).flatMap (unspentItems r.state hx),
      item ∉ items := by
    intro item hunconf hitem
    obtain ⟨-, fee, hfee⟩ := mem_unconfirmedItems hm (fun _ hh => hh) hunconf
    obtain ⟨row, -, txo, info, height, -, -, rfl⟩ := (hitems item).mp hitem
    cases hfee
  rw [heq]
  constructor
  · rw [SortUnique.sort, (List.perm_insertionSort _ _).nodup_iff]
    refine List.Nodup.append (nodup_unconfirmedItems hm (hm.nodup_listed hx) fun _ hh => hh) ?_
      hdisjoint
    exact List.Nodup.of_map _ ((nodup_unspentRows r.state hx).sublist hsub)
  · intro item
    rw [mem_sort, List.mem_append, hitems]
    constructor
    · rintro (hunconf | ⟨row, -, txo, info, height, hrow, hnot, rfl⟩)
      · exact (mem_unconfirmedItems hm (fun _ hh => hh) hunconf).1
      · rw [hnoted hrow] at hnot
        exact .confirmed hrow.get hrow.hashX hnot hrow.confirmedHeight
    · rintro (⟨hget, rfl, hnot, hheight⟩ | @⟨h, nt, tx, n, info, hP, htx, hat, hinfo, hnot⟩)
      · right
        obtain ⟨height, hrow⟩ := rowOf_of_get hm hget
        rw [hrow.confirmedHeight, Option.some.injEq] at hheight
        refine ⟨_, mem_unspentRows hm hget, _, _, height, hrow, ?_, ?_⟩
        · rw [hnoted hrow]
          exact hnot
        · rw [hheight]
          rfl
      · left
        have hmem : h ∈ listed r.state hx :=
          hm.mem_listed.mpr ⟨nt, hP, .inl ⟨n, info, hat, hinfo⟩⟩
        exact List.mem_flatMap.mpr ⟨h, hmem, (mem_unspentItems hm hmem).mpr
          ⟨nt, tx, n, info, hP, htx, hat, hinfo, hnot, rfl⟩⟩

/-- If the first count that is not zero is over the limit, one of the counts is. -/
theorem FirstOverflows.exists_lt {m k : Nat} {counts : List Nat} (h : FirstOverflows m counts)
    (hk : k ∈ counts) (hne : k ≠ 0) : ∃ k' ∈ counts, m < k' := by
  have hsome : (counts.find? (fun k => decide (0 < k))).isSome = true :=
    List.find?_isSome.mpr ⟨k, hk, decide_eq_true (Nat.pos_of_ne_zero hne)⟩
  obtain ⟨k', hk'⟩ := Option.isSome_iff_exists.mp hsome
  exact ⟨k', List.mem_of_find?_eq_some hk', h k' hk'⟩

/-- The first count that is not zero is over the limit iff nothing is counted before the limit is
exceeded. -/
theorem firstOverflows_iff {m : Nat} {pre post : List Nat} (hpre : pre.sum ≤ m)
    (hpost : ∀ last post', post = last :: post' → m < pre.sum + last) :
    FirstOverflows m (pre ++ post) ↔ ∀ k ∈ pre, k = 0 := by
  constructor
  · intro hfirst k hk
    by_contra hne
    have hsome : (pre.find? (fun k => decide (0 < k))).isSome = true :=
      List.find?_isSome.mpr ⟨k, hk, decide_eq_true (Nat.pos_of_ne_zero hne)⟩
    obtain ⟨k', hk'⟩ := Option.isSome_iff_exists.mp hsome
    have hlt := hfirst k' (by rw [List.find?_append, hk']; rfl)
    have hle := List.single_le_sum (fun _ _ => Nat.zero_le _) k' (List.mem_of_find?_eq_some hk')
    omega
  · intro hzero k hk
    have hnone : pre.find? (fun k => decide (0 < k)) = none := by
      rw [List.find?_eq_none]
      intro k hk
      rw [hzero k hk]
      decide
    have hsum : pre.sum = 0 := List.sum_eq_zero hzero
    rw [List.find?_append, hnone, Option.none_or] at hk
    cases post with
    | nil => cases hk
    | cons last post =>
        have hlast := hpost last post rfl
        rw [hsum, Nat.zero_add] at hlast
        rw [List.find?_cons_of_pos (by simpa using Nat.zero_lt_of_lt hlast)] at hk
        cases hk
        exact hlast

/-- With too many confirmed entries, the answer has what fits of the mempool. -/
theorem listUnspent_eq_nil_iff (hm : MempoolOver H opts rpa P r)
    (tokenLt : TokenData → TokenData → Bool) (limits : Options)
    (hmoney : ∀ row ∈ unspentRows r.state hx, row.2.amount ≤ maxMoney)
    (hc : limits.maxHistory < (unspentRows r.state hx).length) :
    listUnspent tokenLt limits r.state hx .includeTokens = [] ↔
      FirstOverflows limits.maxHistory ((listed r.state hx).map (utxoCount r.state hx)) := by
  obtain ⟨pre, post, heq, hpre, hpost, hrun⟩ := listUnspent_of_lt hm tokenLt hmoney
    (Nat.lt_of_lt_of_le hc (Nat.le_add_right _ _))
  rw [hrun, heq, List.map_append, firstOverflows_iff hpre, List.flatMap_eq_nil_iff,
    List.forall_mem_map]
  · refine forall₂_congr fun h hh => unspentItems_eq_nil_iff hm ?_
    rw [heq]
    exact List.mem_append_left post hh
  · rintro last post' hmap
    obtain ⟨h, post'', rfl, rfl, -⟩ := List.map_eq_cons_iff.mp hmap
    exact hpost h post'' rfl

/-- `listUnspent` keeps to the contract unless too many confirmed entries come with the outputs of
a transaction of the mempool that fit the limit. -/
theorem listUnspent_limit (hm : MempoolOver H opts rpa P r)
    (tokenLt : TokenData → TokenData → Bool) (limits : Options)
    (hmoney : ∀ row ∈ unspentRows r.state hx, row.2.amount ≤ maxMoney) :
    LimitContract limits.maxHistory (unspentRows r.state hx).length
        ((listed r.state hx).map (utxoCount r.state hx)).sum (UnspentEntry H P r hx)
        (listUnspent tokenLt limits r.state hx .includeTokens) ↔
      (unspentRows r.state hx).length ≤ limits.maxHistory ∨
        FirstOverflows limits.maxHistory ((listed r.state hx).map (utxoCount r.state hx)) := by
  constructor
  · intro hlimit
    rcases le_or_gt (unspentRows r.state hx).length limits.maxHistory with hc | hc
    · exact .inl hc
    · exact .inr ((listUnspent_eq_nil_iff hm tokenLt limits hmoney hc).mp (hlimit.empty hc))
  · intro hcond
    refine ⟨fun hc => ?_, listUnspent_of_le hm tokenLt hmoney, fun _ hu => ?_⟩
    · exact (listUnspent_eq_nil_iff hm tokenLt limits hmoney hc).mpr
        (hcond.resolve_left (not_le.mpr hc))
    · obtain ⟨pre, post, heq, -, -, hrun⟩ := listUnspent_of_lt hm tokenLt hmoney hu
      have hsub : ∀ h ∈ pre, h ∈ listed r.state hx := by
        intro h hh
        rw [heq]
        exact List.mem_append_left post hh
      have hnodup := hm.nodup_listed hx
      rw [heq] at hnodup
      rw [hrun]
      exact ⟨nodup_unconfirmedItems hm hnodup.of_append_left hsub,
        fun item hitem => (mem_unconfirmedItems hm hsub hitem).1⟩

/-- The values of the outputs of the chain are in `MoneyRange`, as consensus demands. -/
def InMoneyRange (blocks : List CBlock) : Prop :=
  ∀ e ∈ chainTxs blocks, ∀ out ∈ e.2.vout, out.nValue ≤ maxMoney

theorem InMoneyRange.rows (h : InMoneyRange r.blocks) (hm : MempoolOver H opts rpa P r) :
    ∀ row ∈ unspentRows r.state hx, row.2.amount ≤ maxMoney := by
  intro row hrow
  obtain ⟨txo, info, height, hrowOf⟩ := exists_rowOf hm hrow
  obtain ⟨⟨txNum, height', tx, out, hx', hchain, -, hout, -, rfl⟩, -⟩ :=
    ((utxos_exact hm.run).utxo txo info).mp hrowOf.get
  rw [hrowOf.row_eq]
  exact h _ (List.mem_of_getElem? hchain) out (List.mem_of_getElem? hout)

/--
The history keeps to the contract of the limit.  The unspent outputs keep to it
iff their confirmed rows fit the limit, or the first transaction of the mempool
that has unspent outputs of the script hash has too many of them by itself.
-/
theorem history_limit (hm : MempoolOver H opts rpa P r) (hmoney : InMoneyRange r.blocks)
    (tokenLt : TokenData → TokenData → Bool) (limits : Options) (hx : HashX) :
    LimitContract limits.maxHistory (r.state.index.shist[hx]?.getD []).length
        (listed r.state hx).length (HistoryEntry H P r hx)
        (getHistory limits r.state hx true true 0 none) ∧
      (LimitContract limits.maxHistory (unspentRows r.state hx).length
          ((listed r.state hx).map (utxoCount r.state hx)).sum (UnspentEntry H P r hx)
          (listUnspent tokenLt limits r.state hx .includeTokens) ↔
        (unspentRows r.state hx).length ≤ limits.maxHistory ∨
          FirstOverflows limits.maxHistory ((listed r.state hx).map (utxoCount r.state hx))) :=
  ⟨getHistory_limit hm limits, listUnspent_limit hm tokenLt limits (hmoney.rows hm)⟩

end Unspent

section Coinbases

open Mempool

/-- A chain of `n` coinbases that all pay to one script hash. -/
structure Coinbases (opts : Options) (n : Nat) (r : ChainRun) : Prop where
  run : Reachable ChainRun.Start (ChainStep opTrueHashers opts ValidBlock) r
  length : (chainTxs r.blocks).length = n
  coinbase : ∀ e ∈ chainTxs r.blocks, ∃ k < n, e.2 = coinbaseTx (BitVec.ofNat 256 (k + 1))

/-- A transaction that spends a coinbase, with one output. -/
def spendTx (hash : TxHash) : NewTx :=
  { ctx := { hash := 2000, vin := [{ prevout := ⟨hash, 0⟩ }]
             vout := [{ nValue := 4000, scriptPubKey := [0x51] }] }
    sizeBytes := 100
    vsizeBytes := 100 }

namespace Coinbases

variable {opts : Options} {n : Nat} {r : ChainRun}

theorem hash_ne (h : Coinbases opts n r) (hn : n < 1999) {e : Nat × CTransaction}
    (he : e ∈ chainTxs r.blocks) : e.2.hash ≠ 0 ∧ e.2.hash ≠ 2000 := by
  obtain ⟨k, hk, hek⟩ := h.coinbase e he
  rw [hek]
  have hzero : (0 : BitVec 256).toNat = 0 := rfl
  have hid : (2000 : BitVec 256).toNat = 2000 := rfl
  constructor
  all_goals
    intro heq
    have hnat := congrArg BitVec.toNat heq
    simp only [coinbaseTx, BitVec.toNat_ofNat, hzero, hid] at hnat
    omega

theorem inMoneyRange (h : Coinbases opts n r) : InMoneyRange r.blocks := by
  intro e he out hout
  obtain ⟨k, -, hek⟩ := h.coinbase e he
  rw [hek] at hout
  obtain rfl := List.mem_singleton.mp hout
  decide

/-- All outputs are unspent. -/
theorem unspent (h : Coinbases opts n r) (hn : n < 1999) {i height : Nat} {tx : CTransaction}
    (hget : (chainTxs r.blocks)[i]? = some (height, tx)) :
    db r ⟨tx.hash, 0⟩ = some
      { amount := 5000
        hashX := opTrueHashX
        confirmedHeight := some height
        txNum := i
        tokenDataPtr := none } := by
  have hmem := List.mem_of_getElem? hget
  obtain ⟨k, -, rfl⟩ := h.coinbase _ hmem
  refine ((utxos_exact h.run).utxo _ _).mpr ⟨?_, ?_⟩
  · exact ⟨i, height, _, _, opTrueHashX, hget, rfl, rfl, ⟨rfl, rfl⟩, rfl⟩
  · rintro ⟨e, he, input, hin, hprev⟩
    obtain ⟨m, -, hem⟩ := h.coinbase e he
    rw [hem] at hin
    obtain rfl := List.mem_singleton.mp hin
    exact (h.hash_ne hn hmem).1 (congrArg TXO.txHash hprev).symm

theorem exists_get (h : Coinbases opts n r) {i : Nat} (hi : i < n) :
    ∃ height tx, (chainTxs r.blocks)[i]? = some (height, tx) := by
  rw [← h.length] at hi
  exact ⟨_, _, List.getElem?_eq_getElem hi⟩

/-- A mempool with a transaction that spends the first coinbase. -/
theorem exists_over (h : Coinbases opts n r) (hpos : 0 < n) (hn : n < 1999) : ∃ hash r',
    hash ≠ 2000 ∧ Coinbases opts n r' ∧
      MempoolOver opTrueHashers opts false (Pool.ofList [spendTx hash]) r' := by
  obtain ⟨height, tx, hget⟩ := h.exists_get hpos
  have hne := (h.hash_ne hn (List.mem_of_getElem? hget)).2
  obtain ⟨mp, hm⟩ : ∃ mp, MempoolOver opTrueHashers opts false (Pool.ofList [spendTx tx.hash])
      { r with state := { r.state with mempool := mp } } := by
    refine exists_of_reachable false h.run (by simp) ?_ fun e he nt hnt => ?_
    · intro hash nt hP txo htxo
      obtain ⟨hmem, -⟩ := (Pool.ofList_eq_some (by simp)).mp hP
      obtain rfl := List.mem_singleton.mp hmem
      obtain rfl := List.mem_singleton.mp htxo
      have hnone : Pool.ofList [spendTx tx.hash] tx.hash = none := by
        by_contra hsome
        obtain ⟨q, hq⟩ := Option.ne_none_iff_exists'.mp hsome
        obtain ⟨hmem, hhash⟩ := (Pool.ofList_eq_some (by simp)).mp hq
        obtain rfl := List.mem_singleton.mp hmem
        exact hne hhash.symm
      exact ⟨_, by rw [Pool.prevInfo]; simp only [hnone]; exact h.unspent hn hget⟩
    · obtain rfl := List.mem_singleton.mp hnt
      exact (h.hash_ne hn he).2.symm
  exact ⟨tx.hash, _, hne, ⟨hm.run, h.length, h.coinbase⟩, hm⟩

/-- Every coinbase has a row. -/
theorem le_length_unspentRows (h : Coinbases opts n r) (hn : n < 1999) {P : Pool}
    (hm : MempoolOver opTrueHashers opts false P r) :
    n ≤ (unspentRows r.state opTrueHashX).length := by
  have hsub : (List.range n).map (fun i =>
      ((⟨opTrueHashX, ⟨i, 0⟩⟩, ⟨5000, none⟩) : ShunspentKey × SHUnspentValue)) ⊆
        unspentRows r.state opTrueHashX := by
    intro row hrow
    obtain ⟨i, hi, rfl⟩ := List.mem_map.mp hrow
    obtain ⟨height, tx, hget⟩ := h.exists_get (List.mem_range.mp hi)
    exact mem_unspentRows hm (h.unspent hn hget)
  have hnodup : ((List.range n).map (fun i =>
      ((⟨opTrueHashX, ⟨i, 0⟩⟩, ⟨5000, none⟩) : ShunspentKey × SHUnspentValue))).Nodup := by
    refine List.nodup_range.map fun i i' heq => ?_
    simpa using heq
  have hle := (hnodup.subperm hsub).length_le
  rwa [List.length_map, List.length_range] at hle

end Coinbases

theorem exists_coinbases : ∃ r, Coinbases { maxHistory := 1000 } 1001 r := by
  obtain ⟨r, hr, hlen, hall⟩ : ∃ r : ChainRun,
      Reachable ChainRun.Start (ChainStep opTrueHashers { maxHistory := 1000 } ValidBlock) r ∧
        (chainTxs r.blocks).length = 1001 ∧ ∀ e ∈ chainTxs r.blocks, ∃ k < 1001,
          e.2 = coinbaseTx (BitVec.ofNat 256 (k + 1)) := exists_coinbase_run rfl 1001 (by omega)
  exact ⟨r, hr, hlen, hall⟩

/-- The contract of a chain with more coinbases than the limit. -/
theorem history_limit_coinbases : ∃ (P : Pool) (r : ChainRun),
    LimitContract 1000 (r.state.index.shist[opTrueHashX]?.getD []).length
        (listed r.state opTrueHashX).length (HistoryEntry opTrueHashers P r opTrueHashX)
        (getHistory { maxHistory := 1000 } r.state opTrueHashX true true 0 none) ∧
      (LimitContract 1000 (unspentRows r.state opTrueHashX).length
          ((listed r.state opTrueHashX).map (utxoCount r.state opTrueHashX)).sum
          (UnspentEntry opTrueHashers P r opTrueHashX)
          (listUnspent (fun _ _ => false) { maxHistory := 1000 } r.state opTrueHashX
            .includeTokens) ↔
        (unspentRows r.state opTrueHashX).length ≤ 1000 ∨
          FirstOverflows 1000
            ((listed r.state opTrueHashX).map (utxoCount r.state opTrueHashX))) := by
  obtain ⟨r₀, hr₀⟩ := exists_coinbases
  obtain ⟨hash, r, -, hr, hm⟩ := hr₀.exists_over (by omega) (by omega)
  exact ⟨_, _, history_limit hm hr.inMoneyRange (fun _ _ => false) { maxHistory := 1000 }
    opTrueHashX⟩

/-- Too many confirmed outputs, and yet the answer has the unconfirmed one. -/
theorem listUnspent_over_limit : ∃ (P : Pool) (r : ChainRun),
    MempoolOver opTrueHashers { maxHistory := 1000 } false P r ∧ InMoneyRange r.blocks ∧
      1000 < (unspentRows r.state opTrueHashX).length ∧
      ∀ tokenLt : TokenData → TokenData → Bool,
        listUnspent tokenLt { maxHistory := 1000 } r.state opTrueHashX .includeTokens ≠ [] := by
  obtain ⟨r₀, hr₀⟩ := exists_coinbases
  obtain ⟨hash, r, hne, hr, hm⟩ := hr₀.exists_over (by omega) (by omega)
  have hmany := hr.le_length_unspentRows (by omega) hm
  refine ⟨_, _, hm, hr.inMoneyRange, by omega, fun tokenLt hempty => ?_⟩
  have hover := (listUnspent_eq_nil_iff hm tokenLt { maxHistory := 1000 }
    (hr.inMoneyRange.rows hm) hmany).mp hempty
  -- the output of the one transaction is counted
  have hP : Pool.ofList [spendTx hash] 2000 = some (spendTx hash) :=
    (Pool.ofList_eq_some (by simp)).mpr ⟨List.mem_singleton_self _, rfl⟩
  have honly : ∀ h nt, Pool.ofList [spendTx hash] h = some nt → nt = spendTx hash := by
    intro h nt hnt
    exact List.mem_singleton.mp ((Pool.ofList_eq_some (by simp)).mp hnt).1
  have hout : (spendTx hash).outAt opTrueHashers 0 = some
      { amount := 4000
        hashX := opTrueHashX
        confirmedHeight := none
        txNum := 0
        tokenDataPtr := none } := rfl
  have hunspent : ¬ (Pool.ofList [spendTx hash]).Spent ⟨2000, 0⟩ := by
    rintro ⟨h, nt, hnt, hmem⟩
    rw [honly h nt hnt] at hmem
    exact hne (congrArg TXO.txHash (List.mem_singleton.mp hmem)).symm
  have hlisted := hm.mem_listed.mpr ⟨_, hP, .inl ⟨0, _, hout, rfl⟩⟩
  have hcount : utxoCount r.state opTrueHashX 2000 ≠ 0 := by
    intro hzero
    obtain ⟨tx, htx, -⟩ := hm.record hP
    have hnil := (unspentItems_eq_nil_iff hm hlisted).mpr hzero
    have hitem := (mem_unspentItems hm hlisted).mpr ⟨_, tx, 0, _, hP, htx, hout, rfl, hunspent, rfl⟩
    rw [hnil] at hitem
    cases hitem
  obtain ⟨k, hk, hlt⟩ := hover.exists_lt (List.mem_map_of_mem hlisted) hcount
  obtain ⟨h, hmem, rfl⟩ := List.mem_map.mp hk
  obtain ⟨nt, hnt, -⟩ := hm.mem_listed.mp hmem
  have hle : utxoCount r.state opTrueHashX h ≤ nt.ctx.vout.length :=
    utxoCount_le hm hnt
  have hone : (spendTx hash).ctx.vout.length = 1 := rfl
  rw [honly h nt hnt, hone] at hle
  have hgt : 1000 < utxoCount r.state opTrueHashX h := hlt
  omega

end Coinbases

end Storage
end Shulcrum
