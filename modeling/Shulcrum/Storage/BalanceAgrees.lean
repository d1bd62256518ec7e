import Shulcrum.Storage.GetBalance

/-!
# The balance and the unspent outputs

The values that `listUnspent` returns add up to the two numbers of
`getBalance`: the rows of the script hash are the confirmed outputs that the
pool does not spend, together with those that it does, and each of the latter
is spent by one transaction of the pool.  `getBalance` gives up when the rows
are over `MAX_MONEY` together, and `listUnspent` does not look at their total.

**Results.**
* `perm_rows`: the rows, split by what the pool spends.
* `balance_agrees`: the sum of the values, and what is listed.
* `balance_of_rich`: a total that is out of range.
-/

namespace Shulcrum
namespace Storage

open Invariant TreeMap SortUnique Flatten ChainIndex MempoolOver

section Statements

variable (H : Hashers) (P : Pool) (r : ChainRun) (hx : HashX)

/-- The output of an item. -/
def UnspentItem.txo (item : UnspentItem) : TXO := ⟨item.hash, item.txPos⟩

/-- An output locked to the script hash, of the database or of the pool, that nothing in the pool
spends. -/
def UnspentTxo (txo : TXO) : Prop :=
  (∃ info, (db r txo = some info ∨
      ∃ nt, P txo.txHash = some nt ∧ nt.outAt H txo.outN = some info) ∧ info.hashX = hx) ∧
    ¬ P.Spent txo

end Statements

variable {H : Hashers} {opts : Options} {rpa : Bool} {P : Pool} {r : ChainRun} {hx : HashX}

/-! ## The rows -/

section Rows

/-- The output of a row. -/
def rowTxo (s : State) (row : ShunspentKey × SHUnspentValue) : TXO :=
  ⟨(hashForTxNum s row.1.ctxo.txNum).getD 0, row.1.ctxo.n⟩

/-- The row of a confirmed output of the script hash. -/
def spendRow (hx : HashX) (e : TXO × TXOInfo) : ShunspentKey × SHUnspentValue :=
  (⟨hx, ⟨e.2.txNum, e.1.outN⟩⟩, ⟨e.2.amount, e.2.tokenDataPtr⟩)

theorem RowOf.rowTxo_eq {row : ShunspentKey × SHUnspentValue} {txo : TXO} {info : TXOInfo}
    {height : Nat} (h : RowOf r hx row txo info height) : rowTxo r.state row = txo := by
  rw [rowTxo, h.row_eq]
  simp only [h.hashForTxNum, Option.getD_some]

/-- The items of the confirmed part have the values of the rows that are not noted as spent. -/
theorem confirmedUnspent_coins {spends : Std.ExtTreeSet TXO compare}
    {rows : List (ShunspentKey × SHUnspentValue)}
    (hrows : ∀ row ∈ rows, ∃ txo info height, RowOf r hx row txo info height) :
    (confirmedUnspent r.state spends (rows.map fun row => (row.1.ctxo, row.2))).1.map itemCoin =
      (rows.filter fun row => !decide (rowTxo r.state row ∈ spends)).map rowCoin := by
  induction rows with
  | nil => rfl
  | cons row rows ih =>
      have hrest := ih fun row' hrow' => hrows row' (List.mem_cons_of_mem _ hrow')
      obtain ⟨txo, info, height, hrow⟩ := hrows row List.mem_cons_self
      have htxo := hrow.rowTxo_eq
      have hrowEq := hrow.row_eq
      subst hrowEq
      rw [List.map_cons, confirmedUnspent, List.filter_cons, htxo]
      simp only [hrow.hashForTxNum, hrow.heightForTxNum]
      by_cases hspent : txo ∈ spends
      · simp only [if_pos hspent, hrest, decide_eq_true hspent, Bool.not_true, if_false,
          Bool.false_eq_true]
      · simp only [if_neg hspent, decide_eq_false hspent, Bool.not_false, if_true, List.map_cons,
          hrest]
        rfl

theorem mem_spentOutputs (hm : MempoolOver H opts rpa P r) {h : TxHash}
    (hmem : h ∈ listed r.state hx) {e : TXO × TXOInfo} :
    e ∈ spentOutputs r.state hx h ↔ ∃ nt, P h = some nt ∧ e.1 ∈ nt.prevouts ∧
      db r e.1 = some e.2 ∧ e.2.hashX = hx := by
  obtain ⟨nt, tx, hP, htx, -, -, hrep⟩ := hm.listed_record hmem
  have hspent : spentOutputs r.state hx h = (tx.io hx).confirmedSpends.toList := by
    simp only [spentOutputs, htx]
  rw [hspent, Std.ExtTreeMap.mem_toList_iff_getElem?_eq_some, hrep.conf]
  constructor
  · rintro ⟨hin, -, hget, hhash⟩
    exact ⟨nt, hP, hin, hget, hhash⟩
  · rintro ⟨nt', hP', hin, hget, hhash⟩
    rw [hP, Option.some.injEq] at hP'
    subst hP'
    exact ⟨hin, hm.not_mem_pool hget, hget, hhash⟩

/-- No confirmed output is spent twice. -/
theorem nodup_spentOutputs (hm : MempoolOver H opts rpa P r) (hspends : P.NoDoubleSpend) :
    ((listed r.state hx).flatMap (spentOutputs r.state hx)).Nodup := by
  refine List.nodup_flatMap.mpr ⟨fun h _ => ?_, ?_⟩
  · rw [spentOutputs]
    cases r.state.mempool.txs[h]? with
    | none => exact List.nodup_nil
    | some tx => exact (distinct_toList _).imp fun hne heq => hne (congrArg Prod.fst heq)
  · refine (hm.nodup_listed hx).imp_of_mem fun {h h'} hh hh' hne e he he' => hne ?_
    obtain ⟨nt, hP, hin, -⟩ := (mem_spentOutputs hm hh).mp he
    obtain ⟨nt', hP', hin', -⟩ := (mem_spentOutputs hm hh').mp he'
    exact hspends _ _ _ _ _ hP hP' hin hin'

/-- The rows of the confirmed outputs that the transactions of the mempool spend are those that
are noted as spent. -/
theorem perm_spendRows (hm : MempoolOver H opts rpa P r) (hspends : P.NoDoubleSpend)
    {spends : Std.ExtTreeSet TXO compare}
    (hnoted : ∀ txo info, db r txo = some info → info.hashX = hx →
      (txo ∈ spends ↔ P.Spent txo)) :
    (((listed r.state hx).flatMap (spentOutputs r.state hx)).map (spendRow hx)).Perm
      ((unspentRows r.state hx).filter fun row => decide (rowTxo r.state row ∈ spends)) := by
  have hrowOf : ∀ e ∈ (listed r.state hx).flatMap (spentOutputs r.state hx),
      P.Spent e.1 ∧ ∃ height, RowOf r hx (spendRow hx e) e.1 e.2 height := by
    intro e he
    obtain ⟨h, hmem, he⟩ := List.mem_flatMap.mp he
    obtain ⟨nt, hP, hin, hget, rfl⟩ := (mem_spentOutputs hm hmem).mp he
    exact ⟨⟨h, nt, hP, hin⟩, rowOf_of_get hm hget⟩
  refine (List.perm_ext_iff_of_nodup ?_ ?_).mpr fun row => ?_
  · refine List.Nodup.map_on (fun e he e' he' heq => ?_) (nodup_spentOutputs hm hspends)
    obtain ⟨-, height, hrow⟩ := hrowOf e he
    obtain ⟨-, height', hrow'⟩ := hrowOf e' he'
    rw [← heq] at hrow'
    obtain ⟨htxo, hinfo, -⟩ := hrow.unique hrow'
    exact Prod.ext htxo hinfo
  · exact (List.Nodup.of_map _ (nodup_unspentRows r.state hx)).filter _
  · rw [List.mem_map, List.mem_filter, decide_eq_true_eq]
    constructor
    · rintro ⟨e, he, rfl⟩
      obtain ⟨hspent, height, hrow⟩ := hrowOf e he
      rw [hrow.rowTxo_eq, hnoted _ _ hrow.get hrow.hashX, hrow.row_eq]
      refine ⟨?_, hspent⟩
      have hmem := mem_unspentRows hm hrow.get
      rwa [hrow.hashX] at hmem
    · rintro ⟨hmem, hin⟩
      obtain ⟨txo, info, height, hrow⟩ := exists_rowOf hm hmem
      rw [hrow.rowTxo_eq, hnoted _ _ hrow.get hrow.hashX, hm.spent_iff hrow.get, hrow.hashX] at hin
      obtain ⟨h, hlisted, tx, htx, hspend⟩ := hin
      obtain ⟨info', hinfo'⟩ := mem_iff_getElem?.mp hspend
      have he : (txo, info') ∈ spentOutputs r.state hx h := by
        simp only [spentOutputs, htx]
        exact Std.ExtTreeMap.mem_toList_iff_getElem?_eq_some.mpr hinfo'
      obtain ⟨-, -, -, hget, -⟩ := (mem_spentOutputs hm hlisted).mp he
      rw [hrow.get, Option.some.injEq] at hget
      refine ⟨(txo, info'), List.mem_flatMap.mpr ⟨h, hlisted, he⟩, ?_⟩
      rw [hrow.row_eq, spendRow, hget]

/-- The values of the rows are those of the listed items and those that the pool spends. -/
theorem perm_rows (hm : MempoolOver H opts rpa P r) (hspends : P.NoDoubleSpend)
    {spends : Std.ExtTreeSet TXO compare} {items : List UnspentItem}
    (hnoted : ∀ txo info, db r txo = some info → info.hashX = hx →
      (txo ∈ spends ↔ P.Spent txo))
    (hconf : confirmedUnspent r.state spends
      ((unspentRows r.state hx).map fun row => (row.1.ctxo, row.2)) = (items, true)) :
    ((unspentRows r.state hx).map rowCoin).Perm
      (((listed r.state hx).flatMap (spentOutputs r.state hx)).map spendCoin ++
        items.map itemCoin) := by
  have hitems := @confirmedUnspent_coins r hx spends _ fun row hrow => exists_rowOf hm hrow
  have hcoins : ((listed r.state hx).flatMap (spentOutputs r.state hx)).map spendCoin =
      (((listed r.state hx).flatMap (spentOutputs r.state hx)).map (spendRow hx)).map rowCoin := by
    rw [List.map_map]
    rfl
  rw [hconf] at hitems
  rw [hitems, hcoins, ← List.map_append]
  refine List.Perm.map rowCoin ?_
  exact (List.filter_append_perm _ _).symm.trans
    ((perm_spendRows hm hspends hnoted).symm.append_right _)

end Rows

/-! ## The sum -/

section Agree

theorem sum_value_keptItems (tokenFilter : TokenFilterOption) (items : List UnspentItem) :
    ((keptItems tokenFilter items).map UnspentItem.value).sum =
      tally tokenFilter (items.map itemCoin) := by
  rw [tally, List.filter_map, List.map_map]
  rfl

/-- What `listUnspent` returns up to the limit adds up to the two numbers. -/
theorem sum_listUnspent (hm : MempoolOver H opts rpa P r) (hspends : P.NoDoubleSpend)
    (tokenLt : TokenData → TokenData → Bool) {limits : Options} (tokenFilter : TokenFilterOption)
    (hmoney : ∀ row ∈ unspentRows r.state hx, row.2.amount ≤ maxMoney)
    (htotal : tally tokenFilter ((unspentRows r.state hx).map rowCoin) ≤ maxMoney)
    (hlist : (unspentRows r.state hx).length +
      ((listed r.state hx).map (utxoCount r.state hx)).sum ≤ limits.maxHistory)
    (hbalance : (unspentRows r.state hx).length +
      ((listed r.state hx).map (balanceCount r.state hx)).sum ≤ limits.maxHistory) :
    (((listUnspent tokenLt limits r.state hx tokenFilter).map UnspentItem.value).sum : Int) =
      (getBalance limits r.state hx tokenFilter).1 +
        (getBalance limits r.state hx tokenFilter).2 := by
  obtain ⟨spends, items, hnoted, hconf, hparts⟩ := listUnspent_parts hm tokenLt hmoney hlist
  have hrows := @tally_perm tokenFilter _ _ (perm_rows hm hspends hnoted hconf)
  have hsort := ((List.perm_insertionSort (fun a b => !UnspentItem.lt tokenLt b a)
    (keptItems tokenFilter ((listed r.state hx).flatMap (unspentItems r.state hx) ++ items))).map
      UnspentItem.value).sum_eq
  rw [sum_value_keptItems, List.map_append, tally_append] at hsort
  rw [tally_append] at hrows
  rw [hparts, SortUnique.sort, hsort, getBalance_of_le hm tokenFilter hmoney hbalance,
    if_neg (not_lt.mpr htotal)]
  simp only
  omega

/-! ## What is listed -/

/-- Under a token filter `listUnspent` lists what it lets through. -/
theorem perm_listUnspent (hm : MempoolOver H opts rpa P r)
    (tokenLt : TokenData → TokenData → Bool) {limits : Options} (tokenFilter : TokenFilterOption)
    (hmoney : ∀ row ∈ unspentRows r.state hx, row.2.amount ≤ maxMoney)
    (hlist : (unspentRows r.state hx).length +
      ((listed r.state hx).map (utxoCount r.state hx)).sum ≤ limits.maxHistory) :
    (listUnspent tokenLt limits r.state hx tokenFilter).Perm
      (keptItems tokenFilter (listUnspent tokenLt limits r.state hx .includeTokens)) := by
  obtain ⟨spends, items, -, -, hparts⟩ := listUnspent_parts hm tokenLt hmoney hlist
  rw [hparts, hparts, keptItems_includeTokens, SortUnique.sort, SortUnique.sort]
  exact (List.perm_insertionSort _ _).trans ((List.perm_insertionSort _ _).filter _).symm

/-- An output has one item. -/
theorem UnspentEntry.eq_of_txo (hm : MempoolOver H opts rpa P r) {item item' : UnspentItem}
    (h : UnspentEntry H P r hx item) (h' : UnspentEntry H P r hx item')
    (htxo : item.txo = item'.txo) : item = item' := by
  cases h with
  | @confirmed txo info height hget hhash hnot hheight =>
      cases h' with
      | @confirmed txo' info' height' hget' hhash' hnot' hheight' =>
          have heq : txo = txo' := htxo
          subst heq
          rw [hget, Option.some.injEq] at hget'
          subst hget'
          rw [hheight, Option.some.injEq] at hheight'
          rw [hheight']
      | @unconfirmed h' nt tx n info' hP htx hat hhash' hnot' =>
          -- an output of the database is not one of the pool
          have hnone := hm.not_mem_pool hget
          have hhashEq : txo.txHash = h' := congrArg TXO.txHash htxo
          rw [hhashEq, hP] at hnone
          cases hnone
  | @unconfirmed h nt tx n info hP htx hat hhash hnot =>
      cases h' with
      | @confirmed txo info' height hget hhash' hnot' hheight =>
          have hnone := hm.not_mem_pool hget
          have hhashEq : h = txo.txHash := congrArg TXO.txHash htxo
          rw [← hhashEq, hP] at hnone
          cases hnone
      | @unconfirmed h' nt' tx' n' info' hP' htx' hat' hhash' hnot' =>
          have heq : h = h' := congrArg TXO.txHash htxo
          have hn : n = n' := congrArg TXO.outN htxo
          subst heq hn
          rw [hP, Option.some.injEq] at hP'
          subst hP'
          rw [htx, Option.some.injEq] at htx'
          rw [hat, Option.some.injEq] at hat'
          rw [htx', hat']

/-- The outputs that have an item are the unspent ones. -/
theorem exists_unspentEntry_iff (hm : MempoolOver H opts rpa P r) (txo : TXO) :
    (∃ item, UnspentEntry H P r hx item ∧ item.txo = txo) ↔ UnspentTxo H P r hx txo := by
  constructor
  · rintro ⟨item, hitem, rfl⟩
    cases hitem with
    | confirmed hget hhash hnot hheight => exact ⟨⟨_, .inl hget, hhash⟩, hnot⟩
    | unconfirmed hP htx hat hhash hnot => exact ⟨⟨_, .inr ⟨_, hP, hat⟩, hhash⟩, hnot⟩
  · rintro ⟨⟨info, hget | ⟨nt, hP, hat⟩, hhash⟩, hnot⟩
    · obtain ⟨height, hrow⟩ := rowOf_of_get hm hget
      exact ⟨_, .confirmed hget hhash hnot hrow.confirmedHeight, rfl⟩
    · obtain ⟨tx, htx, -⟩ := hm.record hP
      exact ⟨_, .unconfirmed hP htx hat hhash hnot, rfl⟩

/-- No output is listed twice. -/
theorem nodup_txo_listUnspent (hm : MempoolOver H opts rpa P r)
    (tokenLt : TokenData → TokenData → Bool) {limits : Options} (tokenFilter : TokenFilterOption)
    (hmoney : ∀ row ∈ unspentRows r.state hx, row.2.amount ≤ maxMoney)
    (hlist : (unspentRows r.state hx).length +
      ((listed r.state hx).map (utxoCount r.state hx)).sum ≤ limits.maxHistory) :
    ((listUnspent tokenLt limits r.state hx tokenFilter).map UnspentItem.txo).Nodup := by
  obtain ⟨hnodup, hmem⟩ := listUnspent_of_le hm tokenLt hmoney hlist
  have hall : ((listUnspent tokenLt limits r.state hx .includeTokens).map
      UnspentItem.txo).Nodup := by
    refine List.Nodup.map_on (fun item hitem item' hitem' htxo => ?_) hnodup
    exact ((hmem item).mp hitem).eq_of_txo hm ((hmem item').mp hitem') htxo
  have hperm := (perm_listUnspent hm tokenLt tokenFilter hmoney hlist).map UnspentItem.txo
  rw [hperm.nodup_iff]
  exact hall.sublist (List.filter_sublist.map _)

/--
The balance and the unspent outputs agree.  Within the limit of `listUnspent`
and with rows in `MoneyRange`, every output is listed once, and the listed ones
are the unspent outputs of the script hash.  Under a filter that leaves the
total of the rows in `MoneyRange`, and within the limit of `getBalance`, their
values add up to the balance.
-/
theorem balance_agrees (hm : MempoolOver H opts rpa P r) (hspends : P.NoDoubleSpend)
    (tokenLt : TokenData → TokenData → Bool) (limits : Options) (hx : HashX)
    (hmoney : ∀ row ∈ unspentRows r.state hx, row.2.amount ≤ maxMoney)
    (hlist : (unspentRows r.state hx).length +
      ((listed r.state hx).map (utxoCount r.state hx)).sum ≤ limits.maxHistory) :
    (∀ tokenFilter,
      tally tokenFilter ((unspentRows r.state hx).map rowCoin) ≤ maxMoney →
      (unspentRows r.state hx).length +
        ((listed r.state hx).map (balanceCount r.state hx)).sum ≤ limits.maxHistory →
      (((listUnspent tokenLt limits r.state hx tokenFilter).map UnspentItem.value).sum : Int) =
        (getBalance limits r.state hx tokenFilter).1 +
          (getBalance limits r.state hx tokenFilter).2) ∧
    (∀ tokenFilter,
      ((listUnspent tokenLt limits r.state hx tokenFilter).map UnspentItem.txo).Nodup) ∧
    ∀ txo, txo ∈ (listUnspent tokenLt limits r.state hx .includeTokens).map UnspentItem.txo ↔
      UnspentTxo H P r hx txo := by
  refine ⟨fun tokenFilter htotal hbalance =>
    sum_listUnspent hm hspends tokenLt tokenFilter hmoney htotal hlist hbalance,
    fun tokenFilter => nodup_txo_listUnspent hm tokenLt tokenFilter hmoney hlist, fun txo => ?_⟩
  obtain ⟨-, hmem⟩ := listUnspent_of_le hm tokenLt hmoney hlist
  rw [List.mem_map, ← exists_unspentEntry_iff hm]
  simp only [hmem]

end Agree

/-! ## A balance that agrees, and one that is out of range -/

section SmallChain

open Mempool

theorem tally_le {tokenFilter : TokenFilterOption} {coins : List Coin} {bound : Nat}
    (h : ∀ coin ∈ coins, coin.1 ≤ bound) : tally tokenFilter coins ≤ coins.length * bound := by
  have hsub : (coins.filter fun coin => keeps tokenFilter coin.2).length ≤ coins.length :=
    List.length_filter_le _ _
  have hsum := List.sum_le_card_nsmul
    ((coins.filter fun coin => keeps tokenFilter coin.2).map Prod.fst) bound fun value hvalue => by
      obtain ⟨coin, hcoin, rfl⟩ := List.mem_map.mp hvalue
      exact h coin (List.mem_of_mem_filter hcoin)
  rw [List.length_map, smul_eq_mul] at hsum
  exact hsum.trans (Nat.mul_le_mul_right bound hsub)

/-- There is a row for each coinbase at most. -/
theorem Coinbases.unspentRows_subset {n : Nat} (h : Coinbases opts n r)
    (hm : MempoolOver opTrueHashers opts rpa P r) :
    unspentRows r.state opTrueHashX ⊆ (List.range n).map fun i =>
      ((⟨opTrueHashX, ⟨i, 0⟩⟩, ⟨5000, none⟩) : ShunspentKey × SHUnspentValue) := by
  intro row hrow
  obtain ⟨txo, info, height, hrowOf⟩ := exists_rowOf hm hrow
  obtain ⟨⟨txNum, height', tx, out, hx', hchain, -, hout, -, rfl⟩, -⟩ :=
    ((utxos_exact hm.run).utxo txo info).mp hrowOf.get
  obtain ⟨k, -, rfl⟩ := h.coinbase _ (List.mem_of_getElem? hchain)
  have hlt := (List.getElem?_eq_some_iff.mp hchain).1
  rw [h.length] at hlt
  have hzero : txo.outN = 0 := by
    have hlen := (List.getElem?_eq_some_iff.mp hout).1
    simp only [coinbaseTx, List.length_singleton] at hlen
    omega
  rw [hzero] at hout
  obtain rfl := Option.some.inj hout
  refine List.mem_map.mpr ⟨txNum, List.mem_range.mpr hlt, ?_⟩
  rw [hrowOf.row_eq, hzero]

theorem Coinbases.length_unspentRows_le {n : Nat} (h : Coinbases opts n r)
    (hm : MempoolOver opTrueHashers opts rpa P r) :
    (unspentRows r.state opTrueHashX).length ≤ n := by
  have hle := ((List.Nodup.of_map _ (nodup_unspentRows r.state opTrueHashX)).subperm
    (h.unspentRows_subset hm)).length_le
  rwa [List.length_map, List.length_range] at hle

theorem Coinbases.tally_le {n : Nat} (h : Coinbases opts n r)
    (hm : MempoolOver opTrueHashers opts rpa P r) (tokenFilter : TokenFilterOption) :
    tally tokenFilter ((unspentRows r.state opTrueHashX).map rowCoin) ≤ n * 5000 := by
  have hsub := h.unspentRows_subset hm
  have hlen := h.length_unspentRows_le hm
  have htally := @Storage.tally_le tokenFilter ((unspentRows r.state opTrueHashX).map rowCoin) 5000
    fun coin hcoin => by
      obtain ⟨row, hrow, rfl⟩ := List.mem_map.mp hcoin
      obtain ⟨i, -, rfl⟩ := List.mem_map.mp (hsub hrow)
      exact le_refl 5000
  rw [List.length_map] at htally
  exact htally.trans (Nat.mul_le_mul_right 5000 hlen)

/-- A transaction counts no more than its inputs and outputs. -/
theorem balanceCount_le (hm : MempoolOver H opts rpa P r) {h : TxHash} {nt : NewTx}
    (hP : P h = some nt) :
    balanceCount r.state hx h ≤ nt.prevouts.length + nt.ctx.vout.length := by
  obtain ⟨tx, htx, -, hrep⟩ := hm.record hP
  have hutxo := @utxoCount_le H opts rpa P r hx hm h nt hP
  have hsub : (tx.io hx).confirmedSpends.keys ⊆ nt.prevouts := by
    intro txo htxo
    obtain ⟨info, hget⟩ := mem_iff_getElem?.mp (Std.ExtTreeMap.mem_keys.mp htxo)
    exact ((hrep.conf _ _ _).mp hget).1
  have hnodup : (tx.io hx).confirmedSpends.keys.Nodup :=
    Std.ExtTreeMap.distinct_keys.imp Std.ReflCmp.ne_of_cmp_ne_eq
  have hle := (hnodup.subperm hsub).length_le
  rw [Std.ExtTreeMap.length_keys] at hle
  simp only [utxoCount, htx] at hutxo
  simp only [balanceCount, htx]
  omega

/-- With a pool of one transaction, a sum over the listed ones has one summand at most. -/
theorem sum_listed_le {nt : NewTx} (hm : MempoolOver H opts rpa (Pool.ofList [nt]) r)
    {count : TxHash → Nat} {bound : Nat} (hbound : count nt.hash ≤ bound) :
    ((listed r.state hx).map count).sum ≤ bound := by
  have hone : ∀ h ∈ listed r.state hx, h = nt.hash := by
    intro h hh
    obtain ⟨nt', hP, -⟩ := hm.mem_listed.mp hh
    obtain ⟨hmem, rfl⟩ := (Pool.ofList_eq_some (by simp)).mp hP
    rw [List.mem_singleton.mp hmem]
  have hlen : (listed r.state hx).length ≤ 1 :=
    ((hm.nodup_listed hx).subperm fun h hh => List.mem_singleton.mpr (hone h hh)).length_le
  have hsum := List.sum_le_card_nsmul ((listed r.state hx).map count) bound fun c hc => by
    obtain ⟨h, hh, rfl⟩ := List.mem_map.mp hc
    rw [hone h hh]
    exact hbound
  rw [List.length_map, smul_eq_mul] at hsum
  exact hsum.trans (by simpa using Nat.mul_le_mul_right bound hlen)

/-- The balance of two coinbases of which the mempool spends one. -/
theorem balance_agrees_coinbases : ∃ (P : Pool) (r : ChainRun),
    (∀ tokenFilter, (((listUnspent (fun _ _ => false) {} r.state opTrueHashX tokenFilter).map
        UnspentItem.value).sum : Int) =
      (getBalance {} r.state opTrueHashX tokenFilter).1 +
        (getBalance {} r.state opTrueHashX tokenFilter).2) ∧
    (∀ tokenFilter, ((listUnspent (fun _ _ => false) {} r.state opTrueHashX tokenFilter).map
      UnspentItem.txo).Nodup) ∧
    ∀ txo, txo ∈ (listUnspent (fun _ _ => false) {} r.state opTrueHashX .includeTokens).map
      UnspentItem.txo ↔ UnspentTxo opTrueHashers P r opTrueHashX txo := by
  obtain ⟨r₀, hr₀, hlen, hall⟩ : ∃ r : ChainRun,
      Reachable ChainRun.Start (ChainStep opTrueHashers {} ValidBlock) r ∧
        (chainTxs r.blocks).length = 2 ∧ ∀ e ∈ chainTxs r.blocks, ∃ k < 2,
          e.2 = coinbaseTx (BitVec.ofNat 256 (k + 1)) := exists_coinbase_run rfl 2 (by omega)
  have hcoins : Coinbases {} 2 r₀ := ⟨hr₀, hlen, hall⟩
  obtain ⟨hash, r, -, hr, hm⟩ := hcoins.exists_over (by omega) (by omega)
  have htotal : ∀ tokenFilter, tally tokenFilter
      ((unspentRows r.state opTrueHashX).map rowCoin) ≤ maxMoney := by
    intro tokenFilter
    have hle := hr.tally_le hm tokenFilter
    rw [maxMoney]
    omega
  have hP : Pool.ofList [spendTx hash] (spendTx hash).hash = some (spendTx hash) :=
    (Pool.ofList_eq_some (by simp)).mpr ⟨List.mem_singleton_self _, rfl⟩
  have hrows := hr.length_unspentRows_le hm
  have hutxos := @sum_listed_le _ _ _ r opTrueHashX _ hm (utxoCount r.state opTrueHashX) 1
    (utxoCount_le hm hP)
  have hcounts := @sum_listed_le _ _ _ r opTrueHashX _ hm (balanceCount r.state opTrueHashX) 2
    (balanceCount_le hm hP)
  have hmax : ({} : Options).maxHistory = 125000 := rfl
  obtain ⟨hsum, hnodup, hmem⟩ := balance_agrees hm (noDoubleSpend_single (spendTx hash))
    (fun _ _ => false) {} opTrueHashX (hr.inMoneyRange.rows hm) (by omega)
  exact ⟨_, r, fun tokenFilter => hsum tokenFilter (htotal tokenFilter) (by omega), hnodup, hmem⟩

/-- A coinbase with two outputs of `MAX_MONEY` each. -/
def richTx : CTransaction :=
  { hash := 1
    vin := [{ prevout := ⟨0, 4294967295⟩ }]
    vout := [{ nValue := maxMoney, scriptPubKey := [0x51] },
      { nValue := maxMoney, scriptPubKey := [0x51] }] }

def richBlock : CBlock where
  header := plainHeader 0
  vtx := [richTx]
  coinbase := rfl
  hash_ne_null := by decide

/-- The chain of that block, with an empty mempool. -/
theorem exists_richRun : ∃ r : ChainRun, r.blocks = [richBlock] ∧
    MempoolOver opTrueHashers {} false (Pool.ofList []) r := by
  obtain ⟨ppb, s, notify, hfill, hadd⟩ := @addBlock_loneCoinbase {} {} rfl wellFormed_empty
    richBlock richTx rfl rfl (by decide) (by simp [richTx]) true false false
  have hvalid : ValidBlock [] richBlock := by
    refine ⟨by simp [richBlock], fun tx _ e he => ?_, by simp [richBlock, richTx]⟩
    cases he
  have hrun : Reachable ChainRun.Start (ChainStep opTrueHashers {} ValidBlock)
      { state := s, blocks := [] ++ [richBlock] } :=
    Reachable.next (.start rfl) (.add hfill hvalid (by decide) hadd)
  have hres : (Pool.ofList []).Resolved opTrueHashers
      (db { state := s, blocks := [] ++ [richBlock] }) := by
    intro h nt hP
    cases hP
  obtain ⟨mp, hm⟩ := @exists_of_reachable _ _ _ false hrun [] List.nodup_nil hres
    fun e he nt hnt => absurd hnt List.not_mem_nil
  exact ⟨_, rfl, hm⟩

/-- The row of an output of that coinbase. -/
def richRow (n : Nat) : ShunspentKey × SHUnspentValue := (⟨opTrueHashX, ⟨0, n⟩⟩, ⟨maxMoney, none⟩)

/-- Both outputs are in the database. -/
theorem get_richTx (hm : MempoolOver opTrueHashers opts rpa P r) (hblocks : r.blocks = [richBlock])
    {n : Nat} (hn : n < 2) : db r ⟨1, n⟩ = some
      { amount := maxMoney
        hashX := opTrueHashX
        confirmedHeight := some 0
        txNum := 0
        tokenDataPtr := none } := by
  refine ((utxos_exact hm.run).utxo _ _).mpr ⟨?_, ?_⟩
  · rw [hblocks]
    refine ⟨0, 0, richTx, { nValue := maxMoney, scriptPubKey := [0x51] }, opTrueHashX, rfl, rfl,
      ?_, ⟨rfl, rfl⟩, rfl⟩
    match n, hn with
    | 0, _ => rfl
    | 1, _ => rfl
  · rw [hblocks]
    rintro ⟨e, he, input, hin, hprev⟩
    obtain rfl := List.mem_singleton.mp he
    obtain rfl := List.mem_singleton.mp hin
    have hhash : (0 : TxHash) = 1 := congrArg TXO.txHash hprev
    exact absurd hhash (by decide)

/-- There are no other rows. -/
theorem perm_richRows (hm : MempoolOver opTrueHashers opts rpa P r)
    (hblocks : r.blocks = [richBlock]) :
    (unspentRows r.state opTrueHashX).Perm [richRow 0, richRow 1] := by
  refine (List.perm_ext_iff_of_nodup (List.Nodup.of_map _ (nodup_unspentRows r.state opTrueHashX))
    (by simp [richRow])).mpr fun row => ⟨fun hrow => ?_, fun hrow => ?_⟩
  · obtain ⟨txo, info, height, hrowOf⟩ := exists_rowOf hm hrow
    obtain ⟨⟨txNum, height', tx, out, hx', hchain, -, hout, -, rfl⟩, -⟩ :=
      ((utxos_exact hm.run).utxo txo info).mp hrowOf.get
    rw [hblocks] at hchain
    have hlt : txNum < 1 := (List.getElem?_eq_some_iff.mp hchain).1
    obtain rfl : txNum = 0 := by omega
    cases hchain
    have htwo : txo.outN < 2 := (List.getElem?_eq_some_iff.mp hout).1
    have hvalue : out.nValue = maxMoney ∧ out.tokenDataPtr = none := by
      rcases List.mem_pair.mp (List.mem_of_getElem? hout) with rfl | rfl
      · exact ⟨rfl, rfl⟩
      · exact ⟨rfl, rfl⟩
    rw [hrowOf.row_eq, List.mem_pair, hvalue.1, hvalue.2]
    obtain hn | hn : txo.outN = 0 ∨ txo.outN = 1 := by omega
    · exact .inl (by rw [hn, richRow])
    · exact .inr (by rw [hn, richRow])
  · rcases List.mem_pair.mp hrow with rfl | rfl
    · exact mem_unspentRows hm (get_richTx hm hblocks (by omega))
    · exact mem_unspentRows hm (get_richTx hm hblocks (by omega))

/-- Two outputs in range that are over `MAX_MONEY` together are listed, and make no balance. -/
theorem balance_of_rich : ∃ (P : Pool) (r : ChainRun),
    MempoolOver opTrueHashers {} false P r ∧ P.NoDoubleSpend ∧ InMoneyRange r.blocks ∧
      (unspentRows r.state opTrueHashX).length +
        ((listed r.state opTrueHashX).map (utxoCount r.state opTrueHashX)).sum ≤ 125000 ∧
      (unspentRows r.state opTrueHashX).length +
        ((listed r.state opTrueHashX).map (balanceCount r.state opTrueHashX)).sum ≤ 125000 ∧
      ∀ tokenLt : TokenData → TokenData → Bool,
        (((listUnspent tokenLt {} r.state opTrueHashX .includeTokens).map
            UnspentItem.value).sum : Int) ≠
          (getBalance {} r.state opTrueHashX .includeTokens).1 +
            (getBalance {} r.state opTrueHashX .includeTokens).2 := by
  obtain ⟨r, hblocks, hm⟩ := exists_richRun
  have hempty : ∀ h nt, Pool.ofList [] h ≠ some nt := by
    intro h nt hP
    cases hP
  have hlisted : listed r.state opTrueHashX = [] := by
    refine List.eq_nil_iff_forall_not_mem.mpr fun h hh => ?_
    obtain ⟨nt, hP, -⟩ := hm.mem_listed.mp hh
    exact hempty h nt hP
  have hmoney : InMoneyRange r.blocks := by
    intro e he out hout
    rw [hblocks] at he
    obtain rfl := List.mem_singleton.mp he
    rcases List.mem_pair.mp hout with rfl | rfl
    · exact le_refl maxMoney
    · exact le_refl maxMoney
  have hrows := perm_richRows hm hblocks
  have hlen : (unspentRows r.state opTrueHashX).length = 2 := hrows.length_eq
  have htotal : maxMoney <
      tally .includeTokens ((unspentRows r.state opTrueHashX).map rowCoin) := by
    rw [tally_perm (hrows.map rowCoin)]
    decide
  have hlist : (unspentRows r.state opTrueHashX).length +
      ((listed r.state opTrueHashX).map (utxoCount r.state opTrueHashX)).sum ≤ 125000 := by
    rw [hlisted, hlen, List.map_nil]
    decide
  have hbalance : (unspentRows r.state opTrueHashX).length +
      ((listed r.state opTrueHashX).map (balanceCount r.state opTrueHashX)).sum ≤ 125000 := by
    rw [hlisted, hlen, List.map_nil]
    decide
  refine ⟨_, r, hm, fun h q h' q' txo hq => absurd hq (hempty h q), hmoney, hlist, hbalance,
    fun tokenLt heq => ?_⟩
  have hanswer := @getBalance_of_le _ _ _ _ r opTrueHashX hm {} .includeTokens (hmoney.rows hm)
    hbalance
  rw [if_pos htotal] at hanswer
  rw [hanswer] at heq
  -- the first output is listed with its value
  obtain ⟨-, hmem⟩ := @listUnspent_of_le _ _ _ _ r opTrueHashX hm tokenLt {} (hmoney.rows hm) hlist
  have hitem := (hmem _).mpr (.confirmed (get_richTx hm hblocks (show 0 < 2 by omega)) rfl
    (fun ⟨h, q, hq, _⟩ => hempty h q hq) rfl)
  have hvalue := List.mem_map_of_mem (f := UnspentItem.value) hitem
  have hle := List.single_le_sum (fun _ _ => Nat.zero_le _) _ hvalue
  simp only at heq hle
  have hpos : 0 < maxMoney := by decide
  omega

end SmallChain

end Storage
end Shulcrum
