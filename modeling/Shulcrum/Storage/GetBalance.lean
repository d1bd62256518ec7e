import Shulcrum.Storage.HistoryLimit

/-!
# The balance of a script hash

`getBalance` tallies the rows of the script hash first, and gives up on a row
or a total that is out of range.  Then it goes through the transactions of the
mempool: what they pay to the script hash and do not spend again is added, and
what they spend of the confirmed outputs is subtracted.  Both parts add to one
counter, which throws when it is over the limit; the two numbers are then what
they were at that point.

**Results.**
* `scanBalance_eq`: the confirmed number within the limit.
* `unconfirmedBalance_eq`: the loop over the mempool within the limit.
* `getBalance_of_le`: both numbers within the limit.
-/

namespace Shulcrum
namespace Storage

open TreeMap MempoolOver

section Model

variable (opts : Options) (s : State) (hashX : HashX) (tokenFilter : TokenFilterOption)

/-- `IncrementCtrAndThrowIfExceedsMaxHistory` of `getBalance`, from counter value `ctr`. -/
def incrementBalanceCtr (ctr incr : Nat) : Except Exception Nat :=
  if ctr + incr > opts.maxHistory then
    .error (.historyTooLarge ("GetBalance UTXOs for scripthash " ++ hashX.toHex ++
      " exceeds max history " ++ toString opts.maxHistory ++ " with " ++
      toString (ctr + incr) ++ " items!"))
  else .ok (ctr + incr)

/-- The loop of `getBalance` over the rows of the script hash, and the check of the total.  An
exception comes with `ret.first` as it is then. -/
def scanBalance (ctr first : Nat) :
    List (ShunspentKey × SHUnspentValue) → Except (Exception × Nat) (Nat × Nat)
  | [] =>
      if first > maxMoney then
        .error (.internalError ("Out-of-range total in db for getBalance on scripthash: " ++
          hashX.toHex), 0)
      else .ok (ctr, first)
  | (key, shval) :: rows =>
      match incrementBalanceCtr opts hashX ctr 1 with
      | .error e => .error (e, first)
      | .ok ctr =>
          if shval.amount > maxMoney then
            .error (.internalError ("Out-of-range amount in db for ctxo " ++
              toString key.ctxo.txNum ++ ":" ++ toString key.ctxo.n ++ ": " ++
              toString shval.amount), first)
          else
            scanBalance ctr (if shouldTokenFilter tokenFilter shval.tokenDataPtr then first
              else first + shval.amount) rows

/-- What the loop over the transactions of the mempool works on. -/
structure BalanceLoop where
  utxos : Nat := 0
  spends : Nat := 0
  ctr : Nat := 0

/-- The loop over the confirmed outputs that a transaction of the mempool spends. -/
def addSpends (spends : Nat) (confirmedSpends : List (TXO × TXOInfo)) : Nat :=
  confirmedSpends.foldl (fun spends e =>
    if shouldTokenFilter tokenFilter e.2.tokenDataPtr then spends else spends + e.2.amount) spends

/-- The loop over the unspent outputs of a transaction of the mempool. -/
def addUtxos (tx : Tx) (utxos : Nat) : List Nat → Except Exception Nat
  | [] => .ok utxos
  | ionum :: rest =>
      match tx.txos[ionum]?.join with
      | none => .error (.internalError ("scripthash " ++ hashX.toHex ++ " lists tx " ++
          tx.hash.toHex ++ ", which then lacks a valid TXO IONum " ++ toString ionum ++
          " for said hashX! FIXME!"))
      | some info =>
          addUtxos tx (if shouldTokenFilter tokenFilter info.tokenDataPtr then utxos
            else utxos + info.amount) rest

/-- The part of `getBalance` about the mempool. -/
def unconfirmedBalance (loop : BalanceLoop) : List TxHash → Except Exception BalanceLoop
  | [] => .ok loop
  | hash :: txvec =>
      match s.mempool.txs[hash]? with
      | none => .error .assertionFailed
      | some tx =>
          match tx.hashXs[hashX]? with
          | none => .error (.internalError ("scripthash " ++ hashX.toHex ++ " lists tx " ++
              tx.hash.toHex ++ ", which then lacks the IOInfo for said hashX! FIXME!"))
          | some info => do
              let ctr ← incrementBalanceCtr opts hashX loop.ctr
                (info.confirmedSpends.size + info.utxo.size)
              let spends := addSpends tokenFilter loop.spends info.confirmedSpends.toList
              let utxos ← addUtxos hashX tokenFilter tx loop.utxos info.utxo.toList
              unconfirmedBalance { utxos := utxos, spends := spends, ctr := ctr } txvec

/--
`Storage::getBalance`: the confirmed number and what the mempool adds to it.
An exception ends the call with what was set up to then.  The sums of the
amounts of the mempool, 64-bit numbers in the source, stay below 2^63.
-/
def getBalance : Nat × Int :=
  match scanBalance opts hashX tokenFilter 0 0 (unspentRows s hashX) with
  | .error (_, first) => (first, 0)
  | .ok (ctr, first) =>
      match unconfirmedBalance opts s hashX tokenFilter { ctr := ctr }
          (s.mempool.hashXTxs[hashX]?.getD []) with
      | .error _ => (first, 0)
      | .ok loop => (first, (loop.utxos : Int) - loop.spends)

end Model

/-! ## Tallies -/

section Tally

/-- The value and the token data of an output. -/
abbrev Coin := Nat × Option TokenData

/-- The sum of the values that a token filter lets through. -/
def tally (tokenFilter : TokenFilterOption) (coins : List Coin) : Nat :=
  ((coins.filter fun coin => keeps tokenFilter coin.2).map Prod.fst).sum

variable {tokenFilter : TokenFilterOption}

@[simp] theorem tally_nil : tally tokenFilter [] = 0 := rfl

theorem tally_cons (coin : Coin) (coins : List Coin) :
    tally tokenFilter (coin :: coins) =
      (if shouldTokenFilter tokenFilter coin.2 then 0 else coin.1) + tally tokenFilter coins := by
  rw [tally, tally, List.filter_cons, keeps]
  cases shouldTokenFilter tokenFilter coin.2 with
  | true => simp
  | false => simp

theorem tally_append (coins coins' : List Coin) :
    tally tokenFilter (coins ++ coins') = tally tokenFilter coins + tally tokenFilter coins' := by
  rw [tally, List.filter_append, List.map_append, List.sum_append, tally, tally]

theorem tally_perm {coins coins' : List Coin} (h : coins.Perm coins') :
    tally tokenFilter coins = tally tokenFilter coins' :=
  ((h.filter _).map _).sum_eq

/-- A step of a loop that adds up what the filter lets through. -/
theorem add_tally_cons (acc : Nat) (coin : Coin) (coins : List Coin) :
    (if shouldTokenFilter tokenFilter coin.2 then acc else acc + coin.1) +
        tally tokenFilter coins = acc + tally tokenFilter (coin :: coins) := by
  rw [tally_cons]
  cases shouldTokenFilter tokenFilter coin.2 with
  | true => simp
  | false => simp [Nat.add_assoc]

end Tally

/-! ## What the loops tally -/

section Loops

variable {opts : Options} {s : State} {hx : HashX} {tokenFilter : TokenFilterOption}

def rowCoin (row : ShunspentKey × SHUnspentValue) : Coin := (row.2.amount, row.2.tokenDataPtr)

def spendCoin (e : TXO × TXOInfo) : Coin := (e.2.amount, e.2.tokenDataPtr)

def itemCoin (item : UnspentItem) : Coin := (item.value, item.tokenDataPtr)

/-- The items that a transaction of the mempool adds to the counter of `getBalance`. -/
def balanceCount (s : State) (hx : HashX) (h : TxHash) : Nat :=
  match s.mempool.txs[h]? with
  | none => 0
  | some tx => (tx.io hx).confirmedSpends.size + (tx.io hx).utxo.size

/-- The confirmed outputs that a transaction of the mempool spends. -/
def spentOutputs (s : State) (hx : HashX) (h : TxHash) : List (TXO × TXOInfo) :=
  match s.mempool.txs[h]? with
  | none => []
  | some tx => (tx.io hx).confirmedSpends.toList

theorem incrementBalanceCtr_eq {ctr incr : Nat} (h : ctr + incr ≤ opts.maxHistory) :
    incrementBalanceCtr opts hx ctr incr = .ok (ctr + incr) :=
  if_neg (not_lt.mpr h)

/-- The tally of the rows, if it is in range. -/
theorem scanBalance_eq {rows : List (ShunspentKey × SHUnspentValue)}
    (hmoney : ∀ row ∈ rows, row.2.amount ≤ maxMoney) {ctr first : Nat}
    (hfit : ctr + rows.length ≤ opts.maxHistory) :
    scanBalance opts hx tokenFilter ctr first rows =
      if first + tally tokenFilter (rows.map rowCoin) > maxMoney then
        .error (.internalError ("Out-of-range total in db for getBalance on scripthash: " ++
          hx.toHex), 0)
      else
        .ok (ctr + rows.length, first + tally tokenFilter (rows.map rowCoin)) := by
  induction rows generalizing ctr first with
  | nil => rfl
  | cons row rows ih =>
      obtain ⟨key, shval⟩ := row
      rw [List.length_cons] at hfit
      have hamount : ¬ shval.amount > maxMoney := not_lt.mpr (hmoney _ List.mem_cons_self)
      have hrest := @ih (fun row' hrow' => hmoney row' (List.mem_cons_of_mem _ hrow')) (ctr + 1)
        (if shouldTokenFilter tokenFilter shval.tokenDataPtr then first
          else first + shval.amount) (by omega)
      have hadd : (if shouldTokenFilter tokenFilter shval.tokenDataPtr then first
          else first + shval.amount) + tally tokenFilter (rows.map rowCoin) =
            first + tally tokenFilter (((key, shval) :: rows).map rowCoin) :=
        add_tally_cons first (shval.amount, shval.tokenDataPtr) _
      rw [hadd] at hrest
      rw [scanBalance, incrementBalanceCtr_eq (by omega)]
      simp only [if_neg hamount, hrest, List.length_cons]
      rw [Nat.add_assoc, Nat.add_comm 1]

theorem addSpends_eq (spends : Nat) (outputs : List (TXO × TXOInfo)) :
    addSpends tokenFilter spends outputs =
      spends + tally tokenFilter (outputs.map spendCoin) := by
  induction outputs generalizing spends with
  | nil => rfl
  | cons e outputs ih =>
      rw [addSpends, List.foldl_cons, List.map_cons, ← add_tally_cons]
      exact ih _

/-- The tally of the outputs of a transaction of the mempool is that of its items. -/
theorem addUtxos_eq {tx : Tx} {ionums : List Nat}
    (hvalid : ∀ n ∈ ionums, ∃ info, tx.txos[n]?.join = some info) (utxos : Nat) :
    addUtxos hx tokenFilter tx utxos ionums = .ok (utxos +
      tally tokenFilter
        ((ionums.filterMap (unspentItem s .includeTokens tx)).map itemCoin)) := by
  induction ionums generalizing utxos with
  | nil => rfl
  | cons n ionums ih =>
      obtain ⟨info, hinfo⟩ := hvalid n List.mem_cons_self
      have hitem := (@unspentItem_eq_some s tx n _).mpr ⟨info, hinfo, rfl⟩
      rw [addUtxos, List.filterMap_cons_some hitem, List.map_cons, ← add_tally_cons]
      simp only [hinfo]
      exact ih (fun n' hn' => hvalid n' (List.mem_cons_of_mem n hn')) _

/-- The loop over the mempool goes through within the limit. -/
theorem unconfirmedBalance_eq {txvec : List TxHash}
    (hstored : ∀ h ∈ txvec, ∃ tx, s.mempool.txs[h]? = some tx ∧
      tx.hashXs[hx]? = some (tx.io hx) ∧
        ∀ n ∈ (tx.io hx).utxo.toList, ∃ info, tx.txos[n]?.join = some info)
    {loop : BalanceLoop}
    (hfit : loop.ctr + (txvec.map (balanceCount s hx)).sum ≤ opts.maxHistory) :
    unconfirmedBalance opts s hx tokenFilter loop txvec = .ok
      { utxos := loop.utxos +
          tally tokenFilter ((txvec.flatMap (unspentItems s hx)).map itemCoin)
        spends := loop.spends +
          tally tokenFilter ((txvec.flatMap (spentOutputs s hx)).map spendCoin)
        ctr := loop.ctr + (txvec.map (balanceCount s hx)).sum } := by
  induction txvec generalizing loop with
  | nil => rfl
  | cons h txvec ih =>
      obtain ⟨tx, htx, hio, hvalid⟩ := hstored h List.mem_cons_self
      have hcount : balanceCount s hx h =
          (tx.io hx).confirmedSpends.size + (tx.io hx).utxo.size := by
        simp only [balanceCount, htx]
      have hitems : unspentItems s hx h =
          (tx.io hx).utxo.toList.filterMap (unspentItem s .includeTokens tx) := by
        simp only [unspentItems, htx, unspentOfTx]
      have hspent : spentOutputs s hx h = (tx.io hx).confirmedSpends.toList := by
        simp only [spentOutputs, htx]
      rw [List.map_cons, List.sum_cons] at hfit
      rw [unconfirmedBalance]
      simp only [htx, hio, ← hcount, bind, Except.bind,
        incrementBalanceCtr_eq (show loop.ctr + balanceCount s hx h ≤ opts.maxHistory by omega),
        @addUtxos_eq s hx tokenFilter tx _ hvalid, addSpends_eq]
      rw [ih (fun h' hh' => hstored h' (List.mem_cons_of_mem h hh')) (by simp only; omega)]
      simp only [List.flatMap_cons, List.map_append, tally_append, hitems, hspent, List.map_cons,
        List.sum_cons, Nat.add_assoc]

end Loops

/-! ## The two numbers -/

section Answer

variable {H : Hashers} {opts : Options} {rpa : Bool} {P : Pool} {r : ChainRun} {hx : HashX}

/-- A listed transaction is stored, and its unspent outputs are outputs it has. -/
theorem stored_valid (hm : MempoolOver H opts rpa P r) : ∀ h ∈ listed r.state hx, ∃ tx,
    r.state.mempool.txs[h]? = some tx ∧ tx.hashXs[hx]? = some (tx.io hx) ∧
      ∀ n ∈ (tx.io hx).utxo.toList, ∃ info, tx.txos[n]?.join = some info := by
  intro h hmem
  obtain ⟨nt, tx, -, htx, -, hio, hrep⟩ := hm.listed_record hmem
  refine ⟨tx, htx, hio, fun n hn => ?_⟩
  rw [Std.ExtTreeSet.mem_toList, hrep.utxo] at hn
  obtain ⟨⟨info, hat, -⟩, -⟩ := hn
  rw [hrep.txos, ← NewTx.outAt]
  exact ⟨info, hat⟩

/-- What `getBalance` returns within the limit, with rows in range: nothing if their total is out
of range. -/
theorem getBalance_of_le (hm : MempoolOver H opts rpa P r) {limits : Options}
    (tokenFilter : TokenFilterOption)
    (hmoney : ∀ row ∈ unspentRows r.state hx, row.2.amount ≤ maxMoney)
    (h : (unspentRows r.state hx).length +
      ((listed r.state hx).map (balanceCount r.state hx)).sum ≤ limits.maxHistory) :
    getBalance limits r.state hx tokenFilter =
      if tally tokenFilter ((unspentRows r.state hx).map rowCoin) > maxMoney then
        (0, 0)
      else
        (tally tokenFilter ((unspentRows r.state hx).map rowCoin),
          (tally tokenFilter (((listed r.state hx).flatMap (unspentItems r.state hx)).map
            itemCoin) : Int) -
          tally tokenFilter (((listed r.state hx).flatMap (spentOutputs r.state hx)).map
            spendCoin)) := by
  have hscan := @scanBalance_eq limits hx tokenFilter _ hmoney 0 0 (by omega)
  have hloop := @unconfirmedBalance_eq limits r.state hx tokenFilter _ (stored_valid hm)
    { ctr := 0 + (unspentRows r.state hx).length } (by simp only; omega)
  rw [getBalance, hscan]
  simp only [Nat.zero_add]
  by_cases htotal :
      tally tokenFilter ((unspentRows r.state hx).map rowCoin) > maxMoney
  · simp only [if_pos htotal]
  · rw [listed] at hloop
    simp only [if_neg htotal, Nat.zero_add] at hloop ⊢
    rw [hloop]
    simp only [listed]

end Answer

end Storage
end Shulcrum
