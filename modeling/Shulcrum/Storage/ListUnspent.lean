import Shulcrum.Storage.MempoolOver

/-!
# The unspent outputs of a script hash

`listUnspent` collects the unspent outputs of the mempool first, and notes
which confirmed outputs the mempool spends.  Then it scans the table of
unspent outputs, looks up the transactions of the rows, and leaves out what was
noted.  Both parts add to one counter, which throws when it is over the limit;
the list collected up to then is the result, without being sorted.

**Results.**
* `unconfirmedUnspent_eq`: where the part about the mempool throws.
* `scanUnspent_eq`: where the scan throws.
* `unconfirmedUnspent_filter`, `scanUnspent_filter`, `confirmedUnspent_filter`:
  a token filter takes items out and changes nothing else.
-/

namespace Shulcrum
namespace Storage

open TreeMap SortUnique

section Model

/-- `Storage::TokenFilterOption`. -/
inductive TokenFilterOption where
  | includeTokens
  | excludeTokens
  | onlyTokens
  deriving DecidableEq

/-- `ShouldTokenFilter`. -/
def shouldTokenFilter : TokenFilterOption → Option TokenData → Bool
  | .excludeTokens, p => p.isSome
  | .includeTokens, _ => false
  | .onlyTokens, p => p.isNone

/-- `Storage::UnspentItem`. -/
structure UnspentItem extends HistoryItem where
  txPos : Nat
  value : Nat
  txNum : Nat
  tokenDataPtr : Option TokenData
  deriving DecidableEq

/-- `bitcoin::MAX_MONEY`. -/
def maxMoney : Nat := 21000000 * 100000000

/-- `operator<` of two tuples, given what `<` says of their fields in both directions. -/
def tieLt : List (Bool × Bool) → Bool
  | [] => false
  | (lt, gt) :: fields => lt || (!gt && tieLt fields)

/-- `HeapOptional::operator<`; a null pointer is less than any other. -/
def heapOptionalLt (tokenLt : TokenData → TokenData → Bool) :
    Option TokenData → Option TokenData → Bool
  | some a, some b => tokenLt a b
  | none, some _ => true
  | _, none => false

/-- `UnspentItem::operator<`.  The order of token data is a parameter. -/
def UnspentItem.lt (tokenLt : TokenData → TokenData → Bool) (a b : UnspentItem) : Bool :=
  tieLt [(decide (a.txNum < b.txNum), decide (b.txNum < a.txNum)),
    (decide (a.txPos < b.txPos), decide (b.txPos < a.txPos)),
    (decide (a.value < b.value), decide (b.value < a.value)),
    (heapOptionalLt tokenLt a.tokenDataPtr b.tokenDataPtr,
      heapOptionalLt tokenLt b.tokenDataPtr a.tokenDataPtr),
    (decide (a.height < b.height), decide (b.height < a.height)),
    (decide (a.hash < b.hash), decide (b.hash < a.hash))]

variable (tokenLt : TokenData → TokenData → Bool) (opts : Options) (s : State) (hashX : HashX)
  (tokenFilter : TokenFilterOption)

/-- `IncrementCtrAndThrowIfExceedsMaxHistory` of `listUnspent`, from counter value `ctr`. -/
def incrementUnspentCtr (ctr incr : Nat) : Except Exception Nat :=
  if ctr + incr > opts.maxHistory then
    .error (.historyTooLarge ("Unspent UTXOs for scripthash " ++ hashX.toHex ++
      " exceeds max history " ++ toString opts.maxHistory ++ " with " ++
      toString (ctr + incr) ++ " items!"))
  else .ok (ctr + incr)

/-- What the loop over the transactions of the mempool works on. -/
structure UnspentLoop where
  ret : List UnspentItem := []
  mempoolConfirmedSpends : Std.ExtTreeSet TXO compare := ∅
  ctr : Nat := 0

/-- The number that sorts an unconfirmed item after the confirmed ones. -/
def fudgedTxNum (tx : Tx) : Nat :=
  1 + (s.index.txNumNext + 100000000) + (if tx.hasUnconfirmedParents then 1 else 0)

/-- The item of an unspent output of a transaction of the mempool. -/
def unspentItem (tx : Tx) (ionum : Nat) : Option UnspentItem :=
  match tx.txos[ionum]?.join with
  | none => none
  | some info =>
      if shouldTokenFilter tokenFilter info.tokenDataPtr then none
      else some
        { hash := tx.hash
          height := 0
          fee := some tx.fee
          txPos := ionum
          value := info.amount
          txNum := fudgedTxNum s tx
          tokenDataPtr := info.tokenDataPtr }

/-- The loop over the unspent outputs of a transaction of the mempool. -/
def unspentOfTx (tx : Tx) (ioinfo : IOInfo) : List UnspentItem :=
  ioinfo.utxo.toList.filterMap (unspentItem s tokenFilter tx)

/-- The part of `listUnspent` about the mempool; what was collected, if it throws. -/
def unconfirmedUnspent (loop : UnspentLoop) :
    List TxHash → Except (List UnspentItem) UnspentLoop
  | [] => .ok loop
  | hash :: txvec =>
      match s.mempool.txs[hash]? with
      | none => unconfirmedUnspent loop txvec
      | some tx =>
          match tx.hashXs[hashX]? with
          | none => unconfirmedUnspent loop txvec
          | some ioinfo =>
              let spends := ioinfo.confirmedSpends.keys.foldl (·.insert ·)
                loop.mempoolConfirmedSpends
              match incrementUnspentCtr opts hashX loop.ctr ioinfo.utxo.size with
              | .error _ => .error loop.ret
              | .ok ctr =>
                  unconfirmedUnspent
                    { ret := loop.ret ++ unspentOfTx s tokenFilter tx ioinfo
                      mempoolConfirmedSpends := spends
                      ctr := ctr } txvec

/-- The loop of `listUnspent` over the rows of the script hash. -/
def scanUnspent (ctr : Nat) :
    List (ShunspentKey × SHUnspentValue) → Except Exception (List (CompactTXO × SHUnspentValue))
  | [] => .ok []
  | (key, shval) :: rows => do
      let ctr ← incrementUnspentCtr opts hashX ctr 1
      if shval.amount > maxMoney then
        .error (.internalError ("Out-of-range amount in db for ctxo " ++ toString key.ctxo.txNum ++
          ":" ++ toString key.ctxo.n ++ ", script_hash " ++ hashX.toHex ++ ": " ++
          toString shval.amount))
      else
        let ctxoVec ← scanUnspent ctr rows
        .ok (if shouldTokenFilter tokenFilter shval.tokenDataPtr then ctxoVec
          else (key.ctxo, shval) :: ctxoVec)

/-- The last loop of `listUnspent`: what was collected, and whether a lookup failed. -/
def confirmedUnspent (spends : Std.ExtTreeSet TXO compare) :
    List (CompactTXO × SHUnspentValue) → List UnspentItem × Bool
  | [] => ([], true)
  | (ctxo, shval) :: ctxoVec =>
      match hashForTxNum s ctxo.txNum with
      | none => ([], false)
      | some hash =>
          match heightForTxNum s ctxo.txNum with
          | none => ([], false)
          | some height =>
              let (items, ok) := confirmedUnspent spends ctxoVec
              if (⟨hash, ctxo.n⟩ : TXO) ∈ spends then (items, ok)
              else
                ({ hash := hash
                   height := height
                   txPos := ctxo.n
                   value := shval.amount
                   txNum := ctxo.txNum
                   tokenDataPtr := shval.tokenDataPtr } :: items, ok)

/-- The rows of `scripthash_unspent` with the script hash, in the order of their keys. -/
def unspentRows : List (ShunspentKey × SHUnspentValue) :=
  s.index.utxos.shunspent.toList.filter fun row => decide (row.1.hashX = hashX)

/--
`Storage::listUnspent`.  An exception ends the call with what was collected up
to then.
-/
def listUnspent : List UnspentItem :=
  match unconfirmedUnspent opts s hashX tokenFilter {} (s.mempool.hashXTxs[hashX]?.getD []) with
  | .error ret => ret
  | .ok loop =>
      match scanUnspent opts hashX tokenFilter loop.ctr (unspentRows s hashX) with
      | .error _ => loop.ret
      | .ok ctxoVec =>
          let (items, ok) := confirmedUnspent s loop.mempoolConfirmedSpends ctxoVec
          if ok then sort (fun a b => !UnspentItem.lt tokenLt b a) (loop.ret ++ items)
          else loop.ret ++ items

end Model

/-! ## Where the parts throw -/

section Loops

variable {opts : Options} {s : State} {hx : HashX}

/-- The unspent outputs that a transaction of the mempool adds to the counter. -/
def utxoCount (s : State) (hx : HashX) (h : TxHash) : Nat :=
  match s.mempool.txs[h]? with
  | none => 0
  | some tx => (tx.io hx).utxo.size

/-- The items that a transaction of the mempool adds to the list. -/
def unspentItems (s : State) (hx : HashX) (h : TxHash) : List UnspentItem :=
  match s.mempool.txs[h]? with
  | none => []
  | some tx => unspentOfTx s .includeTokens tx (tx.io hx)

/-- The confirmed outputs that a transaction of the mempool adds to the noted ones. -/
def ConfirmedSpend (s : State) (hx : HashX) (txvec : List TxHash) (txo : TXO) : Prop :=
  ∃ h ∈ txvec, ∃ tx, s.mempool.txs[h]? = some tx ∧ txo ∈ (tx.io hx).confirmedSpends

theorem unspentItem_eq_some {tx : Tx} {n : Nat} {item : UnspentItem} :
    unspentItem s .includeTokens tx n = some item ↔ ∃ info, tx.txos[n]?.join = some info ∧
      item =
        { hash := tx.hash
          height := 0
          fee := some tx.fee
          txPos := n
          value := info.amount
          txNum := fudgedTxNum s tx
          tokenDataPtr := info.tokenDataPtr } := by
  rw [unspentItem]
  cases tx.txos[n]?.join with
  | none => simp
  | some info => simp [shouldTokenFilter, eq_comm]

theorem incrementUnspentCtr_eq (opts : Options) (hx : HashX) (ctr incr : Nat) :
    (ctr + incr ≤ opts.maxHistory → incrementUnspentCtr opts hx ctr incr = .ok (ctr + incr)) ∧
      (opts.maxHistory < ctr + incr → ∃ e, incrementUnspentCtr opts hx ctr incr = .error e) :=
  ⟨fun h => if_neg (not_lt.mpr h), fun h => ⟨_, if_pos h⟩⟩

/-- The part about the mempool goes through if the outputs are within the limit, and throws at
the first transaction that takes them over it. -/
theorem unconfirmedUnspent_eq {txvec : List TxHash}
    (hstored : ∀ h ∈ txvec, ∃ tx, s.mempool.txs[h]? = some tx ∧ tx.hashXs[hx]? = some (tx.io hx))
    {loop : UnspentLoop} (hctr : loop.ctr ≤ opts.maxHistory) :
    (loop.ctr + (txvec.map (utxoCount s hx)).sum ≤ opts.maxHistory →
      ∃ loop', unconfirmedUnspent opts s hx .includeTokens loop txvec = .ok loop' ∧
        loop'.ret = loop.ret ++ txvec.flatMap (unspentItems s hx) ∧
        loop'.ctr = loop.ctr + (txvec.map (utxoCount s hx)).sum ∧
        ∀ txo, txo ∈ loop'.mempoolConfirmedSpends ↔
          txo ∈ loop.mempoolConfirmedSpends ∨ ConfirmedSpend s hx txvec txo) ∧
    (opts.maxHistory < loop.ctr + (txvec.map (utxoCount s hx)).sum →
      ∃ pre h post, txvec = pre ++ h :: post ∧
        loop.ctr + (pre.map (utxoCount s hx)).sum ≤ opts.maxHistory ∧
        opts.maxHistory < loop.ctr + (pre.map (utxoCount s hx)).sum + utxoCount s hx h ∧
        unconfirmedUnspent opts s hx .includeTokens loop txvec =
          .error (loop.ret ++ pre.flatMap (unspentItems s hx))) := by
  induction txvec generalizing loop with
  | nil =>
      refine ⟨fun _ => ⟨loop, rfl, by simp, by simp, by simp [ConfirmedSpend]⟩, fun hover => ?_⟩
      rw [List.map_nil, List.sum_nil] at hover
      omega
  | cons h txvec ih =>
      obtain ⟨tx, htx, hio⟩ := hstored h List.mem_cons_self
      have hcount : utxoCount s hx h = (tx.io hx).utxo.size := by
        simp only [utxoCount, htx]
      have hitems : unspentItems s hx h = unspentOfTx s .includeTokens tx (tx.io hx) := by
        simp only [unspentItems, htx]
      rw [List.map_cons, List.sum_cons]
      rcases le_or_gt (loop.ctr + utxoCount s hx h) opts.maxHistory with hfit | hover
      · have hinc : incrementUnspentCtr opts hx loop.ctr (tx.io hx).utxo.size =
            .ok (loop.ctr + utxoCount s hx h) := by
          rw [← hcount]
          exact (incrementUnspentCtr_eq opts hx _ _).1 hfit
        obtain ⟨hok, herr⟩ := @ih (fun h' hh' => hstored h' (List.mem_cons_of_mem h hh'))
          { ret := loop.ret ++ unspentOfTx s .includeTokens tx (tx.io hx)
            mempoolConfirmedSpends := (tx.io hx).confirmedSpends.keys.foldl (·.insert ·)
              loop.mempoolConfirmedSpends
            ctr := loop.ctr + utxoCount s hx h } hfit
        have hstep : unconfirmedUnspent opts s hx .includeTokens loop (h :: txvec) =
            unconfirmedUnspent opts s hx .includeTokens
              { ret := loop.ret ++ unspentOfTx s .includeTokens tx (tx.io hx)
                mempoolConfirmedSpends := (tx.io hx).confirmedSpends.keys.foldl (·.insert ·)
                  loop.mempoolConfirmedSpends
                ctr := loop.ctr + utxoCount s hx h } txvec := by
          rw [unconfirmedUnspent]
          simp only [htx, hio, hinc]
        rw [hstep]
        constructor
        · intro hsum
          obtain ⟨loop', hrun, hret, hctr', hspends⟩ := hok (by simp only; omega)
          refine ⟨loop', hrun, ?_, ?_, fun txo => ?_⟩
          · rw [hret, List.flatMap_cons, hitems, List.append_assoc]
          · rw [hctr']
            simp only
            omega
          · rw [hspends, mem_foldl_insert, Std.ExtTreeMap.mem_keys]
            simp only [ConfirmedSpend, List.exists_mem_cons_iff, htx, Option.some.injEq,
              exists_eq_left', or_assoc]
        · intro hsum
          obtain ⟨pre, h', post, rfl, hpre, hlast, hrun⟩ := herr (by simp only; omega)
          refine ⟨h :: pre, h', post, rfl, ?_, ?_, ?_⟩
          · rw [List.map_cons, List.sum_cons]
            simp only at hpre
            omega
          · rw [List.map_cons, List.sum_cons]
            simp only at hlast
            omega
          · rw [hrun, List.flatMap_cons, hitems, List.append_assoc]
      · refine ⟨fun hsum => absurd hsum (by omega), fun _ => ⟨[], h, txvec, rfl, ?_, ?_, ?_⟩⟩
        · simpa using hctr
        · simpa using hover
        · obtain ⟨e, he⟩ := (incrementUnspentCtr_eq opts hx _ _).2 hover
          rw [hcount] at he
          rw [unconfirmedUnspent]
          simp only [htx, hio, he, List.flatMap_nil, List.append_nil]

/-- The scan goes through if all rows are within the limit, and throws otherwise. -/
theorem scanUnspent_eq {rows : List (ShunspentKey × SHUnspentValue)}
    (hmoney : ∀ row ∈ rows, row.2.amount ≤ maxMoney) {ctr : Nat} :
    (ctr + rows.length ≤ opts.maxHistory →
      scanUnspent opts hx .includeTokens ctr rows = .ok (rows.map fun row => (row.1.ctxo, row.2))) ∧
    (ctr ≤ opts.maxHistory → opts.maxHistory < ctr + rows.length →
      ∃ e, scanUnspent opts hx .includeTokens ctr rows = .error e) := by
  induction rows generalizing ctr with
  | nil => exact ⟨fun _ => rfl, fun hle hover => absurd hover (by simpa using hle)⟩
  | cons row rows ih =>
      obtain ⟨key, shval⟩ := row
      have hamount : ¬ shval.amount > maxMoney := not_lt.mpr (hmoney _ List.mem_cons_self)
      obtain ⟨hok, herr⟩ := @ih
        (fun row' hrow' => hmoney row' (List.mem_cons_of_mem _ hrow')) (ctr + 1)
      rw [List.length_cons]
      rcases le_or_gt (ctr + 1) opts.maxHistory with hfit | hover
      · have hinc := (incrementUnspentCtr_eq opts hx ctr 1).1 hfit
        rw [scanUnspent, hinc]
        constructor
        · intro hle
          simp [bind, Except.bind, hamount, hok (by omega), shouldTokenFilter]
        · intro _ hover
          obtain ⟨e, he⟩ := herr hfit (by omega)
          exact ⟨e, by simp [bind, Except.bind, hamount, he]⟩
      · refine ⟨fun hle => absurd hle (by omega), fun _ _ => ?_⟩
        obtain ⟨e, he⟩ := (incrementUnspentCtr_eq opts hx ctr 1).2 hover
        refine ⟨e, ?_⟩
        rw [scanUnspent, he]
        rfl

end Loops

/-! ## Token filters -/

section Filters

variable {opts : Options} {s : State} {hx : HashX}

/-- The token filter lets the output through. -/
def keeps (tokenFilter : TokenFilterOption) (p : Option TokenData) : Bool :=
  !shouldTokenFilter tokenFilter p

@[simp] theorem shouldTokenFilter_includeTokens (p : Option TokenData) :
    shouldTokenFilter .includeTokens p = false := rfl

@[simp] theorem keeps_includeTokens (p : Option TokenData) : keeps .includeTokens p = true := rfl

/-- The items that a token filter lets through. -/
def keptItems (tokenFilter : TokenFilterOption) (items : List UnspentItem) : List UnspentItem :=
  items.filter fun item => keeps tokenFilter item.tokenDataPtr

@[simp] theorem keptItems_includeTokens (items : List UnspentItem) :
    keptItems .includeTokens items = items := by simp [keptItems]

/-- The loop with the items that a token filter lets through. -/
def UnspentLoop.kept (tokenFilter : TokenFilterOption) (loop : UnspentLoop) : UnspentLoop :=
  { loop with ret := keptItems tokenFilter loop.ret }

theorem unspentItem_filter (tokenFilter : TokenFilterOption) (tx : Tx) (n : Nat) :
    unspentItem s tokenFilter tx n = (unspentItem s .includeTokens tx n).filter fun item =>
      keeps tokenFilter item.tokenDataPtr := by
  rw [unspentItem, unspentItem]
  cases tx.txos[n]?.join with
  | none => rfl
  | some info =>
      by_cases h : shouldTokenFilter tokenFilter info.tokenDataPtr = true
      · simp [h, keeps, Option.filter]
      · simp [h, keeps, Option.filter]

theorem unspentOfTx_filter (tokenFilter : TokenFilterOption) (tx : Tx) (ioinfo : IOInfo) :
    unspentOfTx s tokenFilter tx ioinfo =
      keptItems tokenFilter (unspentOfTx s .includeTokens tx ioinfo) := by
  rw [keptItems, unspentOfTx, unspentOfTx, List.filter_filterMap]
  exact congrArg (List.filterMap · _) (funext (unspentItem_filter tokenFilter tx))

/-- The part about the mempool throws at the same place under every filter. -/
theorem unconfirmedUnspent_filter (tokenFilter : TokenFilterOption) (loop : UnspentLoop)
    (txvec : List TxHash) :
    unconfirmedUnspent opts s hx tokenFilter (loop.kept tokenFilter) txvec =
      ((unconfirmedUnspent opts s hx .includeTokens loop txvec).map
        (UnspentLoop.kept tokenFilter)).mapError (keptItems tokenFilter) := by
  induction txvec generalizing loop with
  | nil => rfl
  | cons h txvec ih =>
      rw [unconfirmedUnspent, unconfirmedUnspent]
      cases htx : s.mempool.txs[h]? with
      | none => exact ih loop
      | some tx =>
          simp only
          cases hio : tx.hashXs[hx]? with
          | none => exact ih loop
          | some ioinfo =>
              have hctr : (loop.kept tokenFilter).ctr = loop.ctr := rfl
              simp only [hctr]
              cases incrementUnspentCtr opts hx loop.ctr ioinfo.utxo.size with
              | error e => rfl
              | ok ctr =>
                  simp only
                  rw [← ih, unspentOfTx_filter tokenFilter]
                  simp only [UnspentLoop.kept, keptItems, List.filter_append]

theorem scanUnspent_filter (tokenFilter : TokenFilterOption) (ctr : Nat)
    (rows : List (ShunspentKey × SHUnspentValue)) :
    scanUnspent opts hx tokenFilter ctr rows =
      (scanUnspent opts hx .includeTokens ctr rows).map
        (List.filter fun e => keeps tokenFilter e.2.tokenDataPtr) := by
  induction rows generalizing ctr with
  | nil => rfl
  | cons row rows ih =>
      obtain ⟨key, shval⟩ := row
      rw [scanUnspent, scanUnspent]
      cases incrementUnspentCtr opts hx ctr 1 with
      | error e => rfl
      | ok ctr' =>
          simp only [bind, Except.bind]
          by_cases hamount : shval.amount > maxMoney
          · simp only [if_pos hamount, Except.map]
          · simp only [if_neg hamount, ih]
            cases scanUnspent opts hx .includeTokens ctr' rows with
            | error e => rfl
            | ok ctxoVec =>
                by_cases h : shouldTokenFilter tokenFilter shval.tokenDataPtr = true
                · simp [Except.map, h, keeps]
                · simp [Except.map, h, keeps]

/-- Lookups that succeed for all rows succeed for those that a filter lets through. -/
theorem confirmedUnspent_filter (tokenFilter : TokenFilterOption)
    {spends : Std.ExtTreeSet TXO compare} {ctxoVec : List (CompactTXO × SHUnspentValue)}
    {items : List UnspentItem} (h : confirmedUnspent s spends ctxoVec = (items, true)) :
    confirmedUnspent s spends (ctxoVec.filter fun e => keeps tokenFilter e.2.tokenDataPtr) =
      (keptItems tokenFilter items, true) := by
  induction ctxoVec generalizing items with
  | nil =>
      cases h
      rfl
  | cons e ctxoVec ih =>
      obtain ⟨ctxo, shval⟩ := e
      rw [confirmedUnspent] at h
      cases hhash : hashForTxNum s ctxo.txNum with
      | none => simp [hhash] at h
      | some hash =>
          cases hheight : heightForTxNum s ctxo.txNum with
          | none => simp [hhash, hheight] at h
          | some height =>
              obtain ⟨⟨rest, ok⟩, hrest⟩ : ∃ e, confirmedUnspent s spends ctxoVec = e := ⟨_, rfl⟩
              simp only [hhash, hheight, hrest] at h
              by_cases hspent : (⟨hash, ctxo.n⟩ : TXO) ∈ spends
              · rw [if_pos hspent, Prod.mk.injEq] at h
                obtain ⟨rfl, rfl⟩ := h
                by_cases hkeep : keeps tokenFilter shval.tokenDataPtr = true
                · rw [List.filter_cons, if_pos hkeep, confirmedUnspent]
                  simp only [hhash, hheight, ih hrest, if_pos hspent]
                · rw [List.filter_cons, if_neg hkeep, ih hrest]
              · rw [if_neg hspent, Prod.mk.injEq] at h
                obtain ⟨rfl, rfl⟩ := h
                by_cases hkeep : keeps tokenFilter shval.tokenDataPtr = true
                · rw [List.filter_cons, if_pos hkeep, confirmedUnspent]
                  simp only [hhash, hheight, ih hrest, if_neg hspent, keptItems, List.filter_cons,
                    if_pos hkeep]
                · rw [List.filter_cons, if_neg hkeep, ih hrest, keptItems, keptItems,
                    List.filter_cons, if_neg hkeep]

end Filters

end Storage
end Shulcrum
