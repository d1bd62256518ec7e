import Shulcrum.Mempool.AddOutputs

/-!
# Second pass of `addNewTxs`

The inputs of the new transactions are added one by one.  Each input adds a
spend to the spender's record, and for a spend of a mempool output it also
takes the output from the parent and links the two.  `AddInv.addInput` says
that one input takes a mempool of the pool `P` to a mempool of the pool with
this input added; an input succeeds exactly if it refers to a valid output.
-/

namespace Shulcrum

open BTC SortUnique TreeMap

namespace Tx

/-- The spender's side of a spend: its entry of the script hash, parents and fee. -/
def spend (tx : Tx) (info : TXOInfo) (f : IOInfo → IOInfo) (parents : HashSet) : Tx :=
  { tx.updIo info.hashX f with parents := parents, fee := tx.fee + info.amount }

/-- The parent's side of a spend. -/
def markSpent (tx : Tx) (sh : HashX) (outN : Nat) (child : TxHash) : Tx :=
  { tx.modifyIo sh fun io => { io with utxo := io.utxo.erase outN } with
    children := tx.children.insert child }

/-- Add a prefix if there is one. -/
def addRpaPrefix? (tx : Tx) (pfx : Option UInt16) : Tx :=
  match pfx with
  | none => tx
  | some p => tx.addRpaPrefix p

theorem io_markSpent {tx : Tx} {sh sh' : HashX} {outN : Nat} {child : TxHash}
    (hsh : sh ∈ tx.hashXs) :
    (tx.markSpent sh outN child).io sh' =
      if sh = sh' then { tx.io sh' with utxo := (tx.io sh').utxo.erase outN } else tx.io sh' :=
  io_modifyIo hsh

theorem io_spend {tx : Tx} {info : TXOInfo} {f : IOInfo → IOInfo} {parents : HashSet}
    {sh : HashX} :
    (tx.spend info f parents).io sh = if info.hashX = sh then f (tx.io sh) else tx.io sh :=
  io_updIo

@[simp] theorem io_addRpaPrefix? {tx : Tx} {pfx : Option UInt16} {sh : HashX} :
    (tx.addRpaPrefix? pfx).io sh = tx.io sh := by
  cases pfx <;> rfl

/-- Both sides of a spend of an own output, in either order. -/
theorem modifyIo_updIo_comm {tx : Tx} {sh : HashX} (hsh : sh ∈ tx.hashXs) {f g : IOInfo → IOInfo}
    (hfg : ∀ io, g (f io) = f (g io)) :
    (tx.updIo sh f).modifyIo sh g = (tx.modifyIo sh g).updIo sh f := by
  have hmap : ((tx.updIo sh f).modifyIo sh g).hashXs = ((tx.modifyIo sh g).updIo sh f).hashXs := by
    apply Std.ExtTreeMap.ext_getElem?
    intro sh'
    simp only [updIo, modifyIo, get_modify, get_alter]
    split_ifs with h
    · subst h
      obtain ⟨io, hio⟩ := mem_iff_getElem?.mp hsh
      simp [hio, hfg]
    · rfl
  simp only [updIo, modifyIo] at hmap ⊢
  rw [hmap]

end Tx

namespace NewTx

variable {H : Hashers}

/-- The prefix recorded for the next input of a transaction. -/
def nextPrefix (H : Hashers) (rpa : Bool) (nt : NewTx) (input : CTxIn) : Option UInt16 :=
  if rpa ∧ nt.ctx.vin.length < rpaInputIndexLimit then some (H.rpaPrefix input) else none

theorem mem_rpaPrefixes_addVin {rpa : Bool} (hrpa : rpa = true) {nt : NewTx} {input : CTxIn}
    {p : UInt16} :
    p ∈ (nt.addVin input).rpaPrefixes H ↔
      p ∈ nt.rpaPrefixes H ∨ nt.nextPrefix H rpa input = some p := by
  simp only [rpaPrefixes, nextPrefix, addVin, hrpa, true_and]
  rw [List.take_append]
  by_cases hlen : nt.ctx.vin.length < rpaInputIndexLimit
  · have hpos : 1 ≤ rpaInputIndexLimit - nt.ctx.vin.length := by omega
    rw [if_pos hlen, List.take_of_length_le (l := [input]) hpos]
    simp [eq_comm]
  · have hzero : rpaInputIndexLimit - nt.ctx.vin.length = 0 := by omega
    rw [if_neg hlen, hzero]
    simp

end NewTx

namespace Pool

variable {H : Hashers} {P : Pool} {db : TXO → Option TXOInfo} {nt : NewTx} {input : CTxIn}
  {info : TXOInfo}

theorem inSum_addVin (hinfo : P.prevInfo H db input.prevout = some info) :
    P.inSum H db (nt.addVin input) = P.inSum H db nt + info.amount := by
  simp [inSum, hinfo]

theorem touches_addVin (hinfo : P.prevInfo H db input.prevout = some info) {sh : HashX} :
    P.Touches H db (nt.addVin input) sh ↔ P.Touches H db nt sh ∨ sh = info.hashX := by
  unfold Touches
  simp only [NewTx.outAt_addVin, NewTx.prevouts_addVin, List.mem_append, List.mem_singleton,
    or_and_right, exists_or, exists_eq_left, hinfo, Option.some.injEq, exists_eq_left']
  rw [or_assoc, eq_comm (a := info.hashX)]

theorem prevInfo_grow (h : TxHash) (i : CTxIn) (txo : TXO) :
    (P.grow h i).prevInfo H db txo = P.prevInfo H db txo :=
  ((outsAgree_grow h i txo.txHash).prevInfo fun _ => rfl).symm

theorem touches_grow {h : TxHash} {i : CTxIn} {sh : HashX} :
    (P.grow h i).Touches H db nt sh ↔ P.Touches H db nt sh := by
  unfold Touches
  simp only [prevInfo_grow]

theorem Keyed.grow (hP : P.Keyed) (h : TxHash) (i : CTxIn) : (P.grow h i).Keyed := by
  intro g q' hq'
  obtain ⟨q, hq, rfl⟩ := grow_eq_some.mp hq'
  split_ifs
  · exact hP g q hq
  · exact hP g q hq

/-- Other transactions do not see a new input that spends from elsewhere. -/
theorem agree_grow {h : TxHash} (hP : P h ≠ none) {i : CTxIn} (hne : nt.hash ≠ i.prevout.txHash) :
    Agree H P (P.grow h i) db db nt where
  outs txo _ := outsAgree_grow h i txo.txHash
  db_eq _ _ _ := rfl
  spent n := by
    rw [spent_grow hP]
    have hn : (⟨nt.hash, n⟩ : TXO) ≠ i.prevout := fun e => hne (by rw [← e])
    exact ⟨.inl, fun hor => hor.resolve_right hn⟩
  spends c := by
    rw [spends_grow hP]
    exact ⟨.inl, fun hor => hor.resolve_right fun e => hne e.2⟩

end Pool

namespace Mempool

variable {H : Hashers} {rpa : Bool} {P : Pool} {db : TXO → Option TXOInfo} {nt : NewTx} {tx : Tx}
  {input : CTxIn} {info : TXOInfo}

/-- The spender's record after one more input. -/
theorem TxRep.addVin (h : TxRep H rpa P db nt tx)
    (hinfo : P.prevInfo H db input.prevout = some info) {f : IOInfo → IOInfo} {parents : HashSet}
    (hutxo : ∀ io, (f io).utxo = io.utxo)
    (hconf : ∀ txo i, (f (tx.io info.hashX)).confirmedSpends[txo]? = some i ↔
      (tx.io info.hashX).confirmedSpends[txo]? = some i ∨
        (txo = input.prevout ∧ P txo.txHash = none ∧ i = info))
    (hunconf : ∀ txo i, (f (tx.io info.hashX)).unconfirmedSpends[txo]? = some i ↔
      (tx.io info.hashX).unconfirmedSpends[txo]? = some i ∨
        (txo = input.prevout ∧ P txo.txHash ≠ none ∧ i = info))
    (hparents : ∀ p, p ∈ parents ↔ p ∈ tx.parents ∨ (P p ≠ none ∧ p = input.prevout.txHash)) :
    TxRep H rpa P db (nt.addVin input)
      ((tx.spend info f parents).addRpaPrefix? (nt.nextPrefix H rpa input)) where
  hash := by
    rw [NewTx.hash_addVin, ← h.hash]
    cases nt.nextPrefix H rpa input <;> rfl
  sizeBytes := by
    rw [show (nt.addVin input).sizeBytes = nt.sizeBytes from rfl, ← h.sizeBytes]
    cases nt.nextPrefix H rpa input <;> rfl
  vsizeBytes := by
    rw [show (nt.addVin input).vsizeBytes = nt.vsizeBytes from rfl, ← h.vsizeBytes]
    cases nt.nextPrefix H rpa input <;> rfl
  txos := by
    rw [show (nt.addVin input).outInfos H = nt.outInfos H from rfl, ← h.txos]
    cases nt.nextPrefix H rpa input <;> rfl
  fee := by
    have hfee : ((tx.spend info f parents).addRpaPrefix? (nt.nextPrefix H rpa input)).fee =
        tx.fee + info.amount := by
      cases nt.nextPrefix H rpa input <;> rfl
    rw [hfee, h.fee, Pool.inSum_addVin hinfo, show (nt.addVin input).outSum = nt.outSum from rfl]
    push_cast
    omega
  mem_hashXs sh := by
    have hkeys : ((tx.spend info f parents).addRpaPrefix? (nt.nextPrefix H rpa input)).hashXs =
        (tx.updIo info.hashX f).hashXs := by
      cases nt.nextPrefix H rpa input <;> rfl
    rw [hkeys, Tx.mem_updIo, Pool.touches_addVin hinfo, h.mem_hashXs, or_comm]
  conf sh txo i := by
    rw [Tx.io_addRpaPrefix?, Tx.io_spend, NewTx.prevouts_addVin, List.mem_append,
      List.mem_singleton, or_and_right, ← h.conf sh txo i]
    split_ifs with hsh
    · subst hsh
      rw [hconf]
      refine or_congr_right ?_
      constructor
      · rintro ⟨rfl, hnone, rfl⟩
        rw [Pool.prevInfo_of_none hnone] at hinfo
        exact ⟨rfl, hnone, hinfo, rfl⟩
      · rintro ⟨rfl, hnone, hdb, -⟩
        rw [Pool.prevInfo_of_none hnone, hdb, Option.some.injEq] at hinfo
        exact ⟨rfl, hnone, hinfo⟩
    · refine ⟨.inl, fun hor => hor.resolve_right ?_⟩
      rintro ⟨rfl, hnone, hdb, rfl⟩
      rw [Pool.prevInfo_of_none hnone, hdb, Option.some.injEq] at hinfo
      exact hsh (by rw [hinfo])
  unconf sh txo i := by
    rw [Tx.io_addRpaPrefix?, Tx.io_spend, NewTx.prevouts_addVin, List.mem_append,
      List.mem_singleton, or_and_right, ← h.unconf sh txo i]
    split_ifs with hsh
    · subst hsh
      rw [hunconf]
      refine or_congr_right ?_
      constructor
      · rintro ⟨rfl, hne, rfl⟩
        obtain ⟨p, hp⟩ := Option.ne_none_iff_exists'.mp hne
        rw [Pool.prevInfo_of_some hp] at hinfo
        exact ⟨rfl, ⟨p, hp, hinfo⟩, rfl⟩
      · rintro ⟨rfl, ⟨p, hp, hout⟩, -⟩
        rw [Pool.prevInfo_of_some hp, hout, Option.some.injEq] at hinfo
        exact ⟨rfl, by simp [hp], hinfo⟩
    · refine ⟨.inl, fun hor => hor.resolve_right ?_⟩
      rintro ⟨rfl, ⟨p, hp, hout⟩, rfl⟩
      rw [Pool.prevInfo_of_some hp, hout, Option.some.injEq] at hinfo
      exact hsh (by rw [hinfo])
  utxo sh n := by
    rw [Tx.io_addRpaPrefix?, Tx.io_spend, NewTx.hash_addVin]
    simp only [NewTx.outAt_addVin]
    rw [← h.utxo sh n]
    split_ifs
    · rw [hutxo]
    · rfl
  parents p := by
    have hp : ((tx.spend info f parents).addRpaPrefix? (nt.nextPrefix H rpa input)).parents =
        parents := by
      cases nt.nextPrefix H rpa input <;> rfl
    rw [hp, hparents, h.parents]
    simp only [NewTx.prevouts_addVin, List.mem_append, List.mem_singleton, or_and_right, exists_or,
      exists_eq_left, ← and_or_left]
    rw [eq_comm (a := p)]
  children c := by
    rw [NewTx.hash_addVin, ← h.children]
    cases nt.nextPrefix H rpa input <;> rfl
  rpaNone := by
    have hvin : (nt.addVin input).ctx.vin ≠ [] := by simp [NewTx.addVin]
    cases hpfx : nt.nextPrefix H rpa input with
    | none =>
        have hlong : rpa = true → ¬ nt.ctx.vin.length < rpaInputIndexLimit := by
          intro hrpa hlen
          simp [NewTx.nextPrefix, hrpa, hlen] at hpfx
        have hnil : rpa = true → nt.ctx.vin ≠ [] := by
          intro hrpa he
          exact hlong hrpa (by rw [he]; decide)
        refine h.rpaNone.trans ⟨fun hor => .inl ?_, fun hor => .inl (hor.resolve_right hvin)⟩
        cases rpa with
        | false => rfl
        | true => exact absurd (hor.resolve_left (by simp)) (hnil rfl)
    | some p =>
        have hrpa : rpa = true := by
          by_contra hr
          simp [NewTx.nextPrefix, hr] at hpfx
        simp [Tx.addRpaPrefix?, Tx.addRpaPrefix, hrpa, hvin]
  rpaSome s hs p := by
    have hrpa : rpa = true := by
      by_contra hr
      have hnone := h.rpaNone.mpr (.inl (Bool.eq_false_iff.mpr hr))
      have hpfx : nt.nextPrefix H rpa input = none := by simp [NewTx.nextPrefix, hr]
      rw [hpfx] at hs
      cases hnone.symm.trans hs
    rw [NewTx.mem_rpaPrefixes_addVin hrpa]
    cases hpfx : nt.nextPrefix H rpa input with
    | none =>
        rw [hpfx] at hs
        rw [h.rpaSome s hs]
        simp
    | some p' =>
        rw [hpfx] at hs
        simp only [Tx.addRpaPrefix?, Tx.addRpaPrefix, Option.some.injEq] at hs
        subst hs
        rw [mem_set_insert, Option.some.injEq, eq_comm (a := p'), or_comm]
        refine or_congr_left ?_
        have hsame : (tx.spend info f parents).optRpaPrefixSet = tx.optRpaPrefixSet := rfl
        rw [hsame]
        cases hset : tx.optRpaPrefixSet with
        | none =>
            have hvin := (h.rpaNone.mp hset).resolve_left (by simp [hrpa])
            simp [NewTx.rpaPrefixes, hvin]
        | some s => exact h.rpaSome s hset p

/-- The parent's record after one of its outputs is spent. -/
theorem TxRep.markSpent (h : TxRep H rpa P db nt tx) {hash : TxHash} (hP : P hash ≠ none)
    (hprev : input.prevout.txHash = nt.hash) (hout : nt.outAt H input.prevout.outN = some info) :
    TxRep H rpa (P.grow hash input) db nt
      (tx.markSpent info.hashX input.prevout.outN hash) := by
  have hsh : info.hashX ∈ tx.hashXs := (h.mem_hashXs _).mpr (.inl ⟨_, info, hout, rfl⟩)
  have hconf : ∀ sh, ((tx.markSpent info.hashX input.prevout.outN hash).io sh).confirmedSpends =
      (tx.io sh).confirmedSpends := by
    intro sh
    rw [Tx.io_markSpent hsh]
    split_ifs <;> rfl
  have hunconf : ∀ sh,
      ((tx.markSpent info.hashX input.prevout.outN hash).io sh).unconfirmedSpends =
        (tx.io sh).unconfirmedSpends := by
    intro sh
    rw [Tx.io_markSpent hsh]
    split_ifs <;> rfl
  have houts := fun g => Pool.outsAgree_grow (H := H) (P := P) hash input g
  exact
    { hash := h.hash
      sizeBytes := h.sizeBytes
      vsizeBytes := h.vsizeBytes
      txos := h.txos
      fee := by
        rw [Pool.inSum]
        simp only [Pool.prevInfo_grow]
        exact h.fee
      mem_hashXs := fun sh => by
        rw [Pool.touches_grow, ← h.mem_hashXs]
        exact Tx.mem_modifyIo
      conf := fun sh txo i => by
        rw [hconf, h.conf, (houts txo.txHash).none_iff]
      unconf := fun sh txo i => by
        rw [hunconf, h.unconf]
        refine and_congr_right fun _ => and_congr_left fun _ => ?_
        exact ⟨(houts txo.txHash).exists_outAt, (houts txo.txHash).symm.exists_outAt⟩
      utxo := fun sh n => by
        have hself : (⟨nt.hash, n⟩ : TXO) = input.prevout ↔ n = input.prevout.outN := by
          rw [← hprev]
          constructor
          · intro e
            rw [← e]
          · rintro rfl
            rfl
        rw [Pool.spent_grow hP, not_or, hself, ← and_assoc, ← h.utxo, Tx.io_markSpent hsh]
        split_ifs with hsh'
        · rw [mem_set_erase, and_comm]
        · refine ⟨fun hn => ⟨hn, ?_⟩, fun hn => hn.1⟩
          -- an output has only one script hash
          rintro rfl
          obtain ⟨⟨i, hi, hish⟩, -⟩ := (h.utxo sh _).mp hn
          rw [hout, Option.some.injEq] at hi
          exact hsh' (by rw [hi, hish])
      parents := fun p => by
        refine (h.parents p).trans (and_congr_left fun _ => not_congr ?_)
        exact (houts p).none_iff
      children := fun c => by
        rw [Pool.spends_grow hP, ← h.children, hprev]
        refine mem_set_insert.trans ?_
        rw [or_comm]
        simp
      rpaNone := h.rpaNone
      rpaSome := h.rpaSome }

theorem get_addInputRpa {mp : Mempool} (hrpa : mp.optPrefixTable.isSome = rpa) {hash g : TxHash} :
    (addInputRpa H hash nt.ctx.vin.length input mp).txs[g]? =
      if hash = g then mp.txs[g]?.map (·.addRpaPrefix? (nt.nextPrefix H rpa input))
      else mp.txs[g]? := by
  unfold addInputRpa
  cases ht : mp.optPrefixTable with
  | none =>
      have hfalse : rpa = false := by rw [← hrpa, ht]; rfl
      simp [NewTx.nextPrefix, hfalse, Tx.addRpaPrefix?]
  | some t =>
      have htrue : rpa = true := by rw [← hrpa, ht]; rfl
      by_cases hlen : nt.ctx.vin.length < rpaInputIndexLimit
      · simp [NewTx.nextPrefix, htrue, hlen, Tx.addRpaPrefix?, get_modify]
      · simp [NewTx.nextPrefix, htrue, hlen, Tx.addRpaPrefix?]

theorem addInputRpa_frame {mp : Mempool} {hash : TxHash} {inNum : Nat} :
    addInputRpa H hash inNum input mp =
      { mp with
        txs := (addInputRpa H hash inNum input mp).txs
        optPrefixTable := (addInputRpa H hash inNum input mp).optPrefixTable } := by
  unfold addInputRpa
  split
  · rfl
  · split_ifs <;> rfl

theorem TableRep.isSome {t : Option MempoolPrefixTable} (h : TableRep H rpa P t) :
    t.isSome = rpa := by
  cases rpa with
  | false => rw [h.1 rfl]; rfl
  | true =>
      obtain ⟨t, rfl, -⟩ := h.2 rfl
      rfl

/-- The prefix table after one more input. -/
theorem TableRep.grow {mp : Mempool} (h : TableRep H rpa P mp.optPrefixTable) {hash : TxHash}
    (hP : P hash = some nt) :
    TableRep H rpa (P.grow hash input)
      (addInputRpa H hash nt.ctx.vin.length input mp).optPrefixTable := by
  constructor
  · intro hrpa
    simp [addInputRpa, h.1 hrpa]
  · intro hrpa
    obtain ⟨t, ht, hmem⟩ := h.2 hrpa
    have hgrow : ∀ p g, (∃ q, P.grow hash input g = some q ∧ p ∈ q.rpaPrefixes H) ↔
        (p, g) ∈ t ∨ (g = hash ∧ nt.nextPrefix H rpa input = some p) := by
      intro p g
      rw [hmem]
      constructor
      · rintro ⟨q', hq', hp⟩
        obtain ⟨q, hq, rfl⟩ := Pool.grow_eq_some.mp hq'
        split_ifs at hp with hg
        · subst hg
          rw [hP, Option.some.injEq] at hq
          subst hq
          rcases (NewTx.mem_rpaPrefixes_addVin hrpa).mp hp with hp | hp
          · exact .inl ⟨_, hP, hp⟩
          · exact .inr ⟨rfl, hp⟩
        · exact .inl ⟨q, hq, hp⟩
      · rintro (⟨q, hq, hp⟩ | ⟨rfl, hp⟩)
        · refine ⟨_, Pool.grow_eq_some.mpr ⟨q, hq, rfl⟩, ?_⟩
          split_ifs
          · exact (NewTx.mem_rpaPrefixes_addVin hrpa).mpr (.inl hp)
          · exact hp
        · refine ⟨_, Pool.grow_eq_some.mpr ⟨nt, hP, rfl⟩, ?_⟩
          rw [if_pos rfl]
          exact (NewTx.mem_rpaPrefixes_addVin hrpa).mpr (.inr hp)
    by_cases hlen : nt.ctx.vin.length < rpaInputIndexLimit
    · refine ⟨insert (H.rpaPrefix input, hash) t, by simp [addInputRpa, ht, hlen], fun p g => ?_⟩
      rw [hgrow]
      simp only [Finset.mem_insert, NewTx.nextPrefix, hrpa, hlen, and_self, if_true,
        Option.some.injEq, Prod.mk.injEq]
      rw [or_comm, and_comm, eq_comm (a := p)]
    · refine ⟨t, by simp [addInputRpa, ht, hlen], fun p g => ?_⟩
      rw [hgrow]
      simp [NewTx.nextPrefix, hlen]

/-- A mempool of the pool with one more input, from its records. -/
theorem Content.grow {mp : Mempool} (h : Content H rpa P db mp) {hash : TxHash}
    (hP : P hash = some nt) (hinfo : P.prevInfo H db input.prevout = some info) {txs : TxMap}
    (habsent : ∀ g, P g = none → txs[g]? = none)
    (hpresent : ∀ g q, P g = some q → ∃ tx, txs[g]? = some tx ∧
      TxRep H rpa (P.grow hash input) db (if g = hash then q.addVin input else q) tx)
    {table : Option MempoolPrefixTable} (htable : TableRep H rpa (P.grow hash input) table) :
    Content H rpa (P.grow hash input) db
      { mp with
        txs := txs
        hashXTxs := pushTx mp.hashXTxs info.hashX hash
        optPrefixTable := table } where
  absent g hg := habsent g (by simpa [Pool.grow] using hg)
  present g q' hq' := by
    obtain ⟨q, hq, rfl⟩ := Pool.grow_eq_some.mp hq'
    exact hpresent g q hq
  mem_hashXTxs sh g := by
    rw [mem_pushTx, h.mem_hashXTxs]
    constructor
    · rintro (⟨q, hq, htouch⟩ | ⟨rfl, rfl⟩)
      · refine ⟨_, Pool.grow_eq_some.mpr ⟨q, hq, rfl⟩, Pool.touches_grow.mpr ?_⟩
        split_ifs
        · exact (Pool.touches_addVin hinfo).mpr (.inl htouch)
        · exact htouch
      · refine ⟨_, Pool.grow_eq_some.mpr ⟨nt, hP, rfl⟩, Pool.touches_grow.mpr ?_⟩
        rw [if_pos rfl]
        exact (Pool.touches_addVin hinfo).mpr (.inr rfl)
    · rintro ⟨q', hq', htouch⟩
      obtain ⟨q, hq, rfl⟩ := Pool.grow_eq_some.mp hq'
      rw [Pool.touches_grow] at htouch
      split_ifs at htouch with hg
      · rcases (Pool.touches_addVin hinfo).mp htouch with htouch | hsh
        · exact .inl ⟨q, hq, htouch⟩
        · exact .inr ⟨hsh, hg⟩
      · exact .inl ⟨q, hq, htouch⟩
  ne_nil := pushTx_ne_nil h.ne_nil
  table := htable
  dsps := h.dsps

/-- What an input does to the records, apart from fee and prefixes. -/
def spendOn (hash : TxHash) (prev : TXO) (info : TXOInfo) (g : TxHash) (tx : Tx) : Tx :=
  let tx := if hash = g then tx.updIo info.hashX fun io =>
      { io with unconfirmedSpends := io.unconfirmedSpends.insert prev info } else tx
  let tx := if prev.txHash = g then tx.markSpent info.hashX prev.outN hash else tx
  if hash = g then { tx with parents := tx.parents.insert prev.txHash } else tx

theorem spendUnconfirmed_ok (hash : TxHash) {txs : TxMap} {prev : TXO} {prevTx : Tx}
    (hget : txs[prev.txHash]? = some prevTx) (hsh : info.hashX ∈ prevTx.hashXs) :
    ∃ txs', spendUnconfirmed hash prev info txs = .ok txs' ∧
      ∀ g, txs'[g]? = txs[g]?.map (spendOn hash prev info g) := by
  have hcheck : ((txs.modify hash fun tx => tx.updIo info.hashX fun io =>
      { io with unconfirmedSpends := io.unconfirmedSpends.insert prev info })[prev.txHash]?.any
        fun prevTx => info.hashX ∈ prevTx.hashXs) = true := by
    rw [get_modify, hget]
    split_ifs
    · simp only [Option.map_some, Option.any_some, decide_eq_true_eq]
      exact Tx.mem_updIo.mpr (.inl rfl)
    · simpa using hsh
  refine ⟨_, by unfold spendUnconfirmed; rw [if_pos hcheck], fun g => ?_⟩
  simp only [linkChild, get_modify]
  cases txs[g]? with
  | none => simp
  | some tx =>
      by_cases hg : hash = g <;> by_cases hp : prev.txHash = g <;>
        simp [spendOn, hg, hp, Tx.markSpent, Tx.modifyIo, Tx.updIo]

/-- The spender's record in terms of the two sides of the spend. -/
theorem spendOn_self {hash : TxHash} {prev : TXO} {tx : Tx}
    (hsh : prev.txHash = hash → info.hashX ∈ tx.hashXs) :
    { spendOn hash prev info hash tx with
      fee := (spendOn hash prev info hash tx).fee + info.amount } =
      (if prev.txHash = hash then tx.markSpent info.hashX prev.outN hash else tx).spend info
        (fun io => { io with unconfirmedSpends := io.unconfirmedSpends.insert prev info })
        (tx.parents.insert prev.txHash) := by
  by_cases hp : prev.txHash = hash
  · have hcomm := Tx.modifyIo_updIo_comm (hsh hp)
      (f := fun io => { io with unconfirmedSpends := io.unconfirmedSpends.insert prev info })
      (g := fun io => { io with utxo := io.utxo.erase prev.outN }) (fun _ => rfl)
    simp only [spendOn, if_pos hp, if_true, Tx.markSpent, Tx.spend, hcomm]
    rfl
  · simp only [spendOn, if_neg hp, if_true, Tx.spend]
    rfl

theorem addInputDsps_eq {isNew : TxHash → Bool} {hash prev : TxHash} {s : AddState}
    (h : s.mp.dsps = {}) : addInputDsps isNew hash prev s = s := by
  simp [addInputDsps, h]

/-- The end of the input loop body, for records that have the spend already. -/
theorem AddInv.finishInput {m : HashXTxMap} {s : AddState} (h : AddInv H rpa P db m s)
    {hash : TxHash} (hP : P hash = some nt) (hinfo : P.prevInfo H db input.prevout = some info)
    {txs : TxMap} (habsent : ∀ g, P g = none → txs[g]? = none)
    (hother : ∀ g q, P g = some q → g ≠ hash → ∃ tx, txs[g]? = some tx ∧
      TxRep H rpa (P.grow hash input) db q tx)
    (hself : ∃ tx, txs[hash]? = some tx ∧ TxRep H rpa (P.grow hash input) db (nt.addVin input)
      (Tx.addRpaPrefix? { tx with fee := tx.fee + info.amount } (nt.nextPrefix H rpa input))) :
    AddInv H rpa (P.grow hash input) db m
      (finishInput H hash nt.ctx.vin.length input info
        { s with mp := { s.mp with txs := txs } }) := by
  let mp' : Mempool := { s.mp with
    txs := txs.modify hash fun tx => { tx with fee := tx.fee + info.amount }
    hashXTxs := pushTx s.mp.hashXTxs info.hashX hash }
  have htable : TableRep H rpa P mp'.optPrefixTable := h.content.table
  have hget : ∀ g, (addInputRpa H hash nt.ctx.vin.length input mp').txs[g]? =
      if hash = g then mp'.txs[g]?.map (·.addRpaPrefix? (nt.nextPrefix H rpa input))
      else mp'.txs[g]? := fun g => get_addInputRpa htable.isSome
  have hmp' : ∀ g, mp'.txs[g]? =
      if hash = g then txs[g]?.map fun tx => { tx with fee := tx.fee + info.amount }
      else txs[g]? := fun g => get_modify
  have hcontent : Content H rpa (P.grow hash input) db
      (addInputRpa H hash nt.ctx.vin.length input mp') := by
    rw [addInputRpa_frame]
    refine h.content.grow hP hinfo ?_ ?_ (TableRep.grow htable hP)
    · intro g hg
      have hne : hash ≠ g := by
        rintro rfl
        simp [hP] at hg
      rw [hget, if_neg hne, hmp', if_neg hne]
      exact habsent g hg
    · intro g q hq
      rw [hget, hmp']
      by_cases hg : hash = g
      · subst hg
        rw [hP, Option.some.injEq] at hq
        subst hq
        obtain ⟨tx, htx, hrep⟩ := hself
        simp only [if_true, htx, Option.map_some]
        exact ⟨_, rfl, hrep⟩
      · rw [if_neg hg, if_neg hg, if_neg (Ne.symm hg)]
        exact hother g q hq (Ne.symm hg)
  refine ⟨hcontent, h.keyed.grow hash input, h.dspTxs, fun sh hsh => ?_⟩
  simp only [Mempool.finishInput, mem_set_insert, not_or] at hsh ⊢
  rw [addInputRpa_frame]
  exact (get_pushTx_of_ne hsh.1).trans (h.unaffected sh hsh.2)

/-- An input that spends a confirmed output. -/
theorem AddInv.addInput_confirmed {m : HashXTxMap} {s : AddState} (h : AddInv H rpa P db m s)
    {isNew : TxHash → Bool} {hash : TxHash} (hP : P hash = some nt)
    (hprev : P input.prevout.txHash = none) (hdb : db input.prevout = some info) :
    ∃ s', addInput H db isNew hash s nt.ctx.vin.length input = .ok s' ∧
      AddInv H rpa (P.grow hash input) db m s' := by
  have hne : ∀ g q, P g = some q → g ≠ input.prevout.txHash := by
    rintro g q hq rfl
    simp [hprev] at hq
  have hagree : ∀ g q, P g = some q → Pool.Agree H P (P.grow hash input) db db q := by
    intro g q hq
    refine Pool.agree_grow (by simp [hP]) ?_
    rw [h.keyed g q hq]
    exact hne g q hq
  have hinfo : P.prevInfo H db input.prevout = some info := by
    rw [Pool.prevInfo_of_none hprev, hdb]
  have hnone : P.grow hash input input.prevout.txHash = none :=
    (Pool.outsAgree_grow (H := H) hash input _).none_iff.mp hprev
  obtain ⟨tx, htx, hrep⟩ := h.content.present hash nt hP
  refine ⟨_, by simp only [addInput, h.content.absent _ hprev, hdb]; rfl, ?_⟩
  refine h.finishInput hP hinfo ?_ ?_ ?_
  · intro g hg
    rw [spendConfirmed, get_modify, h.content.absent g hg]
    simp
  · intro g q hq hg
    obtain ⟨tx', htx', hrep'⟩ := h.content.present g q hq
    rw [spendConfirmed, get_modify, if_neg (Ne.symm hg)]
    exact ⟨tx', htx', hrep'.congr (hagree g q hq)⟩
  · rw [spendConfirmed, get_modify, if_pos rfl, htx]
    refine ⟨_, rfl, ?_⟩
    have hinfo' : (P.grow hash input).prevInfo H db input.prevout = some info := by
      rw [Pool.prevInfo_grow, hinfo]
    refine TxRep.addVin (hrep.congr (hagree hash nt hP)) hinfo' (fun _ => rfl) ?_ ?_ ?_
    · intro txo i
      rw [get_insert]
      split_ifs with htxo
      · subst htxo
        simp only [hnone, true_and, Option.some.injEq]
        refine ⟨fun e => .inr e.symm, ?_⟩
        rintro (hold | rfl)
        · obtain ⟨-, -, hi, -⟩ := (hrep.conf _ _ _).mp hold
          rw [hdb, Option.some.injEq] at hi
          exact hi
        · rfl
      · exact ⟨.inl, fun hor => hor.resolve_right fun e => htxo e.1.symm⟩
    · intro txo i
      refine ⟨.inl, fun hor => hor.resolve_right ?_⟩
      rintro ⟨rfl, hn, -⟩
      exact hn hnone
    · intro p
      refine ⟨.inl, fun hor => hor.resolve_right ?_⟩
      rintro ⟨hn, rfl⟩
      exact hn hnone

/-- An input that spends an output of the pool. -/
theorem AddInv.addInput_unconfirmed {m : HashXTxMap} {s : AddState} (h : AddInv H rpa P db m s)
    {isNew : TxHash → Bool} {hash : TxHash} (hP : P hash = some nt) {p : NewTx}
    (hprev : P input.prevout.txHash = some p) (hout : p.outAt H input.prevout.outN = some info) :
    ∃ s', addInput H db isNew hash s nt.ctx.vin.length input = .ok s' ∧
      AddInv H rpa (P.grow hash input) db m s' := by
  have hPne : P hash ≠ none := by simp [hP]
  have hinfo : P.prevInfo H db input.prevout = some info := by
    rw [Pool.prevInfo_of_some hprev, hout]
  obtain ⟨tx, htx, hrep⟩ := h.content.present hash nt hP
  obtain ⟨ptx, hptx, hprep⟩ := h.content.present _ p hprev
  have hsh : info.hashX ∈ ptx.hashXs := (hprep.mem_hashXs _).mpr (.inl ⟨_, info, hout, rfl⟩)
  have hptxo : ptx.txos[input.prevout.outN]?.join = some info := by
    rw [hprep.txos]
    exact hout
  obtain ⟨txs, hspend, hget⟩ := spendUnconfirmed_ok hash hptx hsh
  refine ⟨_, by simp only [addInput, hptx, hptxo, hspend]; rfl, ?_⟩
  rw [addInputDsps_eq (by exact h.content.dsps)]
  -- the record of a transaction of the pool after the parent's side of the spend
  have hparent : ∀ g q tx, P g = some q → TxRep H rpa P db q tx →
      TxRep H rpa (P.grow hash input) db q
        (if input.prevout.txHash = g then tx.markSpent info.hashX input.prevout.outN hash
          else tx) := by
    intro g q tx hq hrep
    split_ifs with hg
    · subst hg
      rw [hprev, Option.some.injEq] at hq
      subst hq
      exact hrep.markSpent hPne (h.keyed _ _ hprev).symm hout
    · refine hrep.congr (Pool.agree_grow hPne ?_)
      rw [h.keyed g q hq]
      exact Ne.symm hg
  refine h.finishInput hP hinfo ?_ ?_ ?_
  · intro g hg
    rw [hget, h.content.absent g hg]
    rfl
  · intro g q hq hg
    obtain ⟨tx', htx', hrep'⟩ := h.content.present g q hq
    refine ⟨_, by rw [hget, htx']; rfl, ?_⟩
    simp only [spendOn, if_neg (Ne.symm hg)]
    exact hparent g q tx' hq hrep'
  · refine ⟨_, by rw [hget, htx]; rfl, ?_⟩
    have hown : input.prevout.txHash = hash → info.hashX ∈ tx.hashXs := by
      intro e
      rw [e, htx, Option.some.injEq] at hptx
      rw [hptx]
      exact hsh
    have hrep' := hparent hash nt tx hP hrep
    have hsome : P.grow hash input input.prevout.txHash ≠ none := by
      rw [ne_eq, ← (Pool.outsAgree_grow (H := H) hash input _).none_iff, hprev]
      simp
    have hparents : (if input.prevout.txHash = hash then
        tx.markSpent info.hashX input.prevout.outN hash else tx).parents = tx.parents := by
      split_ifs <;> rfl
    rw [spendOn_self hown, ← hparents]
    generalize (if input.prevout.txHash = hash then
      tx.markSpent info.hashX input.prevout.outN hash else tx) = tx' at hrep'
    refine hrep'.addVin (by rw [Pool.prevInfo_grow, hinfo]) (fun _ => rfl) ?_ ?_ ?_
    · intro txo i
      refine ⟨.inl, fun hor => hor.resolve_right ?_⟩
      rintro ⟨rfl, hn, -⟩
      exact hsome hn
    · intro txo i
      rw [get_insert]
      split_ifs with htxo
      · subst htxo
        simp only [hsome, true_and, Option.some.injEq, ne_eq, not_false_eq_true]
        refine ⟨fun e => .inr e.symm, ?_⟩
        rintro (hold | rfl)
        · obtain ⟨-, ⟨p', hp', hi⟩, -⟩ := (hrep'.unconf _ _ _).mp hold
          have hprev' : (P.grow hash input).prevInfo H db input.prevout = some i := by
            rw [Pool.prevInfo_of_some hp', hi]
          rw [Pool.prevInfo_grow, hinfo, Option.some.injEq] at hprev'
          exact hprev'
        · rfl
      · exact ⟨.inl, fun hor => hor.resolve_right fun e => htxo e.1.symm⟩
    · intro q
      rw [mem_set_insert, or_comm]
      refine or_congr_right ⟨?_, fun e => e.2⟩
      rintro rfl
      exact ⟨hsome, rfl⟩

/-- One input of a new transaction that refers to a valid output. -/
theorem AddInv.addInput {m : HashXTxMap} {s : AddState} (h : AddInv H rpa P db m s)
    (isNew : TxHash → Bool) {hash : TxHash} (hP : P hash = some nt)
    (hinfo : P.prevInfo H db input.prevout = some info) :
    ∃ s', addInput H db isNew hash s nt.ctx.vin.length input = .ok s' ∧
      AddInv H rpa (P.grow hash input) db m s' := by
  cases hprev : P input.prevout.txHash with
  | none =>
      rw [Pool.prevInfo_of_none hprev] at hinfo
      exact h.addInput_confirmed hP hprev hinfo
  | some p =>
      rw [Pool.prevInfo_of_some hprev] at hinfo
      exact h.addInput_unconfirmed hP hprev hinfo

/-- An input that refers to no valid output is an error. -/
theorem AddInv.prevInfo_of_addInput {m : HashXTxMap} {s s' : AddState}
    (h : AddInv H rpa P db m s) {isNew : TxHash → Bool} {hash : TxHash} {inNum : Nat}
    (hok : Mempool.addInput H db isNew hash s inNum input = .ok s') :
    ∃ info, P.prevInfo H db input.prevout = some info := by
  unfold Mempool.addInput at hok
  cases hprev : P input.prevout.txHash with
  | none =>
      rw [Pool.prevInfo_of_none hprev]
      simp only [h.content.absent _ hprev] at hok
      cases hdb : db input.prevout with
      | none => simp [hdb] at hok
      | some info => exact ⟨info, rfl⟩
  | some p =>
      obtain ⟨ptx, hptx, hprep⟩ := h.content.present _ p hprev
      rw [Pool.prevInfo_of_some hprev, NewTx.outAt, ← hprep.txos]
      simp only [hptx] at hok
      cases hout : ptx.txos[input.prevout.outN]?.join with
      | none => simp [hout] at hok
      | some info => exact ⟨info, rfl⟩

end Mempool
end Shulcrum
