import Shulcrum.Storage.MempoolOver
import Shulcrum.Storage.Reorg

/-!
# The first use of a script hash

`getFirstUse` reads the first number of the history of a script hash, and looks
into the mempool if there is no history.  The history has the transactions that
pay to the script hash, and also those that spend such an output.  A block may
have a spend before the output, and then the first of the history is not a
payment.

**Results.**
* `headers_of_reachable`: the stored headers are those of the blocks.
* `getFirstUse_confirmed`, `getFirstUse_unconfirmed`: the answer in the two cases.
* `firstUse_iff`: when the answer is the first payment.
-/

namespace Shulcrum
namespace Storage

open Invariant TreeMap Flatten ChainIndex PreProcessedBlock MempoolOver

section Model

/-- `Storage::FirstUse`. -/
structure FirstUse where
  txHash : TxHash
  height : Int
  blockHash : Hash
  deriving DecidableEq

/-- `Storage::latestTip`: the height and the header, or `-1` without one. -/
def State.latestTip (s : State) : Int × Header :=
  let ret := s.index.headerVerifier
  if ret.prev = [] ∨ ret.prevHeight < 0 then (-1, []) else (ret.prevHeight, ret.prev)

/-- `Storage::headerForHeight`. -/
def State.headerForHeight (s : State) (height : Nat) : Option Header :=
  let (tipHeight, tipheader) := s.latestTip
  if (height : Int) = tipHeight then some tipheader
  else if (height : Int) < tipHeight then s.index.headerForHeight height
  else none

/-- The loop of `getFirstUse` over the mempool transactions of the script hash. -/
def firstUnconfirmedUse (s : State) (hashX : HashX) (txvec : List TxHash) : Option FirstUse :=
  txvec.findSome? fun hash =>
    match s.mempool.txs[hash]? with
    | none => none
    | some tx =>
        if tx.txos.any fun txoinfo => txoinfo.any fun info => info.hashX == hashX then
          some
            { txHash := tx.hash
              height := if tx.hasUnconfirmedParents then -1 else 0
              blockHash := 0 }
        else none

/-- `Storage::getFirstUse`.  A lookup that throws ends the call without a result. -/
def getFirstUse (H : Hashers) (s : State) (hashX : HashX) : Option FirstUse :=
  match s.index.shist[hashX]? with
  -- `scripthash_history` entry that is too short
  | some [] => none
  | some (txNum :: _) => do
      let blockHeight ← heightForTxNum s txNum
      let txHash ← hashForTxNum s txNum
      let header ← s.headerForHeight blockHeight
      some
        { txHash := txHash
          height := blockHeight
          blockHash := H.headerPoWHash header }
  | none => firstUnconfirmedUse s hashX (s.mempool.hashXTxs[hashX]?.getD [])

end Model

section Statements

variable (H : Hashers) (hx : HashX)

/-- The transaction has an output that is locked to the script hash. -/
def Pays (tx : CTransaction) : Prop := ∃ out ∈ tx.vout, out.LockedTo H hx

/-- The transaction of the chain with this number has an output to the script hash. -/
def PaysAt (blocks : List CBlock) (n : Nat) : Prop :=
  ∃ height tx, (chainTxs blocks)[n]? = some (height, tx) ∧ Pays H hx tx

/-- A transaction of the pool with an output to the script hash. -/
def PaysUnconfirmed (P : Pool) (h : TxHash) : Prop := ∃ nt, P h = some nt ∧ Pays H hx nt.ctx

/-- The contract of `getFirstUse`: the first payment to the script hash. -/
structure IsFirstUse (P : Pool) (blocks : List CBlock) (use : Option FirstUse) : Prop where
  confirmed : ∀ (n height : Nat) (tx : CTransaction),
    (chainTxs blocks)[n]? = some (height, tx) → Pays H hx tx →
      (∀ m < n, ¬ PaysAt H hx blocks m) →
        ∃ b, blocks[height]? = some b ∧ use = some
          { txHash := tx.hash
            height := height
            blockHash := H.headerPoWHash b.header.serialize }
  unconfirmed : (∀ n, ¬ PaysAt H hx blocks n) → (∃ h, PaysUnconfirmed H hx P h) →
    ∃ h height, PaysUnconfirmed H hx P h ∧ (height = 0 ∨ height = -1) ∧
      use = some { txHash := h, height := height, blockHash := 0 }
  none_iff : use = none ↔
    (∀ n, ¬ PaysAt H hx blocks n) ∧ ∀ h, ¬ PaysUnconfirmed H hx P h

/-- The first transaction that has to do with the script hash pays to it. -/
def FirstPays (blocks : List CBlock) : Prop :=
  ∀ n, Involves H blocks hx n → (∀ m < n, ¬ Involves H blocks hx m) → PaysAt H hx blocks n

end Statements

variable {H : Hashers} {opts : Options}

section Headers

/-- The stored headers are those of the blocks. -/
theorem headers_of_reachable {r : ChainRun}
    (h : Reachable ChainRun.Start (ChainStep H opts ValidBlock) r) :
    r.state.index.headers =
      r.blocks.map fun b => BTC.padHeaderRecord opts.blockHeaderSize b.header.serialize := by
  obtain ⟨st, hchain, hblocks⟩ := chain_of_reachable h
  have hall := hchain.rec_on_blocks (P := fun blocks ix => ix.headers =
    blocks.map fun b => BTC.padHeaderRecord opts.blockHeaderSize b.header.serialize) rfl ?_
  · rw [← hblocks]
    exact hall.2
  · intro blocks ix b ppb ch _ hheaders _ hc
    have hnext : (nextIndex opts ix ppb ch).headers =
        ix.headers ++ [BTC.padHeaderRecord opts.blockHeaderSize ppb.header.serialize] := rfl
    rw [hnext, hheaders, hc.prepared.header, List.map_append]
    rfl

/-- The header of every block is found. -/
theorem headerForHeight_eq {r : ChainRun}
    (h : Reachable ChainRun.Start (ChainStep H opts ValidBlock) r) {height : Nat} {b : CBlock}
    (hb : r.blocks[height]? = some b) :
    r.state.headerForHeight height = some b.header.serialize := by
  have hlt := (List.getElem?_eq_some_iff.mp hb).1
  have hverifier := (linked_of_reachable h).1.verifier
  obtain ⟨tip, htip⟩ : ∃ tip, r.blocks.getLast? = some tip := by
    rw [List.getLast?_eq_getElem?]
    exact ⟨_, List.getElem?_eq_getElem (by omega)⟩
  have hlatest : r.state.latestTip = ((r.blocks.length : Int) - 1, tip.header.serialize) := by
    rw [State.latestTip, hverifier, htip]
    refine if_neg (not_or.mpr ⟨BTC.serialize_ne_nil _, ?_⟩)
    simp only
    omega
  rw [State.headerForHeight, hlatest]
  simp only
  by_cases hlast : (height : Int) = r.blocks.length - 1
  · have htip' : r.blocks[height]? = some tip := by
      rw [← htip, List.getLast?_eq_getElem?]
      exact congrArg (r.blocks[·]?) (by omega)
    rw [hb, Option.some.injEq] at htip'
    rw [if_pos hlast, htip']
  · rw [if_neg hlast, if_pos (by omega), ChainIndex.headerForHeight, headers_of_reachable h,
      List.getElem?_map, hb, Option.map_some, Option.map_some, BTC.trimHeaderRecord_pad]

end Headers

section Confirmed

variable {r : ChainRun} {hx : HashX}

theorem involves_of_paysAt {blocks : List CBlock} {n : Nat} (h : PaysAt H hx blocks n) :
    Involves H blocks hx n := by
  obtain ⟨height, tx, hget, hpays⟩ := h
  exact ⟨height, tx, hget, .inl hpays⟩

/-- Where something has to do with the script hash, something pays to it. -/
theorem exists_paysAt_of_involves {blocks : List CBlock} {n : Nat}
    (h : Involves H blocks hx n) : ∃ m, PaysAt H hx blocks m := by
  obtain ⟨height, tx, hget, hpays | ⟨input, -, e, he, -, out, hout, hlock⟩⟩ := h
  · exact ⟨n, height, tx, hget, hpays⟩
  · obtain ⟨m, hm⟩ := List.mem_iff_getElem?.mp he
    exact ⟨m, e.1, e.2, hm, out, List.mem_of_getElem? hout, hlock⟩

/-- With a history, the answer is its first transaction. -/
theorem getFirstUse_confirmed (h : Reachable ChainRun.Start (ChainStep H opts ValidBlock) r)
    {n : Nat} (hinv : Involves H r.blocks hx n) (hfirst : ∀ m < n, ¬ Involves H r.blocks hx m) :
    ∃ height tx b, (chainTxs r.blocks)[n]? = some (height, tx) ∧ r.blocks[height]? = some b ∧
      getFirstUse H r.state hx = some
        { txHash := tx.hash
          height := height
          blockHash := H.headerPoWHash b.header.serialize } := by
  obtain ⟨hans, hhist⟩ := histories_of_reachable h
  obtain ⟨height, tx, hget, -⟩ := id hinv
  obtain ⟨b, hb⟩ : ∃ b, r.blocks[height]? = some b :=
    ⟨_, List.getElem?_eq_getElem (chainTxs_height_lt (List.mem_of_getElem? hget))⟩
  refine ⟨height, tx, b, hget, hb, ?_⟩
  have hmem := (hhist hx n).mpr hinv
  cases hshist : r.state.index.shist[hx]? with
  | none =>
      rw [hshist] at hmem
      cases hmem
  | some nums =>
      rw [hshist, Option.getD_some] at hmem
      have hsorted := (hans.numbered.wellFormed.shist hx nums hshist).2.1
      cases nums with
      | nil => cases hmem
      | cons m nums =>
          have hm : Involves H r.blocks hx m := by
            rw [← hhist hx m, hshist]
            exact List.mem_cons_self
          -- the first number is the lowest one
          obtain rfl : m = n := by
            rcases List.mem_cons.mp hmem with heq | htail
            · exact heq.symm
            · exact absurd hm (hfirst m ((List.pairwise_cons.mp hsorted).1 n htail))
          rw [getFirstUse, hshist]
          simp only [hans.height hget, hans.hash hget, headerForHeight_eq h hb, bind,
            Option.bind]

/-- Without a history, the answer is that of the mempool. -/
theorem getFirstUse_of_not_involves
    (h : Reachable ChainRun.Start (ChainStep H opts ValidBlock) r)
    (hnone : ∀ n, ¬ Involves H r.blocks hx n) :
    getFirstUse H r.state hx = firstUnconfirmedUse r.state hx (listed r.state hx) := by
  obtain ⟨hans, hhist⟩ := histories_of_reachable h
  cases hshist : r.state.index.shist[hx]? with
  | none =>
      rw [getFirstUse, hshist]
      rfl
  | some nums =>
      have hne := (hans.numbered.wellFormed.shist hx nums hshist).1
      obtain ⟨n, hn⟩ := List.exists_mem_of_ne_nil nums hne
      refine absurd ((hhist hx n).mp ?_) (hnone n)
      rw [hshist]
      exact hn

end Confirmed

section Unconfirmed

variable {rpa : Bool} {P : Pool} {r : ChainRun} {hx : HashX}

/-- The outputs of a new transaction that are locked to the script hash. -/
theorem pays_iff_outAt {nt : NewTx} :
    Pays H hx nt.ctx ↔ ∃ n info, nt.outAt H n = some info ∧ info.hashX = hx := by
  constructor
  · rintro ⟨out, hout, hlock, hhx⟩
    obtain ⟨n, hn⟩ := List.mem_iff_getElem?.mp hout
    refine ⟨n,
      { amount := out.nValue
        hashX := H.hashXFromCScript out.scriptPubKey
        confirmedHeight := none
        txNum := 0
        tokenDataPtr := out.tokenDataPtr }, ?_, hhx⟩
    rw [NewTx.outAt, NewTx.outInfos, List.getElem?_map, hn, Option.map_some, Mempool.outInfo,
      hlock]
    rfl
  · rintro ⟨n, info, hat, rfl⟩
    rw [NewTx.outAt, NewTx.outInfos, List.getElem?_map, Option.join_eq_some_iff,
      Option.map_eq_some_iff] at hat
    obtain ⟨out, hout, hinfo⟩ := hat
    rw [Mempool.outInfo] at hinfo
    split_ifs at hinfo with hlock
    rw [Option.some.injEq] at hinfo
    refine ⟨out, List.mem_of_getElem? hout, Bool.eq_false_iff.mpr hlock, ?_⟩
    rw [← hinfo]

/-- The search of the loop in a record is that for a payment. -/
theorem any_txos_iff {db : TXO → Option TXOInfo} {nt : NewTx} {tx : Tx}
    (hrep : Mempool.TxRep H rpa P db nt tx) :
    (tx.txos.any fun txoinfo => txoinfo.any fun info => info.hashX == hx) = true ↔
      Pays H hx nt.ctx := by
  rw [pays_iff_outAt, List.any_eq_true]
  constructor
  · rintro ⟨txoinfo, hmem, hany⟩
    obtain ⟨info, rfl, hhx⟩ := Option.any_eq_true _ _ |>.mp hany
    obtain ⟨n, hn⟩ := List.mem_iff_getElem?.mp hmem
    refine ⟨n, info, ?_, by simpa using hhx⟩
    rw [NewTx.outAt, ← hrep.txos, hn]
    rfl
  · rintro ⟨n, info, hat, rfl⟩
    rw [NewTx.outAt, ← hrep.txos, Option.join_eq_some_iff] at hat
    exact ⟨some info, List.mem_of_getElem? hat, by simp⟩

/-- The loop over the mempool finds a payment, if there is one. -/
theorem firstUnconfirmedUse_eq (hm : MempoolOver H opts rpa P r) :
    (∃ h height, PaysUnconfirmed H hx P h ∧ (height = 0 ∨ height = -1) ∧
        firstUnconfirmedUse r.state hx (listed r.state hx) =
          some { txHash := h, height := height, blockHash := 0 }) ∨
      (∀ h, ¬ PaysUnconfirmed H hx P h) ∧
        firstUnconfirmedUse r.state hx (listed r.state hx) = none := by
  cases hres : firstUnconfirmedUse r.state hx (listed r.state hx) with
  | none =>
      refine .inr ⟨?_, rfl⟩
      rintro h ⟨nt, hP, hpays⟩
      obtain ⟨n, info, hat, hhx⟩ := pays_iff_outAt.mp hpays
      obtain ⟨tx, htx, -, hrep⟩ := hm.record hP
      rw [firstUnconfirmedUse, List.findSome?_eq_none_iff] at hres
      have hskip := hres h (hm.mem_listed.mpr ⟨nt, hP, .inl ⟨n, info, hat, hhx⟩⟩)
      simp only [htx, if_pos ((any_txos_iff hrep).mpr hpays)] at hskip
      cases hskip
  | some use =>
      rw [firstUnconfirmedUse, List.findSome?_eq_some_iff] at hres
      obtain ⟨before, h, after, heq, huse, -⟩ := hres
      have hmem : h ∈ listed r.state hx := by
        rw [heq]
        exact List.mem_append_right before List.mem_cons_self
      obtain ⟨nt, tx, hP, htx, hhash, -, hrep⟩ := hm.listed_record hmem
      simp only [htx] at huse
      by_cases hany : (tx.txos.any fun txoinfo => txoinfo.any fun info => info.hashX == hx) = true
      · rw [if_pos hany, Option.some.injEq] at huse
        refine .inl ⟨h, if tx.hasUnconfirmedParents then -1 else 0,
          ⟨nt, hP, (any_txos_iff hrep).mp hany⟩, ?_, ?_⟩
        · cases tx.hasUnconfirmedParents
          · exact .inl rfl
          · exact .inr rfl
        · rw [← huse, hhash]
      · rw [if_neg hany] at huse
        cases huse

/--
The answer is the first payment to the script hash iff the first transaction of
the chain that has to do with the script hash pays to it.
-/
theorem firstUse_iff (hm : MempoolOver H opts rpa P r) (hx : HashX) :
    IsFirstUse H hx P r.blocks (getFirstUse H r.state hx) ↔ FirstPays H hx r.blocks := by
  have hdist := distinctIds_of_reachable hm.run
  constructor
  · intro huse n hinv hfirst
    classical
    obtain ⟨height, tx, b, hget, -, heq⟩ := getFirstUse_confirmed hm.run hinv hfirst
    -- the first payment, which the answer has to be
    have hpays := exists_paysAt_of_involves hinv
    obtain ⟨height', tx', hget', hpays'⟩ := Nat.find_spec hpays
    obtain ⟨b', -, heq'⟩ := huse.confirmed _ height' tx' hget' hpays'
      (fun m hm => Nat.find_min hpays hm)
    rw [heq, Option.some.injEq] at heq'
    have hsame := hdist.eq_of_hash (List.mem_of_getElem? hget) (List.mem_of_getElem? hget')
      (congrArg FirstUse.txHash heq')
    rw [← (Prod.mk.inj hsame).2] at hpays'
    exact ⟨height, tx, hget, hpays'⟩
  · intro hpays
    by_cases hinv : ∃ n, Involves H r.blocks hx n
    · classical
      obtain ⟨height, tx, b, hget, hb, heq⟩ := getFirstUse_confirmed hm.run (Nat.find_spec hinv)
        fun m hm => Nat.find_min hinv hm
      have hfirst := hpays _ (Nat.find_spec hinv) fun m hm => Nat.find_min hinv hm
      rw [heq]
      refine ⟨?_, fun hnone => absurd hfirst (hnone _), ?_⟩
      · intro n height' tx' hget' hpays' hmin
        obtain rfl : n = Nat.find hinv := by
          refine le_antisymm (not_lt.mp fun hlt => hmin _ hlt hfirst) ?_
          exact Nat.find_min' hinv (involves_of_paysAt ⟨height', tx', hget', hpays'⟩)
        rw [hget, Option.some.injEq, Prod.mk.injEq] at hget'
        obtain ⟨rfl, rfl⟩ := hget'
        exact ⟨b, hb, rfl⟩
      · exact ⟨nofun, fun hnone => absurd hfirst (hnone.1 _)⟩
    · have hnone := not_exists.mp hinv
      have hunpaid : ∀ n, ¬ PaysAt H hx r.blocks n :=
        fun n hn => hnone n (involves_of_paysAt hn)
      rw [getFirstUse_of_not_involves hm.run hnone]
      refine ⟨fun n height tx hget hp => absurd ⟨height, tx, hget, hp⟩ (hunpaid n), ?_, ?_⟩
      · rintro - ⟨h, hpaid⟩
        rcases firstUnconfirmedUse_eq hm with hsome | ⟨hno, -⟩
        · exact hsome
        · exact absurd hpaid (hno h)
      · rcases firstUnconfirmedUse_eq hm with ⟨h, height, hpaid, -, heq⟩ | ⟨hno, heq⟩
        · rw [heq]
          exact ⟨nofun, fun hnot => absurd hpaid (hnot.2 h)⟩
        · exact ⟨fun _ => ⟨hunpaid, hno⟩, fun _ => heq⟩

end Unconfirmed

section EarlySpend

open Mempool

/-- The reversed hash of the script `OP_2`. -/
def opTwoHashX : HashX := 0xac41cf8c00321ed97e8352cd543e19a5c1467fe0bc56f7fd95f963208974258c

/-- Hash functions with the right values for `OP_TRUE` and `OP_2`. -/
def twoHashers : Hashers :=
  { opTrueHashers with
    hashXFromCScript := fun script => if script = [0x52] then opTwoHashX else opTrueHashX }

/-- A transaction that spends the first block and pays to `OP_2`. -/
def opTwoTx : CTransaction :=
  { hash := 1
    vin := [{ prevout := ⟨9, 0⟩ }]
    vout := [{ nValue := 4000, scriptPubKey := [0x52] }] }

/-- A block that spends the output to `OP_2` before it is created. -/
def earlySpendBlock : CBlock where
  header := plainHeader 0
  vtx := [coinbaseTx 8, childTx.ctx, opTwoTx]
  coinbase := rfl
  hash_ne_null := by decide

theorem exists_earlySpendState : ∃ s : State,
    Reachable ChainRun.Start (ChainStep twoHashers {} ValidBlock)
      { state := s, blocks := [firstBlock, earlySpendBlock] } := by
  obtain ⟨ppb, s, notify, ppb', s', notify', hfill, hadd, hnum, hfill', hadd'⟩ :
      ∃ ppb s notify ppb' s' notify', fill twoHashers 0 none 0 100 firstBlock = .ok ppb ∧
        addBlock twoHashers {} {} ppb true false false = .ok s notify ∧
        s.index.txNumNext = 1 ∧ fill twoHashers 1 none 0 100 earlySpendBlock = .ok ppb' ∧
        addBlock twoHashers {} s ppb' true false false = .ok s' notify' :=
    ⟨_, _, _, _, _, _, rfl, rfl, rfl, rfl, rfl⟩
  have hstart : Reachable ChainRun.Start (ChainStep twoHashers {} ValidBlock)
      { state := {}, blocks := [] } := .start rfl
  have hfirst := hstart.next (.add hfill validBlock_first (by decide) hadd)
  have hvalid : ValidBlock [firstBlock] earlySpendBlock := ⟨by decide, by decide, by decide⟩
  have hfits : s.index.txNumNext + earlySpendBlock.vtx.length ≤ txNumMax + 1 := by
    rw [hnum]
    decide
  exact ⟨s', hfirst.next (.add hfill' hvalid hfits hadd')⟩

/-- The chain with the early spend, and an empty mempool. -/
theorem exists_earlySpend : ∃ r, MempoolOver twoHashers {} false (Pool.ofList []) r ∧
    r.blocks = [firstBlock, earlySpendBlock] := by
  obtain ⟨s, hs⟩ := exists_earlySpendState
  obtain ⟨mp, hm⟩ : ∃ mp, MempoolOver twoHashers {} false (Pool.ofList [])
      { state := { s with mempool := mp }, blocks := [firstBlock, earlySpendBlock] } := by
    refine exists_of_reachable false hs (by simp) ?_ ?_
    · intro h nt hP
      cases hP
    · intro e _ nt hnt
      cases hnt
  exact ⟨_, hm, rfl⟩

/-- The answer for `OP_TRUE` is the first payment iff the first transaction pays to it. -/
theorem firstUse_iff_earlySpend : ∃ r : ChainRun,
    (IsFirstUse twoHashers opTrueHashX (Pool.ofList []) r.blocks
        (getFirstUse twoHashers r.state opTrueHashX) ↔
      FirstPays twoHashers opTrueHashX r.blocks) := by
  obtain ⟨r, hm, -⟩ := exists_earlySpend
  exact ⟨r, firstUse_iff hm opTrueHashX⟩

theorem chainTxs_earlySpend : chainTxs [firstBlock, earlySpendBlock] =
    [(0, coinbaseTx 9), (1, coinbaseTx 8), (1, childTx.ctx), (1, opTwoTx)] := rfl

/-- The coinbases have nothing to do with `OP_2`. -/
theorem not_involves_coinbase {m : Nat} (h : m < 2) :
    ¬ Involves twoHashers [firstBlock, earlySpendBlock] opTwoHashX m := by
  rintro ⟨height, tx, hget, hinv⟩
  have hcoinbase : ∃ hash, tx = coinbaseTx hash := by
    rw [chainTxs_earlySpend] at hget
    match m, h with
    | 0, _ => exact ⟨9, (Prod.mk.inj (Option.some.inj hget)).2.symm⟩
    | 1, _ => exact ⟨8, (Prod.mk.inj (Option.some.inj hget)).2.symm⟩
  obtain ⟨hash, rfl⟩ := hcoinbase
  rcases hinv with ⟨out, hout, -, hlock⟩ | ⟨input, hin, e, he, hhash, -⟩
  · obtain rfl := List.mem_singleton.mp hout
    exact absurd hlock (by decide)
  · obtain rfl := List.mem_singleton.mp hin
    exact chainTxs_hash_ne_null he hhash

/-- The transaction that spends the output to `OP_2` is returned, and not the one that has it. -/
theorem getFirstUse_earlySpend : ∃ (P : Pool) (r : ChainRun),
    MempoolOver twoHashers {} false P r ∧
      (chainTxs r.blocks)[3]? = some (1, opTwoTx) ∧ Pays twoHashers opTwoHashX opTwoTx ∧
      (∀ m < 3, ¬ PaysAt twoHashers opTwoHashX r.blocks m) ∧
      ∃ use, getFirstUse twoHashers r.state opTwoHashX = some use ∧
        use.txHash = childTx.hash ∧ childTx.hash ≠ opTwoTx.hash := by
  obtain ⟨r, hm, hblocks⟩ := exists_earlySpend
  have hpays : Pays twoHashers opTwoHashX opTwoTx := ⟨_, List.mem_singleton_self _, rfl, rfl⟩
  have hspend : Involves twoHashers r.blocks opTwoHashX 2 := by
    rw [hblocks]
    refine ⟨1, childTx.ctx, rfl, .inr ⟨_, List.mem_singleton_self _, (1, opTwoTx), ?_, rfl, _, rfl,
      rfl, rfl⟩⟩
    rw [chainTxs_earlySpend]
    simp
  have hfirst : ∀ m < 2, ¬ Involves twoHashers r.blocks opTwoHashX m := by
    rw [hblocks]
    exact fun m hlt => not_involves_coinbase hlt
  obtain ⟨height, tx, b, hget, -, heq⟩ := getFirstUse_confirmed hm.run hspend hfirst
  refine ⟨_, r, hm, ?_, hpays, ?_, _, heq, ?_, by decide⟩
  · rw [hblocks]
    rfl
  · intro m hlt hpaid
    rcases Nat.lt_succ_iff_lt_or_eq.mp hlt with hlt | rfl
    · exact hfirst m hlt (involves_of_paysAt hpaid)
    · obtain ⟨height, tx, hget, out, hout, -, hlock⟩ := hpaid
      rw [hblocks] at hget
      obtain rfl : childTx.ctx = tx := (Prod.mk.inj (Option.some.inj hget)).2
      obtain rfl := List.mem_singleton.mp hout
      exact absurd hlock (by decide)
  · rw [hblocks] at hget
    obtain rfl : childTx.ctx = tx := (Prod.mk.inj (Option.some.inj hget)).2
    rfl

end EarlySpend

end Storage
end Shulcrum
