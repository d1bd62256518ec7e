import Mathlib.Data.Finset.Basic
import Shulcrum.DSProof
import Shulcrum.Lib.SortUnique
import Shulcrum.Lib.Worklist

/-!
# The mempool

Unconfirmed transactions, indexed by id and by script hash.  Every transaction
keeps, for each script hash it touches, the confirmed and unconfirmed outputs
it spends and its own outputs that are still unspent; it also keeps its links
to parents and children in the mempool.

A shared reference to a transaction is its id.  A set or map iterated by the
program in an unspecified order is iterated here in the order of its keys; the
lists of new transactions and of txids to drop keep any order they are given in.
-/

namespace Shulcrum

open BTC SortUnique

/-- `Mempool::Tx::IOInfo`: what a transaction does with one script hash. -/
structure IOInfo where
  confirmedSpends : Std.ExtTreeMap TXO TXOInfo compare := ∅
  unconfirmedSpends : Std.ExtTreeMap TXO TXOInfo compare := ∅
  utxo : Std.ExtTreeSet Nat compare := ∅

/--
`Mempool::Tx`.  An entry of `txos` is `none` where the program keeps a default
constructed, invalid `TXOInfo`: for an `OP_RETURN` output.
-/
structure Tx where
  hash : TxHash
  sizeBytes : Nat
  vsizeBytes : Nat
  fee : Int := 0
  txos : List (Option TXOInfo) := []
  hashXs : Std.ExtTreeMap HashX IOInfo compare := ∅
  optRpaPrefixSet : Option (Std.ExtTreeSet UInt16 compare) := none
  parents : HashSet := ∅
  children : HashSet := ∅

/-- The transactions of the mempool by id. -/
abbrev TxMap := Std.ExtTreeMap TxHash Tx compare

/-- The transactions that touch a script hash, in `TxRefOrdering`. -/
abbrev HashXTxMap := Std.ExtTreeMap HashX (List TxHash) compare

/-- `Rpa::MempoolPrefixTable` as the set of its (row, transaction) pairs. -/
abbrev MempoolPrefixTable := Finset (UInt16 × TxHash)

structure Mempool where
  txs : TxMap := ∅
  hashXTxs : HashXTxMap := ∅
  optPrefixTable : Option MempoolPrefixTable := none
  dsps : DSPs := {}

/-- A transaction downloaded for `addNewTxs`, with its sizes. -/
structure NewTx where
  ctx : CTransaction
  sizeBytes : Nat
  vsizeBytes : Nat
  deriving DecidableEq

/-- `Mempool::ConsistencyError`, one constructor for each message. -/
inductive ConsistencyError where
  /-- "FAILED TO FIND A VALID PREVIOUS TXOUTN ... IN MEMPOOL". -/
  | invalidPrevOut (prev : TXO) (txHash : TxHash) (inNum : Nat)
  /-- "PREV OUT ... IS MISSING ITS HASHX ENTRY". -/
  | missingHashX (prev : TXO) (hashX : HashX) (txHash : TxHash)
  /-- "FAILED TO FIND PREVIOUS TX ... IN EITHER MEMPOOL OR DB". -/
  | missingPrevTx (prev : TXO) (txHash : TxHash) (inNum : Nat)
  deriving DecidableEq

/-- `Mempool::Stats`, without the elapsed time. -/
structure MempoolStats where
  oldSize : Nat := 0
  newSize : Nat := 0
  oldNumAddresses : Nat := 0
  newNumAddresses : Nat := 0
  dspRmCt : Nat := 0
  dspTxRmCt : Nat := 0
  rpaRmCt : Nat := 0
  dspTxsAffected : HashSet := ∅

namespace NewTx

def hash (nt : NewTx) : TxHash := nt.ctx.hash

end NewTx

namespace Tx

def hasUnconfirmedParents (tx : Tx) : Bool := !tx.parents.isEmpty

/-- The entry of a script hash, default constructed if there is none. -/
def io (tx : Tx) (sh : HashX) : IOInfo := tx.hashXs[sh]?.getD {}

/-- Update `hashXs[sh]`, default constructing a missing entry. -/
def updIo (tx : Tx) (sh : HashX) (f : IOInfo → IOInfo) : Tx :=
  { tx with hashXs := tx.hashXs.alter sh fun o => some (f (o.getD {})) }

/-- Update an entry of `hashXs` found by lookup. -/
def modifyIo (tx : Tx) (sh : HashX) (f : IOInfo → IOInfo) : Tx :=
  { tx with hashXs := tx.hashXs.modify sh f }

/-- The number of unconfirmed spends of a transaction. -/
def nUnconfs (tx : Tx) : Nat :=
  (tx.hashXs.toList.map fun e => e.2.unconfirmedSpends.size).sum

/-- Add a prefix to `optRpaPrefixSet`, creating the set if needed. -/
def addRpaPrefix (tx : Tx) (pfx : UInt16) : Tx :=
  { tx with optRpaPrefixSet := some ((tx.optRpaPrefixSet.getD ∅).insert pfx) }

end Tx

/-- `TxRefOrdering`: transactions without unconfirmed parents first, then by id. -/
def txRefLe (txs : TxMap) (a b : TxHash) : Bool :=
  let nParent (h : TxHash) : Bool := txs[h]?.any Tx.hasUnconfirmedParents
  (!nParent a && nParent b) || (nParent a == nParent b && decide (a ≤ b))

/-- `Tx::linkChild`. -/
def linkChild (txs : TxMap) (parent child : TxHash) : TxMap :=
  (txs.modify parent fun tx => { tx with children := tx.children.insert child }).modify child
    fun tx => { tx with parents := tx.parents.insert parent }

/-- `Tx::unlinkFromParentsAndChildren`. -/
def unlinkFromParentsAndChildren (txs : TxMap) (tx : Tx) : TxMap :=
  let txs := tx.parents.toList.foldl (fun txs p =>
    txs.modify p fun ptx => { ptx with children := ptx.children.erase tx.hash }) txs
  tx.children.toList.foldl (fun txs c =>
    txs.modify c fun ctx => { ctx with parents := ctx.parents.erase tx.hash }) txs

/-- Append a transaction to the vector of a script hash, creating it if needed. -/
def pushTx (m : HashXTxMap) (sh : HashX) (hash : TxHash) : HashXTxMap :=
  m.alter sh fun v => some (v.getD [] ++ [hash])

namespace Mempool

/-- `Mempool::clear`.  An enabled prefix table stays enabled. -/
def clear (mp : Mempool) : Mempool :=
  { optPrefixTable := mp.optPrefixTable.map fun _ => ∅ }

section AddNewTxs

variable (H : Hashers) (getTXOInfo : TXO → Option TXOInfo)

/-- The `TXOInfo` of a mempool output, or none for an `OP_RETURN`. -/
def outInfo (out : CTxOut) : Option TXOInfo :=
  if isOpReturn out.scriptPubKey then none
  else some {
    amount := out.nValue
    hashX := H.hashXFromCScript out.scriptPubKey
    confirmedHeight := none
    txNum := 0
    tokenDataPtr := out.tokenDataPtr }

/-- What the loop over the outputs of a new transaction works on. -/
structure OutState where
  tx : Tx
  hashXTxs : HashXTxMap
  scriptHashesAffected : HashSet

/-- One output of a new transaction. -/
def addOutput (s : OutState) (n : Nat) (out : CTxOut) : OutState :=
  let s := match outInfo H out with
    | none => s
    | some info =>
        { tx := { s.tx.updIo info.hashX fun io => { io with utxo := io.utxo.insert n } with
            txos := s.tx.txos.set n (some info) }
          hashXTxs := pushTx s.hashXTxs info.hashX s.tx.hash
          scriptHashesAffected := s.scriptHashesAffected.insert info.hashX }
  { s with tx := { s.tx with fee := s.tx.fee - out.nValue } }

/-- The outputs of a new transaction, from output number `n` on. -/
def addOutputs (s : OutState) : Nat → List CTxOut → OutState
  | _, [] => s
  | n, out :: outs => addOutputs (addOutput H s n out) (n + 1) outs

/-- What `addNewTxs` works on. -/
structure AddState where
  mp : Mempool
  scriptHashesAffected : HashSet
  dspTxsAffected : HashSet := ∅
  newTxsNewParents : Std.ExtTreeMap TxHash HashSet compare := ∅
  seenParents : HashSet := ∅

/-- First pass of `addNewTxs`: insert a transaction and its outputs. -/
def addTxOutputs (s : AddState) (nt : NewTx) : AddState :=
  let tx : Tx :=
    { hash := nt.hash
      sizeBytes := nt.sizeBytes
      vsizeBytes := nt.vsizeBytes
      txos := List.replicate nt.ctx.vout.length none }
  let r := addOutputs H ⟨tx, s.mp.hashXTxs, s.scriptHashesAffected⟩ 0 nt.ctx.vout
  { s with
    mp := { s.mp with txs := s.mp.txs.insert nt.hash r.tx, hashXTxs := r.hashXTxs }
    scriptHashesAffected := r.scriptHashesAffected }

/-- Link a new transaction to the proofs of a parent. -/
def addDspsOfParent (hash prevTxId : TxHash) (s : AddState) : AddState :=
  ((s.mp.dsps.dspHashesForTx prevTxId).getD ∅).toList.foldl (fun s dspHash =>
    let (added, dsps) := s.mp.dsps.addTx dspHash hash
    { s with
      mp := { s.mp with dsps := dsps }
      dspTxsAffected := if added then s.dspTxsAffected.insert hash else s.dspTxsAffected }) s

/-- The double-spend proof bookkeeping for a spend of a mempool output. -/
def addInputDsps (isNew : TxHash → Bool) (hash prevTxId : TxHash) (s : AddState) : AddState :=
  if s.mp.dsps.isEmpty ∨ prevTxId ∈ s.seenParents then s
  else
    let s := if isNew prevTxId then
        { s with newTxsNewParents :=
            s.newTxsNewParents.alter hash fun o => some ((o.getD ∅).insert prevTxId) }
      else addDspsOfParent hash prevTxId s
    { s with seenParents := s.seenParents.insert prevTxId }

/-- The RPA prefix of an input, if the index is enabled and the input is indexed. -/
def addInputRpa (hash : TxHash) (inNum : Nat) (input : CTxIn) (mp : Mempool) : Mempool :=
  match mp.optPrefixTable with
  | none => mp
  | some table =>
      if inNum < rpaInputIndexLimit then
        { mp with
          txs := mp.txs.modify hash fun tx => tx.addRpaPrefix (H.rpaPrefix input)
          optPrefixTable := some (insert (H.rpaPrefix input, hash) table) }
      else mp

/-- The end of the input loop body, common to both kinds of spends. -/
def finishInput (hash : TxHash) (inNum : Nat) (input : CTxIn) (info : TXOInfo)
    (s : AddState) : AddState :=
  { s with
    mp := addInputRpa H hash inNum input
      { s.mp with
        txs := s.mp.txs.modify hash fun tx => { tx with fee := tx.fee + info.amount }
        hashXTxs := pushTx s.mp.hashXTxs info.hashX hash }
    scriptHashesAffected := s.scriptHashesAffected.insert info.hashX }

/-- A spend of an output of a mempool transaction. -/
def spendUnconfirmed (hash : TxHash) (prevTXO : TXO) (info : TXOInfo) (txs : TxMap) :
    Except ConsistencyError TxMap :=
  let txs := txs.modify hash fun tx => tx.updIo info.hashX fun io =>
    { io with unconfirmedSpends := io.unconfirmedSpends.insert prevTXO info }
  if txs[prevTXO.txHash]?.any fun prevTx => info.hashX ∈ prevTx.hashXs then
    .ok (linkChild (txs.modify prevTXO.txHash fun prevTx => prevTx.modifyIo info.hashX fun io =>
      { io with utxo := io.utxo.erase prevTXO.outN }) prevTXO.txHash hash)
  else .error (.missingHashX prevTXO info.hashX hash)

/-- A spend of a confirmed output. -/
def spendConfirmed (hash : TxHash) (prevTXO : TXO) (info : TXOInfo) (txs : TxMap) : TxMap :=
  txs.modify hash fun tx => tx.updIo info.hashX fun io =>
    { io with confirmedSpends := io.confirmedSpends.insert prevTXO info }

/-- One input of a new transaction. -/
def addInput (isNew : TxHash → Bool) (hash : TxHash) (s : AddState) (inNum : Nat)
    (input : CTxIn) : Except ConsistencyError AddState :=
  let prevTXO := input.prevout
  match s.mp.txs[prevTXO.txHash]? with
  | some prevTx =>
      match prevTx.txos[prevTXO.outN]?.join with
      | none => .error (.invalidPrevOut prevTXO hash inNum)
      | some info =>
          match spendUnconfirmed hash prevTXO info s.mp.txs with
          | .error e => .error e
          | .ok txs =>
              .ok (finishInput H hash inNum input info
                (addInputDsps isNew hash prevTXO.txHash { s with mp := { s.mp with txs := txs } }))
  | none =>
      match getTXOInfo prevTXO with
      | none => .error (.missingPrevTx prevTXO hash inNum)
      | some info =>
          .ok (finishInput H hash inNum input info
            { s with mp := { s.mp with txs := spendConfirmed hash prevTXO info s.mp.txs } })

/-- The inputs of a new transaction, from input number `inNum` on. -/
def addInputs (isNew : TxHash → Bool) (hash : TxHash) (s : AddState) :
    Nat → List CTxIn → Except ConsistencyError AddState
  | _, [] => .ok s
  | inNum, input :: inputs =>
      match addInput H getTXOInfo isNew hash s inNum input with
      | .error e => .error e
      | .ok s => addInputs isNew hash s (inNum + 1) inputs

/-- Second pass of `addNewTxs`: the inputs of all new transactions. -/
def addAllInputs (isNew : TxHash → Bool) (s : AddState) :
    List NewTx → Except ConsistencyError AddState
  | [] => .ok s
  | nt :: nts =>
      match addInputs H getTXOInfo isNew nt.hash { s with seenParents := ∅ } 0 nt.ctx.vin with
      | .error e => .error e
      | .ok s => addAllInputs isNew s nts

/-- Sort the vectors of the affected script hashes and make them unique. -/
def sortAffected (affected : HashSet) (mp : Mempool) : Mempool :=
  { mp with hashXTxs := mp.hashXTxs.map fun sh v =>
      if sh ∈ affected then sortUnique (txRefLe mp.txs) v else v }

/-- One pass over the new transactions with new parents; returns the number of links added. -/
def spreadDspsOnce (s : AddState) : Nat × AddState :=
  s.newTxsNewParents.toList.foldl (fun acc e =>
    e.2.toList.foldl (fun acc prevTxId =>
      ((acc.2.mp.dsps.dspHashesForTx prevTxId).getD ∅).toList.foldl (fun acc dspHash =>
        let (added, dsps) := acc.2.mp.dsps.addTx dspHash e.1
        let s := { acc.2 with mp := { acc.2.mp with dsps := dsps } }
        if added then (acc.1 + 1, { s with dspTxsAffected := s.dspTxsAffected.insert e.1 })
        else (acc.1, s)) acc) acc) (0, s)

/-- Repeat the pass until it adds nothing. -/
def spreadDsps : Nat → AddState → AddState
  | 0, s => s
  | fuel + 1, s =>
      let (addCt, s) := spreadDspsOnce s
      if addCt = 0 then s else spreadDsps fuel s

/-- The double-spend proof handling at the end of `addNewTxs`. -/
def finishDsps (s : AddState) : AddState :=
  let s := if ¬ s.mp.dsps.isEmpty ∧ ¬ s.newTxsNewParents.isEmpty ∧ ¬ s.dspTxsAffected.isEmpty then
      spreadDsps (s.newTxsNewParents.size * s.mp.dsps.size + 1) s
    else s
  if s.dspTxsAffected.isEmpty then s
  else { s with dspTxsAffected := s.mp.dsps.txsLinkedToTxs s.dspTxsAffected }

/-- `Mempool::addNewTxs`. -/
def addNewTxs (mp : Mempool) (scriptHashesAffected : HashSet) (txsNew : List NewTx) :
    Except ConsistencyError (Mempool × HashSet × MempoolStats) :=
  let s := txsNew.foldl (addTxOutputs H) { mp := mp, scriptHashesAffected := scriptHashesAffected }
  match addAllInputs H getTXOInfo (fun h => txsNew.any (·.hash == h)) s txsNew with
  | .error e => .error e
  | .ok s =>
      let s := finishDsps { s with mp := sortAffected s.scriptHashesAffected s.mp }
      .ok (s.mp, s.scriptHashesAffected,
        { oldSize := mp.txs.size
          newSize := s.mp.txs.size
          oldNumAddresses := mp.hashXTxs.size
          newNumAddresses := s.mp.hashXTxs.size
          dspTxsAffected := s.dspTxsAffected })

end AddNewTxs

section Remove

/--
`Mempool::rmTxRpaAssociations`: remove a transaction's rows from the prefix table;
returns the number of associations removed.
-/
def rmTxRpaAssociations (table : Option MempoolPrefixTable) (tx : Tx) :
    Nat × Option MempoolPrefixTable :=
  match tx.optRpaPrefixSet, table with
  | some prefixes, some table =>
      let (rmct, table) := prefixes.toList.foldl (fun acc p =>
        (acc.1 + if (p, tx.hash) ∈ acc.2 then 1 else 0, acc.2.erase (p, tx.hash))) (0, table)
      (rmct, some table)
  | _, _ => (0, table)

/--
`Mempool::rmTxsInHashXTxs_impl`: remove transactions from the vectors of the
affected script hashes, and sort those vectors that need it.
-/
def rmTxsInHashXTxs (txs : TxMap) (removed : TxHash → Bool) (affected needingSort : HashSet)
    (m : HashXTxMap) : HashXTxMap :=
  m.filterMap fun sh txvec =>
    if sh ∈ affected then
      let newvec := txvec.filter fun h => !removed h
      if newvec.isEmpty then none
      else some (if sh ∈ needingSort then sort (txRefLe txs) newvec else newvec)
    else some txvec

/-- The children of a transaction, if it is in the mempool. -/
def childrenOf (txs : TxMap) (txid : TxHash) : List TxHash :=
  (txs[txid]?.map fun tx => tx.children.toList).getD []

/--
`Mempool::growTxHashSetToIncludeDescendants`: take a txid from the work queue
and add those of its children that are not in the set yet to both.  Every txid
is queued at most once, which bounds the number of rounds.
-/
def growTxHashSetToIncludeDescendants (txs : TxMap) (txids : List TxHash) :
    Option (List TxHash) :=
  Worklist.grow (childrenOf txs)
    (txids.length + (txs.toList.flatMap fun e => e.2.children.toList).length) txids txids

/-- Credit an output spent by a dropped transaction back to a parent that stays. -/
def creditBack (txids : List TxHash) (hashX : HashX) (txs : TxMap) (e : TXO × TXOInfo) : TxMap :=
  if e.1.txHash ∈ txids then txs
  else
    match txs[e.1.txHash]? with
    | none => txs
    | some prevTx =>
        if e.1.outN < prevTx.txos.length then
          txs.modify e.1.txHash fun prevTx => prevTx.modifyIo hashX fun io =>
            { io with utxo := io.utxo.insert e.1.outN }
        else txs

/-- What the removal loops work on. -/
structure RmState where
  mp : Mempool
  scriptHashesAffected : HashSet := ∅
  needingSort : HashSet := ∅
  recategorized : HashSet := ∅
  dspTxids : HashSet := ∅
  rpaRmCt : Nat := 0

/-- Add all script hashes of a transaction to a set. -/
def addHashXs (tx : Tx) (set : HashSet) : HashSet :=
  tx.hashXs.keys.foldl (·.insert ·) set

/-- Unlink a transaction and erase it, with its prefix table rows. -/
def eraseTx (s : RmState) (txid : TxHash) (tx : Tx) : RmState :=
  let (rmct, table) := rmTxRpaAssociations s.mp.optPrefixTable tx
  { s with
    mp := { s.mp with
      txs := (unlinkFromParentsAndChildren s.mp.txs tx).erase txid
      optPrefixTable := table }
    rpaRmCt := s.rpaRmCt + rmct }

/-- The body of the first loop of `dropTxs`. -/
def dropTx (txids : List TxHash) (s : RmState) (txid : TxHash) : RmState :=
  match s.mp.txs[txid]? with
  | none => s
  | some tx =>
      let txs := tx.hashXs.toList.foldl (fun txs e =>
        e.2.unconfirmedSpends.toList.foldl (creditBack txids e.1) txs) s.mp.txs
      eraseTx { s with
        mp := { s.mp with txs := txs }
        scriptHashesAffected := addHashXs tx s.scriptHashesAffected } txid tx

/-- Remove the proofs of dropped transactions, stopping when none is left. -/
def rmDspTxs (dsps : DSPs) : List TxHash → DSPs
  | [] => dsps
  | txid :: txids =>
      let dsps := (dsps.rmTx txid).2
      if dsps.isEmpty then dsps else rmDspTxs dsps txids

/--
`Mempool::dropTxs`.  Returns the mempool, the txids actually dropped or asked
for, the affected script hashes and the statistics.
-/
def dropTxs (mp : Mempool) (scriptHashesAffectedOut : HashSet) (txids : List TxHash) :
    Option (Mempool × List TxHash × HashSet × MempoolStats) :=
  match growTxHashSetToIncludeDescendants mp.txs txids with
  | none => none
  | some txids =>
      let s := txids.foldl (dropTx txids) { mp := mp }
      let hashXTxs := rmTxsInHashXTxs s.mp.txs (fun h => decide (h ∈ txids))
        s.scriptHashesAffected ∅ s.mp.hashXTxs
      let txids2rm := txids.filter fun h => (s.mp.dsps.dspHashesForTx h).isSome
      let dropDsps := ¬ s.mp.dsps.isEmpty ∧ txids2rm ≠ []
      let dspTxsAffected := if dropDsps then
          s.mp.dsps.txsLinkedToTxs (txids2rm.foldl (·.insert ·) ∅)
        else ∅
      let dsps := if dropDsps then rmDspTxs s.mp.dsps txids2rm else s.mp.dsps
      some ({ s.mp with hashXTxs := hashXTxs, dsps := dsps }, txids,
        scriptHashesAffectedOut ∪ s.scriptHashesAffected,
        { oldSize := mp.txs.size
          newSize := s.mp.txs.size
          oldNumAddresses := mp.hashXTxs.size
          newNumAddresses := hashXTxs.size
          dspRmCt := s.mp.dsps.size - dsps.size
          dspTxRmCt := s.mp.dsps.numTxDspLinks - dsps.numTxDspLinks
          rpaRmCt := s.rpaRmCt
          dspTxsAffected := dspTxsAffected })

section ConfirmedInBlock

variable (txidMap : Std.ExtTreeMap TxHash Nat compare) (confirmedHeight : Nat)

/-- Move the spends of confirmed transactions from unconfirmed to confirmed. -/
def recategorizeIo (io : IOInfo) : IOInfo :=
  { io with
    confirmedSpends := io.unconfirmedSpends.toList.foldl (fun m e =>
      match txidMap[e.1.txHash]? with
      | none => m
      | some txNum => m.insertIfNew e.1
          { e.2 with confirmedHeight := some confirmedHeight, txNum := txNum })
      io.confirmedSpends
    unconfirmedSpends := io.unconfirmedSpends.filter fun txo _ => txo.txHash ∉ txidMap }

/-- The lambda `recategorizeSpendsForChild`. -/
def recategorizeSpendsForChild (s : RmState) (child : TxHash) : RmState :=
  match s.mp.txs[child]? with
  | none => s
  | some tx =>
      let tx : Tx := { tx with
        hashXs := tx.hashXs.map fun _ io => recategorizeIo txidMap confirmedHeight io }
      let s := { s with mp := { s.mp with txs := s.mp.txs.insert child tx } }
      if tx.nUnconfs = 0 then
        { s with
          scriptHashesAffected := addHashXs tx s.scriptHashesAffected
          needingSort := addHashXs tx s.needingSort }
      else s

/-- A child of a confirmed transaction, if it stays and was not handled before. -/
def confirmChild (s : RmState) (child : TxHash) : RmState :=
  if child ∈ txidMap ∨ child ∈ s.recategorized then s
  else recategorizeSpendsForChild txidMap confirmedHeight
    { s with recategorized := s.recategorized.insert child } child

/-- The body of the loop of `confirmedInBlock`. -/
def confirmTx (s : RmState) (txid : TxHash) : RmState :=
  match s.mp.txs[txid]? with
  | none => s
  | some tx =>
      let s := { s with
        scriptHashesAffected := addHashXs tx s.scriptHashesAffected
        dspTxids := if (s.mp.dsps.dspHashesForTx txid).isSome then s.dspTxids.insert txid
          else s.dspTxids }
      eraseTx (tx.children.toList.foldl (confirmChild txidMap confirmedHeight) s) txid tx

/--
`Mempool::confirmedInBlock`.  Returns the mempool, the affected script hashes
and the statistics.  The source walks the map in the order of its hash table;
the invariant of the loop holds for its keys in any order.
-/
def confirmedInBlock (mp : Mempool) (scriptHashesAffectedOut : HashSet) :
    Mempool × HashSet × MempoolStats :=
  let s := txidMap.keys.foldl (confirmTx txidMap confirmedHeight) { mp := mp }
  let hashXTxs := rmTxsInHashXTxs s.mp.txs (fun h => decide (h ∈ txidMap))
    s.scriptHashesAffected s.needingSort s.mp.hashXTxs
  let dspTxsAffected := if s.dspTxids.isEmpty then ∅ else s.mp.dsps.txsLinkedToTxs s.dspTxids
  let dsps := s.dspTxids.toList.foldl (fun dsps txid => (dsps.rmTx txid).2) s.mp.dsps
  ({ s.mp with hashXTxs := hashXTxs, dsps := dsps },
    scriptHashesAffectedOut ∪ s.scriptHashesAffected,
    { oldSize := mp.txs.size
      newSize := s.mp.txs.size
      oldNumAddresses := mp.hashXTxs.size
      newNumAddresses := hashXTxs.size
      dspRmCt := mp.dsps.size - dsps.size
      dspTxRmCt := mp.dsps.numTxDspLinks - dsps.numTxDspLinks
      rpaRmCt := s.rpaRmCt
      dspTxsAffected := dspTxsAffected })

end ConfirmedInBlock

end Remove

end Mempool
end Shulcrum
