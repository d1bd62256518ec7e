import Shulcrum.Lib.Sweep
import Shulcrum.Mempool.Model

/-!
# The mempool synch task

`SynchMempoolTask` brings the mempool up to date with the node.  It asks for
the txids of the node's mempool, drops the transactions that are not listed any
more, downloads the new ones and adds them in one batch.  A pass that finds the
mempool not as expected is started over.

The node is any sequence of replies to the requests in flight.  Hash maps are
iterated in an unspecified order, `Orders`, which may differ from call to call.
The precache thread is waited for before its results are read, so it is run to
its end at that point.  Signals are collected in `emitted`: they reach the
controller later, and replies may still be handled until then.
-/

namespace Shulcrum
namespace SynchMempool

open Sweep

/-- `SynchMempoolTask::State`. -/
inductive State where
  | start
  | awaitingGrmp
  | dlTxs
  | finishedDlTxs
  | processingResults
  deriving DecidableEq, Repr

/-- The signals of `CtlTask` the task emits. -/
inductive Signal where
  | success
  | errored
  deriving DecidableEq, Repr

/-- A request to the node that has no reply yet. -/
inductive Request where
  | getrawmempool
  | getrawtransaction (hash : TxHash)
  deriving DecidableEq

/-- The reply to `getrawtransaction`. -/
inductive TxReply where
  /-- A transaction, as it was deserialized. -/
  | tx (nt : NewTx)
  /-- Bad hex, a transaction that does not deserialize, or no reply at all. -/
  | unreadable
  /-- An error response. -/
  | error
  deriving DecidableEq

/-- What does not change while the task runs. -/
structure Config where
  hashers : Hashers
  isMimble : Bool
  maxDLBacklogSize : Nat
  txnIgnoreSet : HashSet
  /-- `Storage::utxoGetFromDB`; an exception counts as not found. -/
  utxoGetFromDB : TXO → Option TXOInfo

/-- The order in which hash maps are iterated. -/
structure Orders where
  txids : List TxHash → List TxHash
  txs : List NewTx → List NewTx
  txids_perm : ∀ l, (txids l).Perm l
  txs_perm : ∀ l, (txs l).Perm l

/-- The order of the model's own lists. -/
def Orders.asListed : Orders := ⟨id, id, fun _ => .refl _, fun _ => .refl _⟩

def kRedoCtMax : Nat := 5

def kFailedDownloadMax : Nat := 50

/-- The task, with the mempool it works on and its requests in flight. -/
structure SynchMempoolTask where
  mempool : Mempool
  state : State := .start
  txsNeedingDownload : List TxHash := []
  txsWaitingForResponse : List TxHash := []
  txsDownloaded : List NewTx := []
  txsFailedDownload : HashSet := ∅
  txsIgnored : HashSet := ∅
  expectedNumTxsDownloaded : Nat := 0
  redoCt : Nat := 0
  scriptHashesAffected : HashSet := ∅
  dspTxsAffected : HashSet := ∅
  txidsAffected : HashSet := ∅
  /-- The set `Precache::threadFunc` was started with. -/
  tentativeMempoolTxHashes : HashSet := ∅
  /-- `Precache::cache`. -/
  cache : Std.ExtTreeMap TXO TXOInfo compare := ∅
  inFlight : List Request := []
  /-- A call of `process` is scheduled. -/
  again : Bool := true
  emitted : List Signal := []
  /-- The mempools a `ConsistencyError` found, before the batch; only recorded. -/
  cleared : List Mempool := []

namespace SynchMempoolTask

variable (cfg : Config) (ord : Orders)

def emit (t : SynchMempoolTask) (signal : Signal) : SynchMempoolTask :=
  { t with emitted := t.emitted ++ [signal] }

/-- `SynchMempoolTask::clear`: the affected sets and `redoCt` stay. -/
def clear (t : SynchMempoolTask) : SynchMempoolTask :=
  { t with
    state := .start
    txsNeedingDownload := []
    txsWaitingForResponse := []
    txsDownloaded := []
    txsFailedDownload := ∅
    txsIgnored := ∅
    expectedNumTxsDownloaded := 0 }

/-- `SynchMempoolTask::redoFromStart`. -/
def redoFromStart (t : SynchMempoolTask) : SynchMempoolTask :=
  let t := { t.clear with redoCt := t.redoCt + 1 }
  if t.redoCt > kRedoCtMax then t.emit .errored else { t with again := true }

/-- `SynchMempoolTask::doDLNextTx`: fill the backlog with requests. -/
def doDLNextTx (t : SynchMempoolTask) : SynchMempoolTask :=
  if t.txsWaitingForResponse.length ≥ cfg.maxDLBacklogSize then t
  else
    let nIters := min (cfg.maxDLBacklogSize - t.txsWaitingForResponse.length)
      t.txsNeedingDownload.length
    { t with
      txsNeedingDownload := t.txsNeedingDownload.drop nIters
      txsWaitingForResponse := t.txsWaitingForResponse ++ t.txsNeedingDownload.take nIters
      inFlight := t.inFlight ++
        (t.txsNeedingDownload.take nIters).map Request.getrawtransaction }

/-- One input in `Precache::threadFunc`. -/
def precacheInput (tentative : HashSet) (cache : Std.ExtTreeMap TXO TXOInfo compare)
    (input : CTxIn) : Option (Std.ExtTreeMap TXO TXOInfo compare) :=
  if input.prevout.txHash ∈ tentative then some cache
  else (cfg.utxoGetFromDB input.prevout).map (cache.insert input.prevout ·)

/-- `Precache::threadFunc`: look up the confirmed spends; none if one is missing. -/
def precache (tentative : HashSet) (cache : Std.ExtTreeMap TXO TXOInfo compare)
    (txns : List NewTx) : Option (Std.ExtTreeMap TXO TXOInfo compare) :=
  txns.foldlM (fun cache nt => nt.ctx.vin.foldlM (precacheInput cfg tentative) cache) cache

/-- The transactions a transaction spends from. -/
def prevTxIds (nt : NewTx) : List TxHash := nt.ctx.vin.map fun input => input.prevout.txHash

/--
The failed-parent loop of `processResults`: move the downloaded transactions
with a failed or ignored parent to the failed ones until none moves.
-/
def pruneFailedParents (txsDownloaded : List NewTx) (txsFailedDownload txsIgnored : HashSet) :
    Option (List NewTx × HashSet) :=
  if txsFailedDownload.isEmpty ∧ txsIgnored.isEmpty then some (txsDownloaded, txsFailedDownload)
  else sweeps NewTx.hash prevTxIds (fun h => decide (h ∈ txsIgnored)) (txsDownloaded.length + 1)
    txsDownloaded txsFailedDownload

end SynchMempoolTask
end SynchMempool

namespace Mempool

variable (H : Hashers) (getTXOInfo : TXO → Option TXOInfo)

/-- The affected script hashes when an input of the transaction is refused, or at its end. -/
def affectedByInputs (isNew : TxHash → Bool) (hash : TxHash) (s : AddState) :
    Nat → List CTxIn → HashSet
  | _, [] => s.scriptHashesAffected
  | inNum, input :: inputs =>
      match addInput H getTXOInfo isNew hash s inNum input with
      | .error _ => s.scriptHashesAffected
      | .ok s => affectedByInputs isNew hash s (inNum + 1) inputs

/-- The affected script hashes when `addAllInputs` throws, or at its end. -/
def affectedByAllInputs (isNew : TxHash → Bool) (s : AddState) : List NewTx → HashSet
  | [] => s.scriptHashesAffected
  | nt :: nts =>
      match addInputs H getTXOInfo isNew nt.hash { s with seenParents := ∅ } 0 nt.ctx.vin with
      | .error _ => affectedByInputs H getTXOInfo isNew nt.hash { s with seenParents := ∅ } 0
          nt.ctx.vin
      | .ok s => affectedByAllInputs isNew s nts

/--
What `addNewTxs` leaves in its by-reference set `scriptHashesAffected` when it
throws a `ConsistencyError`.
-/
def affectedAtThrow (mp : Mempool) (scriptHashesAffected : HashSet) (txsNew : List NewTx) :
    HashSet :=
  affectedByAllInputs H getTXOInfo (fun h => txsNew.any (·.hash == h))
    (txsNew.foldl (addTxOutputs H) { mp := mp, scriptHashesAffected := scriptHashesAffected })
    txsNew

end Mempool

namespace SynchMempool
namespace SynchMempoolTask

variable (cfg : Config) (ord : Orders)

/-- The end of `processResults`, with the handler of `ConsistencyError` in `process`. -/
def addDownloaded (t : SynchMempoolTask) : SynchMempoolTask :=
  match t.mempool.addNewTxs cfg.hashers (fun txo => t.cache[txo]?) t.scriptHashesAffected
      t.txsDownloaded with
  | .ok (mempool, scriptHashesAffected, res) =>
      { t with
        mempool := mempool
        scriptHashesAffected := scriptHashesAffected
        dspTxsAffected := t.dspTxsAffected ∪ res.dspTxsAffected }.emit .success
  | .error _ =>
      { t with
        mempool := t.mempool.clear
        scriptHashesAffected := t.mempool.affectedAtThrow cfg.hashers (fun txo => t.cache[txo]?)
          t.scriptHashesAffected t.txsDownloaded
        cleared := t.cleared ++ [t.mempool] }.redoFromStart

/-- `SynchMempoolTask::processResults`. -/
def processResults (t : SynchMempoolTask) : SynchMempoolTask :=
  if t.txsDownloaded.length + t.txsFailedDownload.size + t.txsIgnored.size ≠
      t.expectedNumTxsDownloaded then t.emit .errored
  else
    match (if t.txsDownloaded = [] then some t.cache
      else precache cfg t.tentativeMempoolTxHashes t.cache t.txsDownloaded) with
    | none => t.emit .errored
    | some cache =>
        match pruneFailedParents (ord.txs t.txsDownloaded) t.txsFailedDownload t.txsIgnored with
        | none => t
        | some (txsDownloaded, txsFailedDownload) =>
            addDownloaded cfg { t with
              cache := cache
              txsDownloaded := txsDownloaded
              txsFailedDownload := txsFailedDownload }

/-- `SynchMempoolTask::process`. -/
def process (t : SynchMempoolTask) : SynchMempoolTask :=
  match t.state with
  | .start =>
      { t with state := .awaitingGrmp, inFlight := t.inFlight ++ [.getrawmempool] }
  | .dlTxs =>
      if t.txsNeedingDownload ≠ [] then doDLNextTx cfg t
      else if t.txsWaitingForResponse = [] then
        -- the source sets `FinishedDlTxs` and calls itself
        processResults cfg ord { t with state := .processingResults }
      else t
  | .finishedDlTxs => processResults cfg ord { t with state := .processingResults }
  | .awaitingGrmp => t
  | .processingResults => t

/-- What the loop over the reply to `getrawmempool` works on. -/
structure Scan where
  droppedTxs : HashSet
  tentativeMempoolTxHashes : HashSet
  txsNeedingDownload : List TxHash
  newCt : Nat := 0

/-- One txid of the reply. -/
def scanTxid (s : Scan) (hash : TxHash) : Scan :=
  if hash ∈ s.droppedTxs then { s with droppedTxs := s.droppedTxs.erase hash }
  else if hash ∈ cfg.txnIgnoreSet then s
  else { s with
    tentativeMempoolTxHashes := s.tentativeMempoolTxHashes.insert hash
    txsNeedingDownload :=
      if hash ∈ s.txsNeedingDownload then s.txsNeedingDownload
      else s.txsNeedingDownload ++ [hash]
    newCt := s.newCt + 1 }

/-- The loop over the reply; false if it ends at an item that is not a tx hash. -/
def scanTxids (s : Scan) : List (Option TxHash) → Scan × Bool
  | [] => (s, true)
  | none :: _ => (s, false)
  | some hash :: txids => scanTxids (scanTxid cfg s hash) txids

/-- The end of the reply handler: the downloads begin. -/
def startDownloads (t : SynchMempoolTask) (scan : Scan) : SynchMempoolTask :=
  process cfg ord { t with
    expectedNumTxsDownloaded := scan.newCt % 2 ^ 32
    state := .dlTxs
    tentativeMempoolTxHashes := if scan.newCt % 2 ^ 32 ≠ 0 then scan.tentativeMempoolTxHashes
      else t.tentativeMempoolTxHashes }

/-- Drop the transactions that are not listed any more. -/
def dropUnlisted (t : SynchMempoolTask) (scan : Scan) : SynchMempoolTask :=
  match t.mempool.dropTxs ∅ (ord.txids scan.droppedTxs.toList) with
  | none => t
  | some (mempool, droppedTxs, affected, res) =>
      let t := { t with
        mempool := mempool
        txidsAffected := droppedTxs.foldl (·.insert ·) t.txidsAffected
        scriptHashesAffected := t.scriptHashesAffected ∪ affected
        dspTxsAffected := t.dspTxsAffected ∪ res.dspTxsAffected }
      if res.oldSize - res.newSize ≠ scan.droppedTxs.size then t.redoFromStart
      else startDownloads cfg ord t scan

/-- The reply handler of `doGetRawMempool`. -/
def onRawMempool (t : SynchMempoolTask) (txids : List (Option TxHash)) : SynchMempoolTask :=
  let keys : HashSet := t.mempool.txs.keys.foldl (·.insert ·) ∅
  let (scan, valid) := scanTxids cfg
    { droppedTxs := keys
      tentativeMempoolTxHashes := keys
      txsNeedingDownload := t.txsNeedingDownload } txids
  let t := { t with txsNeedingDownload := ord.txids scan.txsNeedingDownload }
  if !valid then t.emit .errored
  else if scan.droppedTxs.isEmpty then startDownloads cfg ord t scan
  else dropUnlisted cfg ord t scan

/-- A transaction that has only MWEB data. -/
def mwebOnly (nt : NewTx) : Bool := cfg.isMimble && nt.ctx.vin.isEmpty && nt.ctx.vout.isEmpty

/-- The reply handlers of `doDLNextTx`. -/
def onRawTransaction (t : SynchMempoolTask) (hash : TxHash) : TxReply → SynchMempoolTask
  | .unreadable => t.emit .errored
  | .tx nt =>
      if mwebOnly cfg nt then
        process cfg ord { t with
          txsIgnored := t.txsIgnored.insert hash
          txsWaitingForResponse := t.txsWaitingForResponse.erase hash }
      else if t.txsDownloaded.any fun d => d.hash = hash then t.emit .errored
      else if nt.hash ≠ hash then t.emit .errored
      else process cfg ord { t with
        txsDownloaded := t.txsDownloaded ++ [nt]
        txidsAffected := t.txidsAffected.insert hash
        txsWaitingForResponse := t.txsWaitingForResponse.erase hash }
  | .error =>
      let t := { t with
        txsFailedDownload := t.txsFailedDownload.insert hash
        txsWaitingForResponse := t.txsWaitingForResponse.erase hash }
      if t.txsDownloaded = [] ∧ t.txsFailedDownload.size > kFailedDownloadMax then
        t.emit .errored
      else process cfg ord t

/-- What can happen to the task. -/
inductive Event where
  /-- The scheduled call of `process`. -/
  | again
  | rawMempool (txids : List (Option TxHash))
  /-- An error response to `getrawmempool`, or no reply at all. -/
  | rawMempoolError
  | rawTransaction (hash : TxHash) (reply : TxReply)

/-- A reply needs its request; the node lists a txid once. -/
def Enabled (t : SynchMempoolTask) : Event → Prop
  | .again => t.again = true
  | .rawMempool txids => .getrawmempool ∈ t.inFlight ∧ (txids.filterMap id).Nodup
  | .rawMempoolError => .getrawmempool ∈ t.inFlight
  | .rawTransaction hash _ => .getrawtransaction hash ∈ t.inFlight

def handle (t : SynchMempoolTask) : Event → SynchMempoolTask
  | .again => process cfg ord { t with again := false }
  | .rawMempool txids =>
      onRawMempool cfg ord { t with inFlight := t.inFlight.erase .getrawmempool } txids
  | .rawMempoolError => { t with inFlight := t.inFlight.erase .getrawmempool }.emit .errored
  | .rawTransaction hash reply =>
      onRawTransaction cfg ord
        { t with inFlight := t.inFlight.erase (.getrawtransaction hash) } hash reply

/-- The runs of the task: any replies, in any order. -/
inductive Run (t₀ : SynchMempoolTask) : List Event → SynchMempoolTask → Prop
  | nil : Run t₀ [] t₀
  | snoc {es : List Event} {t : SynchMempoolTask} {e : Event} (ord : Orders) :
      Run t₀ es t → Enabled t e → Run t₀ (es ++ [e]) (handle cfg ord t e)

end SynchMempoolTask
end SynchMempool
end Shulcrum
