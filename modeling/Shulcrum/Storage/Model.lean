import Shulcrum.Mempool.Model
import Shulcrum.Storage.Activation
import Shulcrum.Storage.Index
import Shulcrum.Storage.RpaRange
import Shulcrum.Storage.UndoCodec

/-!
# The storage of the server

The whole state of the storage subsystem, the two operations that change the
chain, `addBlock` and `undoLatestBlock`, and the query `getHistory`.
-/

namespace Shulcrum
namespace Storage

open TreeMap

/-- `InvalidUndoHeight`. -/
def invalidUndoHeight : Nat := 4294967295

/-- The state of the storage. -/
structure State where
  index : ChainIndex := {}
  /-- The undo records by height.  The table has them serialized, see `readUndo`. -/
  undo : Std.ExtTreeMap Nat UndoInfo compare := ∅
  earliestUndoHeight : Nat := invalidUndoHeight
  rpa : RpaIndex := {}
  genesisHash : Option Hash := none
  blake2bActivationHeightCache : Int := Activation.noHeightCached
  mempool : Mempool := {}
  recentBlockTxHashes : HashSet := ∅

/-- The subscriptions that are told about a change. -/
structure NotifyData where
  scriptHashesAffected : HashSet := ∅
  dspTxsAffected : HashSet := ∅
  txidsAffected : HashSet := ∅

/--
What a call of `addBlock` comes to.  After any exception other than
`HeaderVerificationFailure` the state is not guaranteed to be sane, and the
caller does not go on with it.
-/
inductive AddOutcome where
  | ok (s : State) (notify : Option NotifyData)
  | headerVerificationFailure (errMsg : String) (s : State)
  | threw (e : Exception)

section AddBlock

variable (H : Hashers) (opts : Options)

/-- The numbers of the transactions of a block, without the coinbase. -/
def blockTxidMap (blockTxNum0 : Nat) (ppb : PreProcessedBlock) :
    Std.ExtTreeMap TxHash Nat compare :=
  ((ppb.txInfos.zipIdx blockTxNum0).drop 1).foldl (fun m e => m.insertIfNew e.1.hash e.2) ∅

/-- The start of `addBlock`: the transactions of the block leave the mempool. -/
def confirmInMempool (s : State) (ppb : PreProcessedBlock) (notifySubs trackRecent : Bool) :
    State × Option NotifyData :=
  if notifySubs then
    let txidMap := blockTxidMap s.index.txNumNext ppb
    let (mempool, affected, res) := s.mempool.confirmedInBlock txidMap ppb.height ∅
    ({ s with
        mempool := mempool
        recentBlockTxHashes :=
          if trackRecent then ppb.txInfos.foldl (fun set info => set.insert info.hash) ∅ else ∅ },
      some
        { scriptHashesAffected := affected
          dspTxsAffected := res.dspTxsAffected
          txidsAffected :=
            (ppb.txInfos.drop 1).foldl (fun set info => set.insert info.hash) ∅ })
  else ({ s with recentBlockTxHashes := ∅ }, none)

/-- The undo table after a block at `height`: its record is saved and an old one expires. -/
def saveUndoInfo (s : State) (height : Nat) (undo : Option UndoInfo) : State :=
  let s :=
    match undo with
    | none => s
    | some undo =>
        { s with
          undo := s.undo.insert height undo
          earliestUndoHeight :=
            if height < s.earliestUndoHeight then height else s.earliestUndoHeight }
  if opts.maxReorg ≤ height ∧ s.earliestUndoHeight ≤ height - opts.maxReorg then
    { s with
      undo := s.undo.erase (height - opts.maxReorg)
      earliestUndoHeight := height - opts.maxReorg + 1 }
  else s

/-- `Storage::addBlock`. -/
def addBlock (s : State) (ppb : PreProcessedBlock) (saveUndo notifySubs trackRecent : Bool) :
    AddOutcome :=
  let (s, notify) := confirmInMempool s ppb notifySubs trackRecent
  match s.index.headerVerifier.verify H.headerPoWHash ppb.header with
  | .error errMsg => .headerVerificationFailure errMsg s
  | .ok verifier =>
      match s.index.connectBlock H opts verifier ppb with
      | .error e => .threw e
      | .ok (index, undo) =>
          let rawHeader := verifier.prev
          let s := { s with index := index }
          let s :=
            match ppb.serializedRpaPrefixTable with
            | none => s
            | some ser => { s with rpa := s.rpa.addRpaDataForHeight ppb.height ppb.hash ser }
          let s := saveUndoInfo opts s ppb.height (if saveUndo then some undo else none)
          .ok
            { s with
              genesisHash :=
                if ppb.height = 0 then some (H.hashRev rawHeader) else s.genesisHash
              blake2bActivationHeightCache :=
                if s.blake2bActivationHeightCache = -1 ∧ BTC.isHeaderV2 rawHeader then ppb.height
                else s.blake2bActivationHeightCache }
            (notify.map fun notify =>
              { notify with
                scriptHashesAffected :=
                  undo.scriptHashes.foldl (·.insert ·) notify.scriptHashesAffected })

end AddBlock

section UndoLatestBlock

variable (H : Hashers)

/-- The subscriptions that an undo reaches through the mempool it clears. -/
def notifyClearedMempool (mp : Mempool) : NotifyData :=
  { scriptHashesAffected := mp.hashXTxs.keys.foldl (·.insert ·) ∅
    dspTxsAffected := if mp.dsps.isEmpty then ∅ else mp.dsps.txDspsMap.keys.foldl (·.insert ·) ∅
    txidsAffected := mp.txs.keys.foldl (·.insert ·) ∅ }

/-- What a successful call of `undoLatestBlock` returns. -/
structure Undone where
  prevHeight : Nat
  state : State
  notify : Option NotifyData

/-- The consistency check of an undo record against the tip. -/
def undoInfoSane (s : State) (tip : Nat) (header : Header) (undo : UndoInfo) : Bool :=
  undo.height == tip && undo.hash == H.hashRev header && decide (tip < s.index.blkInfos.length) &&
    s.index.blkInfos.getLast? == some undo.blkInfo

/--
The undo record of the tip as it is read from the table.  A record whose bytes are
too many for the signed length in its header cannot be deserialized.
-/
def readUndo (tip : Nat) (undo : UndoInfo) : Except Exception UndoInfo :=
  if (UndoCodec.serialize undo).length < 2 ^ 31 then .ok undo
  else
    .error (.databaseSerializationError ("Unable to retrieve undo info for " ++ toString tip ++
      ": Key was retrieved ok, but data could not be deserialized"))

/-- `Storage::undoLatestBlock`. -/
def undoLatestBlock (s : State) (notifySubs : Bool) : Except Exception Undone :=
  let notify := if notifySubs then some (notifyClearedMempool s.mempool) else none
  let s := { s with mempool := s.mempool.clear, recentBlockTxHashes := ∅ }
  let header := s.index.headerVerifier.prev
  if s.index.headerVerifier.prevHeight ≤ 0 ∨ header.length ≠ BTC.headerSizeFor header then
    .error (.undoInfoMissing "No header to undo")
  else
    let tip := s.index.headerVerifier.prevHeight.toNat
    let prevHeight := tip - 1
    match s.index.headerForHeight prevHeight with
    | none => .error (.undoInfoMissing ("failed to read header " ++ toString prevHeight))
    | some prevHeader =>
        match s.undo[tip]? with
        | none => .error (.undoInfoMissing ("Unable to retrieve undo info for " ++ toString tip))
        | some undo =>
            match readUndo tip undo with
            | .error e => .error e
            | .ok undo =>
                if ¬ undoInfoSane H s tip header undo then
                  .error (.databaseFormatError ("The undo information for height " ++
                    toString tip ++ " was successfully retrieved from the database, but it " ++
                    "failed an internal consistency check."))
                else
                  match s.rpa.deleteRpaEntriesFromHeight undo.height false with
                  | .error e => .error e
                  | .ok rpa =>
                      match s.index.disconnectBlock prevHeight prevHeader undo with
                      | .error e => .error e
                      | .ok index =>
                          .ok
                            { prevHeight := prevHeight
                              state :=
                                { s with
                                  index := index
                                  undo := s.undo.erase undo.height
                                  earliestUndoHeight :=
                                    if s.earliestUndoHeight ≥ undo.height then invalidUndoHeight
                                    else s.earliestUndoHeight
                                  rpa := rpa
                                  blake2bActivationHeightCache :=
                                    if s.blake2bActivationHeightCache > prevHeight then
                                      Activation.noHeightCached
                                    else s.blake2bActivationHeightCache }
                              notify := notify.map fun notify =>
                                { notify with
                                  scriptHashesAffected := undo.scriptHashes.foldl (·.insert ·)
                                    notify.scriptHashesAffected
                                  txidsAffected :=
                                    ((s.index.txNums.drop undo.blkInfo.txNum0).take
                                      undo.blkInfo.nTx).foldl (·.insert ·)
                                      notify.txidsAffected } }

end UndoLatestBlock

section GetHistory

/-- `Storage::heightForTxNum`: look at the last block that starts at `n` or before. -/
def heightForTxNum (s : State) (n : Nat) : Option Nat :=
  match (s.index.blkInfosByTxNum.toList.filter fun e => decide (e.1 ≤ n)).getLast? with
  | none => none
  | some e =>
      match s.index.blkInfos[e.2]? with
      | none => none
      | some bi => if bi.txNum0 ≤ n ∧ n < bi.txNum0 + bi.nTx then some e.2 else none

/-- `Storage::hashForTxNum`. -/
def hashForTxNum (s : State) (n : Nat) : Option TxHash := s.index.txNums[n]?

/-- `Storage::HistoryItem`; unconfirmed items have height 0 or -1 and a fee. -/
structure HistoryItem where
  hash : TxHash
  height : Int
  fee : Option Int := none
  deriving DecidableEq

/-- `IncrementCtrAndThrowIfExceedsMaxHistory`, from counter value `ctr`. -/
def incrementCtr (opts : Options) (hashX : HashX) (ctr incr : Nat) : Except Exception Nat :=
  if ctr + incr > opts.maxHistory then
    .error (.historyTooLarge ("History for scripthash " ++ hashX.toHex ++
      " exceeds max history " ++ toString opts.maxHistory ++ " with " ++
      toString (ctr + incr) ++ " items!"))
  else .ok (ctr + incr)

/--
The loop of `getHistory` over the confirmed numbers.  The result is what was
collected and whether a lookup failed, which ends the call.
-/
def confirmedHistory (s : State) (fromHeight : Nat) (optToHeight : Option Nat) :
    List Nat → List HistoryItem × Bool
  | [] => ([], true)
  | num :: nums =>
      match heightForTxNum s num with
      | none => ([], false)
      | some height =>
          if optToHeight.any fun toHeight => decide (toHeight ≤ height) then ([], true)
          else if height < fromHeight then confirmedHistory s fromHeight optToHeight nums
          else
            match hashForTxNum s num with
            | none => ([], false)
            | some hash =>
                let (items, ok) := confirmedHistory s fromHeight optToHeight nums
                ({ hash := hash, height := height } :: items, ok)

/-- The unconfirmed part of `getHistory`. -/
def unconfirmedHistory (s : State) (txvec : List TxHash) : List HistoryItem :=
  txvec.filterMap fun hash =>
    s.mempool.txs[hash]?.map fun tx =>
      { hash := tx.hash
        height := if tx.hasUnconfirmedParents then -1 else 0
        fee := some tx.fee }

/--
`Storage::getHistory`.  An exception ends the call with what was collected up
to then.
-/
def getHistory (opts : Options) (s : State) (hashX : HashX) (conf unconf : Bool)
    (fromHeight : Nat) (optToHeight : Option Nat) : List HistoryItem :=
  let nums := if conf then s.index.shist[hashX]?.getD [] else []
  match incrementCtr opts hashX 0 nums.length with
  | .error _ => []
  | .ok ctr =>
      let (ret, ok) := confirmedHistory s fromHeight optToHeight nums
      if ok ∧ unconf then
        let txvec := s.mempool.hashXTxs[hashX]?.getD []
        match incrementCtr opts hashX ctr txvec.length with
        | .error _ => ret
        | .ok _ => ret ++ unconfirmedHistory s txvec
      else ret

end GetHistory

end Storage
end Shulcrum
