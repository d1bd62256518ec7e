import Shulcrum.Header.Codec
import Shulcrum.Storage.BlockHashes
import Shulcrum.Storage.BucketKeys
import Shulcrum.Storage.HistoryLimit
import Shulcrum.Storage.TxHeights
import Shulcrum.Storage.UndoCheck

/-!
# The startup of the storage

At startup the values in memory are computed again from the tables, and the
tables are checked against each other.  How much is checked depends on how often
the option `--checkdb` was given.
-/

namespace Shulcrum
namespace Storage

open TreeMap ChainIndex

/-! ## The tables on disk -/

/-- `Storage::MAX_HEADERS`. -/
def maxHeaders : Nat := 1000000000

/-- What the tables hold between two runs of the program. -/
structure Database where
  /-- The flag in `meta` that is set while a block is committed. -/
  dirty : Bool := false
  headers : List Header := []
  blkinfo : Std.ExtTreeMap Nat BlkInfo compare := ∅
  /-- The records of `txnum2txhash`. -/
  txNums : List TxHash := []
  /-- The rows of `txnum2txhash`. -/
  txNumRows : ColumnFamily := ∅
  txhash2txnum : Std.ExtTreeMap (BitVec 48) (List Nat) compare := ∅
  /-- The row of `txhash2txnum` with the largest number. -/
  largestTxNumSeen : Option Int := none
  /-- `scripthash_history`. -/
  shist : Std.ExtTreeMap HashX (List Nat) compare := ∅
  utxoset : Std.ExtTreeMap TXO TXOInfo compare := ∅
  shunspent : Std.ExtTreeMap ShunspentKey SHUnspentValue compare := ∅
  /-- The counter that `saveUtxoCt` writes to `meta`. -/
  utxoCt : Int := 0
  undo : UndoTable := ∅

/-- The undo records by their keys, as they are read back. -/
def undoTable (undo : Std.ExtTreeMap Nat UndoInfo compare) : UndoTable :=
  undo.toList.foldl (fun cf e => cf.insert (heightKey e.1) (readUndo e.1 e.2).toOption) ∅

/-- The undo records by their heights.  What does not deserialize is missing. -/
def UndoTable.records (cf : UndoTable) : Std.ExtTreeMap Nat UndoInfo compare :=
  (cf.toList.filterMap fun e => e.2.map fun undo => (BTC.ofBE e.1, undo)).foldl
    (fun m e => m.insert e.1 e.2) ∅

/-- `txNumsDRA` without records, as `openOrCreateDB` makes it. -/
def txNumsDRA : DBRecordArray :=
  { name := "txnum2txhash", recSz := 32, bucketNRecs := 16, bucketShiftAmt := 4
    magic := 0x000012e2, nRecs := 0 }

/-- The rows of `txnum2txhash` with the given records. -/
def txNumRows (txNums : List TxHash) : ColumnFamily :=
  (txNumsDRA.commit (KeyValue.apply ∅ txNumsDRA.writeMeta) none (txNums.map BTC.hashBytes)).2

/--
What a state has written to the tables.  The batch of a block sets the dirty flag and
clears it, and `txhash2txnum` has the number of the last id as its largest.
-/
def State.database (s : State) : Database :=
  { headers := s.index.headers
    blkinfo := s.index.blkinfo
    txNums := s.index.txNums
    txNumRows := txNumRows s.index.txNums
    txhash2txnum := s.index.txhash2txnum
    largestTxNumSeen :=
      if s.index.txNums = [] then none else some ((s.index.txNums.length : Int) - 1)
    shist := s.index.shist
    utxoset := s.index.utxos.utxoset
    shunspent := s.index.utxos.shunspent
    utxoCt := s.index.utxos.utxoCt
    undo := undoTable s.undo }

/-- The tables with the values in memory as they are before anything is loaded. -/
def Database.index (db : Database) : ChainIndex :=
  { shist := db.shist
    utxos := { utxoset := db.utxoset, shunspent := db.shunspent }
    txNums := db.txNums
    txhash2txnum := db.txhash2txnum
    blkinfo := db.blkinfo
    headers := db.headers }

/-! ## The checks -/

/-- `HeaderVerifier::operator()` on the bytes of a header, with the block id as a parameter. -/
def verifyBytes (headerPoWHash : Header → Hash) (v : BTC.HeaderVerifier) (header : Header) :
    Except String BTC.HeaderVerifier :=
  let height := v.prevHeight + 1
  if header.length ≠ BTC.headerSizeFor header then
    .error ("Header verification failed for header at height " ++ toString height ++
      ": wrong size")
  else
    match BTC.deserialize header with
    | .error what => .error what
    | .ok curHdr =>
        match v.checkInner headerPoWHash height curHdr with
        | .error err => .error err
        | .ok () => .ok { prevHeight := height, prev := header }

/-- One round of the loop over the headers. -/
def loadHeader (H : Hashers) (v : BTC.HeaderVerifier) (header : Header) :
    Except Exception BTC.HeaderVerifier :=
  match verifyBytes H.headerPoWHash v header with
  | .error err =>
      .error (.databaseFormatError
        (err ++ ". Possible databaase corruption. Delete the datadir and resynch."))
  | .ok v => .ok v

/-- `Storage::loadCheckHeadersInDB`: the number of headers is converted to `uint32_t`. -/
def loadCheckHeadersInDB (H : Hashers) (ix : ChainIndex) : Except Exception ChainIndex :=
  let num := ix.headers.length % 2 ^ 32
  if num > maxHeaders then
    .error (.databaseFormatError ("Header count (" ++ toString num ++
      ") in database exceeds MAX_HEADERS (" ++ toString maxHeaders ++ ")! This is likely due to " ++
      "a database format mistmatch. Delete the datadir and resynch it."))
  else
    match ((ix.headers.take num).map BTC.trimHeaderRecord).foldlM (loadHeader H) {} with
    | .error e => .error e
    | .ok v => .ok { ix with headerVerifier := v }

/-- The height that `latestTip` returns. -/
def ChainIndex.tipHeight (ix : ChainIndex) : Int :=
  if ix.headerVerifier.prev = [] ∨ ix.headerVerifier.prevHeight < 0 then -1
  else ix.headerVerifier.prevHeight

def resynchMsg : String :=
  "\n\nThe database may be corrupted. Delete the datadir and resynch it.\n"

/-- One round of the loop over the heights; the counter `ct` is kept in `txNumNext`. -/
def loadBlkInfo (ix : ChainIndex) (i : Nat) : Except Exception ChainIndex :=
  match ix.blkinfo[i]? with
  | none =>
      .error (.databaseError "Failed to read a blkInfo from db, the database may be corrupted")
  | some blkInfo =>
      if blkInfo.txNum0 ≠ ix.txNumNext then
        .error (.databaseFormatError ("BlkInfo for height " ++ toString i ++
          " does not match computed txNum of " ++ toString ix.txNumNext ++ "." ++ resynchMsg))
      else
        .ok
          { ix with
            txNumNext := ix.txNumNext + blkInfo.nTx
            blkInfos := ix.blkInfos ++ [blkInfo]
            blkInfosByTxNum := ix.blkInfosByTxNum.insert blkInfo.txNum0 ix.blkInfos.length }

/-- One round of the loop over the buckets: the ids seen, and the number of the next bucket. -/
def verifyBucket (cf : ColumnFamily) (ct : Nat) (seen : Nat × Nat) (key : Bytes) :
    Except Exception (Nat × Nat) :=
  match DBRecordArray.bucketNumFromDbKey key with
  | .error e => .error (.internalError e)
  | .ok num =>
      let bucketData := cf.getD key []
      let nrecs := bucketData.length / 32
      if num ≠ seen.2 then
        .error (.databaseFormatError ("txnum2txhash DBRecordArray has an invalid key for " ++
          "bucket num " ++ toString seen.2 ++ " (key=" ++ DBRecordArray.toHex key ++ ")." ++
          resynchMsg))
      else if nrecs = 0 ∨ bucketData.length % 32 ≠ 0 ∨
          (nrecs ≠ txNumsDRA.bucketNRecs ∧ seen.1 + nrecs ≠ ct) then
        .error (.databaseFormatError ("txnum2txhash DBRecordArray has invalid data of length " ++
          toString bucketData.length ++ " in bucket number " ++ toString seen.2 ++ "." ++
          resynchMsg))
      else .ok (seen.1 + nrecs, seen.2 + 1)

/-- The check of the buckets of `txnum2txhash`. -/
def verifyTxNums (cf : ColumnFamily) (ct : Nat) : Except Exception Unit :=
  match (DBRecordArray.seekToFirstBucket cf).foldlM (verifyBucket cf ct) (0, 0) with
  | .error e => .error e
  | .ok seen =>
      if seen.1 ≠ ct ∨ txNumsDRA.expectedNBuckets ct ≠ seen.2 then
        .error (.databaseFormatError ("txnum2txhash DBRecordArray appears to be missing data." ++
          resynchMsg))
      else .ok ()

/-- `Storage::loadCheckTxNumsDRAAndBlkInfo`, with the rows of `txnum2txhash`. -/
def loadCheckTxNumsDRAAndBlkInfo (checks : Nat) (cf : ColumnFamily)
    (ix : ChainIndex) : Except Exception ChainIndex :=
  match (List.range (ix.tipHeight + 1).toNat).foldlM loadBlkInfo ix with
  | .error e => .error e
  | .ok ix =>
      if ix.txNumNext ≠ ix.txNums.length then
        .error (.databaseFormatError ("BlkInfo txNums do not add up to expected value of " ++
          toString ix.txNumNext ++ " != " ++ toString ix.txNums.length ++ "." ++ resynchMsg))
      else if checks ≥ 2 then (verifyTxNums cf ix.txNumNext).map fun _ => ix
      else .ok ix

/-- The transaction ids that occur twice in the chain. -/
def dupeTxHashes : List TxHash :=
  [0xd5d27987d2a3dfc724e359870c6644b40e497bdc0589a033220fe15429d88599,
    0xe3bf3d07d4b0375638d5f1db5255fe07ba2c4cb067cd81b84ee974b6585fb468]

/-- What a read of `txnum2txhash` says about a record that is not there. -/
def notInDB (recNum : Nat) : String := "Record number " ++ toString recNum ++ " is not in the DB"

/-- The numbers that `VarInt::deserialize` reads in the row of a key. -/
def readTxNums (m : Std.ExtTreeMap (BitVec 48) (List Nat) compare) (key : BitVec 48) :
    Except String (List Nat) :=
  (VarInt.deserializeAll false (rowBytes m key).length (rowBytes m key)).map (·.map Prod.fst)

/-- `ProcBatch` of `TxHash2TxNumMgr::consistencyCheck`. -/
def procBatch (txNums : List TxHash) (batch : List (BitVec 48 × Nat)) : Except Exception Unit :=
  let batch := batch.mergeSort fun a b => a.2 ≤ b.2
  match batch.find? fun e => txNums.length ≤ e.2 with
  | some e => .error (.internalError ("short read of records: " ++ notInDB e.2))
  | none =>
      batch.forM fun e =>
        let expect := txNums[e.2]?.map makeKeyFromHash
        if expect ≠ some e.1 then
          .error (.databaseError ("record " ++ toString e.2 ++ " does not match key. expected: " ++
            (expect.getD 0).toHex ++ ", got: " ++ e.1.toHex))
        else .ok ()

/-- `TxHash2TxNumMgr::consistencyCheck`: the rows that are left, and the batch. -/
def consistencyCheck (txNums : List TxHash) (m : Std.ExtTreeMap (BitVec 48) (List Nat) compare) :
    List (BitVec 48) → List (BitVec 48 × Nat) → Except Exception Unit
  | [], batch => procBatch txNums batch
  | key :: keys, batch =>
      if (rowBytes m key).isEmpty then .error (.databaseFormatError "Empty db data!")
      else
        match readTxNums m key with
        -- `std::invalid_argument`, which is no `DatabaseError`
        | .error e => .error (.internalError e)
        | .ok nums =>
            let batch := batch ++ nums.map fun n => (key, n)
            if batch.length ≥ 50000 then do
              procBatch txNums batch
              consistencyCheck txNums m keys []
            else consistencyCheck txNums m keys batch

/-- The result for a hash in `TxHash2TxNumMgr::consistencyCheckSlowRev`. -/
def consistencyCheckResult (e : (TxHash × Option Nat) × Nat) : Except Exception Unit :=
  match e.1.2 with
  | none => .error (.databaseError "Expected a value not nullopt")
  | some n =>
      if n ≠ e.2 ∧ e.1.1 ∉ dupeTxHashes then
        .error (.databaseError ("Mismatched TxNum for hash: " ++ e.1.1.toHex))
      else .ok ()

/-- `TxHash2TxNumMgr::loadLargestTxNumSeen`. -/
def maxTxNumSeenInDB (row : Option Int) : Int := max (row.getD (-1)) (-1)

/-- The basic sanity checks: the first, the middle and the last id are found. -/
def sanityCheckTxHash2TxNum (largest : Option Int) (ix : ChainIndex) : Except Exception Unit := do
  let errMsg := "The txhash index failed basic sanity checks -- it is missing some records."
  let nrecs := ix.txNums.length
  if nrecs ≠ 0 then
    ([0, nrecs / 2, nrecs - 1].filterMap (ix.txNums[·]?)).forM fun hash =>
      match readTxNums ix.txhash2txnum (makeKeyFromHash hash) with
      | .error e =>
          .error (.databaseError ("txhash2txnum: failed lookup for txHash " ++ hash.toHex ++ ": " ++
            e))
      | .ok _ =>
          match ix.find hash with
          | .error e => .error e
          | .ok none => .error (.databaseError errMsg)
          | .ok (some _) => .ok ()
  else if ¬ ix.txhash2txnum.isEmpty ∨ largest.isSome then
    .error (.databaseFormatError
      ("Failed invariant: empty txNum file should mean empty db; " ++ errMsg))
  if maxTxNumSeenInDB largest + 1 ≠ nrecs then
    .error (.databaseFormatError ("Failed invariant: txNumCount != nrecs; " ++ errMsg))

/-- The rows that `TxHash2TxNumMgr::findMany` reads for all ids. -/
def readAllTxNums (ix : ChainIndex) : Except Exception Unit :=
  ix.txNums.forM fun hash =>
    match readTxNums ix.txhash2txnum (makeKeyFromHash hash) with
    | .error e =>
        .error (.databaseSerializationError ("txhash2txnum: failed to deserialize a VarInt: " ++ e))
    | .ok _ => .ok ()

/-- All checks of the index of transaction ids. -/
def checkTxHash2TxNum (checks : Nat) (largest : Option Int) (ix : ChainIndex) :
    Except Exception Unit := do
  sanityCheckTxHash2TxNum largest ix
  if checks ≥ 1 then consistencyCheck ix.txNums ix.txhash2txnum ix.txhash2txnum.keys []
  if checks ≥ 3 then
    readAllTxNums ix
    ((ix.txNums.zip (ix.findMany ix.txNums)).zipIdx).forM consistencyCheckResult

/-- `TxHash2TxNumMgr::rebuildDB`. -/
def rebuildTxHash2TxNum (txNums : List TxHash) : Std.ExtTreeMap (BitVec 48) (List Nat) compare :=
  txNums.zipIdx.foldl (fun m e => concat m (makeKeyFromHash e.1) [e.2]) ∅

/-- `Storage::loadCheckTxHash2TxNumMgr`: after a `DatabaseError` the index is built again. -/
def loadCheckTxHash2TxNumMgr (checks : Nat) (largest : Option Int) (ix : ChainIndex) :
    Except Exception ChainIndex :=
  match checkTxHash2TxNum checks largest ix with
  | .ok () => .ok ix
  | .error (.databaseError _) | .error (.databaseFormatError _)
  | .error (.databaseSerializationError _) =>
      .ok { ix with txhash2txnum := rebuildTxHash2TxNum ix.txNums }
  | .error e => .error e

/-- The outputs that were created twice: outpoint, script hash and heights. -/
def fudgeDueToBitcoinBugs : List (TXO × HashX × List Nat) :=
  [(⟨0xd5d27987d2a3dfc724e359870c6644b40e497bdc0589a033220fe15429d88599, 0⟩,
      0x76d95f02197b7c685b972104f6d7688a78bdcbb6a757fd5a139a195e59505fab, [91812, 91842]),
    (⟨0xe3bf3d07d4b0375638d5f1db5255fe07ba2c4cb067cd81b84ee974b6585fb468, 0⟩,
      0x49df7a6bfea6c409a5f03fd734a1f1a13cb8fafee6a3e08dd94db352498f99a6, [91722, 91880])]

/-- The exceptions that have a row in `scripthash_unspent`. -/
def exceptionsInShunspent (ix : ChainIndex) : Std.ExtTreeSet TXO compare :=
  fudgeDueToBitcoinBugs.foldl
    (fun seen e => e.2.2.foldl
      (fun seen height =>
        match ix.blkInfos[height]? with
        | none => seen
        | some bi =>
            if (⟨e.2.1, CompactTXO.make bi.txNum0 e.1.outN⟩ : ShunspentKey) ∈
                ix.utxos.shunspent then seen.insert e.1
            else seen) seen) ∅

/-- `TXO::toString`. -/
def TXO.str (txo : TXO) : String := txo.txHash.toHex ++ ":" ++ toString txo.outN

def inconsistent (txo : TXO) (info : TXOInfo) (what : String) : Exception :=
  .databaseError ("Inconsistent database: txo " ++ TXO.str txo ++
    (match info.confirmedHeight with
      | some h => " (height: " ++ toString h ++ ")"
      | none => " (missing height)") ++ what ++
    "\n\nThe database has been corrupted. Please delete the datadir and resynch to bitcoind.\n")

/-- The five conditions of one round of the loop over `utxoset`. -/
def checkUtxo (ix : ChainIndex) (txo : TXO) (info : TXOInfo) : Except Exception Unit :=
  let ctxo := CompactTXO.make info.txNum txo.outN
  if info.confirmedHeight.all fun (h : Nat) => decide ((h : Int) > ix.tipHeight) then
    .error (inconsistent txo info
      (" has unexpected height; current height: " ++ toString ix.tipHeight ++ "."))
  else if info.txNum ≥ ix.txNumNext then
    .error (inconsistent txo info
      (". TxNum: " ++ toString info.txNum ++ " >= " ++ toString ix.txNumNext ++ "."))
  else
    match ix.utxos.shunspent[(⟨info.hashX, ctxo⟩ : ShunspentKey)]? with
    | none =>
        .error (inconsistent txo info (". Failed to find ctxo " ++ toString ctxo.txNum ++ ":" ++
          toString ctxo.n ++ " in the scripthash_unspent db."))
    | some shval =>
        if info.amount ≠ shval.amount then
          .error (inconsistent txo info
            ". Utxo amount does not match the ctxo amount in the scripthash_unspent db.")
        else if info.tokenDataPtr ≠ shval.tokenDataPtr then
          .error (inconsistent txo info
            ". Token data does not match the ctxo token_data in the scripthash_unspent db.")
        else .ok ()

/-- The exceptions that have a row in `utxoset`. -/
def isException (txo : TXO) (info : TXOInfo) : Bool :=
  fudgeDueToBitcoinBugs.any fun e => e.1 == txo && e.2.2.contains (info.confirmedHeight.getD 0)

/-- The index with another counter of unspent outputs. -/
def withUtxoCt (ix : ChainIndex) (utxoCt : Int) : ChainIndex :=
  { ix with utxos := { ix.utxos with utxoCt := utxoCt } }

/-- `Storage::loadCheckUTXOsInDB`. -/
def loadCheckUTXOsInDB (checks : Nat) (metact : Int) (ix : ChainIndex) :
    Except Exception ChainIndex := do
  if checks ≥ 1 then
    ix.utxos.utxoset.toList.forM fun e => checkUtxo ix e.1 e.2
    let seenExceptions := ix.utxos.utxoset.toList.foldl
      (fun seen e => if isException e.1 e.2 then seen.insert e.1 else seen)
      (exceptionsInShunspent ix)
    let utxoCt := ix.utxos.utxoset.size
    if ((utxoCt : Int) - metact).natAbs > seenExceptions.size then
      throw (.databaseError ("UTXO count in meta table (" ++ toString metact ++
        ") does not match the actual number of UTXOs in the utxoset (" ++ toString utxoCt ++ ")." ++
        "\n\nThe database has been corrupted. Please delete the datadir and resynch to " ++
        "bitcoind.\n"))
    return withUtxoCt ix utxoCt
  else return withUtxoCt ix metact

/-- `CompactTXO::isValid`. -/
def CompactTXO.isValid (ctxo : CompactTXO) : Bool := ctxo != ⟨281474976710655, 16777215⟩

def shunspentMsg : String :=
  "This may be due to either a database format mismatch or data corruption." ++
    "\n\nDelete the datadir and resynch to bitcoind.\n"

/-- The outpoints that `loadCheckShunspentInDB` does not look at. -/
def exceptionsDueToBitcoinBugs : List TXO := fudgeDueToBitcoinBugs.map Prod.fst

/-- One round of the loop over `scripthash_unspent`: is the row one of the exceptions? -/
def checkShunspent (ix : ChainIndex) (key : ShunspentKey) (shuval : SHUnspentValue) :
    Except Exception (Option TXO) :=
  if ¬ key.ctxo.isValid then
    .error (.databaseError
      ("Read an invalid compact txo from the scripthash_unspent database. " ++ shunspentMsg))
  else if shuval.amount > maxMoney then
    .error (.databaseError ("Read an invalid SHUnspentValue from the scripthash_unspent " ++
      "database for scripthash: " ++ key.hashX.toHex ++ ". " ++ shunspentMsg))
  else
    let info : TXOInfo :=
      { amount := shuval.amount
        hashX := key.hashX
        confirmedHeight := heightForTxNum { index := ix } key.ctxo.txNum
        txNum := key.ctxo.txNum
        tokenDataPtr := shuval.tokenDataPtr }
    match hashForTxNum { index := ix } key.ctxo.txNum with
    | none =>
        .error (.databaseError ("Error reading TxHash for TxNum " ++ toString key.ctxo.txNum ++
          ": " ++ notInDB key.ctxo.txNum))
    | some txHash =>
        let txo : TXO := { txHash := txHash, outN := key.ctxo.n }
        if ix.utxos.utxoset[txo]? = some info then .ok none
        else if txo ∈ exceptionsDueToBitcoinBugs then .ok (some txo)
        else if txo ∈ ix.utxos.utxoset then
          .error (.databaseError ("TXO \"" ++ TXO.str txo ++
            "\" mismatch between scripthash_unspent and the UTXO table. " ++ shunspentMsg))
        else
          .error (.databaseError ("The scripthash_unspent table is missing a corresponding " ++
            "entry in the UTXO table for TXO \"" ++ TXO.str txo ++ "\". " ++ shunspentMsg))

/-- `Storage::loadCheckShunspentInDB`. -/
def loadCheckShunspentInDB (checks : Nat) (metact : Int) (ix : ChainIndex) :
    Except Exception Unit := do
  if checks ≥ 2 then
    let seen ← ix.utxos.shunspent.toList.mapM fun e => checkShunspent ix e.1 e.2
    let seenExceptions : Std.ExtTreeSet TXO compare :=
      (seen.filterMap id).foldl (fun set txo => set.insert txo) ∅
    let ctr := ix.utxos.shunspent.size
    if ((ctr : Int) - metact).natAbs > seenExceptions.size then
      throw (.databaseError ("UTXO count in meta table (" ++ toString metact ++
        ") does not match the actual number of UTXOs in shunspent (" ++ toString ctr ++ "). " ++
        shunspentMsg))

/-- A block was not committed as a whole. -/
def checkDirty (db : Database) : Except Exception Unit :=
  if db.dirty then
    .error (.databaseError ("It appears that Shulcrum was forcefully killed in the middle of " ++
      "committing a block to the db. We cannot figure out where exactly in the update process " ++
      "Shulcrum was killed, so we cannot undo the inconsistent state caused by the unexpected " ++
      "shutdown. Sorry!\n\nThe database has been corrupted. Please delete the datadir and " ++
      "resynch to bitcoind.\n"))
  else .ok ()

/--
`Storage::startup`, without the RPA index, for `--checkdb` given `checks` times.
The caches of the mempool are empty.
-/
def startup (H : Hashers) (opts : Options) (checks : Nat) (db : Database) :
    Except Exception State := do
  checkDirty db
  let ix ← loadCheckHeadersInDB H db.index
  let ix ← loadCheckTxNumsDRAAndBlkInfo checks db.txNumRows ix
  let ix ← loadCheckTxHash2TxNumMgr checks db.largestTxNumSeen ix
  let ix ← loadCheckUTXOsInDB checks db.utxoCt ix
  loadCheckShunspentInDB checks db.utxoCt ix
  let (undo, earliestUndoHeight) ← loadCheckEarliestUndo opts db.undo
  .ok
    { index := ix
      undo := undo.records
      earliestUndoHeight := earliestUndoHeight
      genesisHash := ix.headers.head?.map fun header =>
        reverseBytes (H.headerPoWHash (BTC.trimHeaderRecord header))
      blake2bActivationHeightCache :=
        if ix.headers = [] then Activation.noHeightCached
        else Activation.encode (Activation.search (ix.headers.map BTC.trimHeaderRecord)) }

end Storage
end Shulcrum
