import Shulcrum.Lib.Positions
import Shulcrum.Storage.DBRecordArrayRun
import Shulcrum.Types

/-!
# The txid index

`TxHash2TxNumMgr` finds the number of a transaction from its hash.  The table
of the index has a part of the hash as its key, and as its value the numbers of
all transactions with this part, one after the other in variable length.  A
lookup reads the hashes of these numbers from the record array `txnum2txhash`
and compares them.

A block merges its numbers into the table.  An undo reads the hashes it is
about to cut off, and takes their numbers out of the rows they are in.
-/

namespace Shulcrum
namespace Storage

open BTC KeyValue

/-- `TxHash2TxNumMgr::KeyPos`: the part of the hash that is the key. -/
inductive KeyPos where
  | Beginning
  | Middle
  | End
  deriving DecidableEq, Repr

/-- `HashLen`. -/
def hashLen : Nat := 32

/-- `TxHash2TxNumMgr`, with the table of the index and the record array it reads. -/
structure TxHash2TxNumMgr where
  cf : ColumnFamily
  dra : DBRecordArray
  draCf : ColumnFamily
  keyBytes : Nat := 6
  keyPos : KeyPos := .End
  largestTxNumSeen : Int := -1
  /-- The check of the constructor. -/
  keyBytes_inRange : 0 < keyBytes ∧ keyBytes ≤ hashLen := by decide

namespace TxHash2TxNumMgr

/-! ## Keys -/

/-- The part of a hash that is its key. -/
def keyOf (m : TxHash2TxNumMgr) (bv : Bytes) : Bytes :=
  match m.keyPos with
  | .End => (bv.drop (bv.length - m.keyBytes)).take m.keyBytes
  | .Middle => (bv.drop (bv.length / 2 - m.keyBytes / 2)).take m.keyBytes
  | .Beginning => bv.take m.keyBytes

/-- `makeKeyFromHash`. -/
def makeKeyFromHash (m : TxHash2TxNumMgr) (bv : Bytes) : Except Exception Bytes :=
  if bv.length ≠ hashLen then
    .error (.databaseFormatError ("Hash \"" ++ DBRecordArray.toHex (bv.take 80) ++ "\" is not " ++
      toString hashLen ++ " bytes"))
  else .ok (m.keyOf bv)

def kLargestTxNumSeenKeyPrefix : Bytes := "+largestTxNumSeen".toUTF8.toList

/-- `makeLargestTxNumSeenKey`: longer than the key of a hash. -/
def makeLargestTxNumSeenKey (m : TxHash2TxNumMgr) : Bytes :=
  if kLargestTxNumSeenKeyPrefix.length ≤ m.keyBytes then
    kLargestTxNumSeenKeyPrefix ++
      List.replicate (m.keyBytes - kLargestTxNumSeenKeyPrefix.length + 1) 0x2d
  else kLargestTxNumSeenKeyPrefix

/-- `saveLargestTxNumSeen`. -/
def saveLargestTxNumSeen (m : TxHash2TxNumMgr) : Write Bytes UInt8 :=
  if m.largestTxNumSeen > -1 then
    .put m.makeLargestTxNumSeenKey (leBytes 8 m.largestTxNumSeen.toNat)
  else .delete m.makeLargestTxNumSeenKey

/-! ## Inserting -/

/-- The loop of `insertForBlock`, from number `txNum` on. -/
def insertForBlockInner1 (m : TxHash2TxNumMgr) (txNum : Nat) :
    List Bytes → Except Exception (List (Write Bytes UInt8))
  | [] => .ok []
  | txHash :: hashes => do
      let key ← m.makeKeyFromHash txHash
      let batch ← insertForBlockInner1 m (txNum + 1) hashes
      return .merge key (VarInt.encode false txNum) :: batch

/-- `insertForBlockInner2`. -/
def insertForBlockInner2 (m : TxHash2TxNumMgr) (blockTxNum0 : Nat) (hashes : List Bytes) :
    TxHash2TxNumMgr × List (Write Bytes UInt8) :=
  if hashes.isEmpty then (m, [])
  else
    let m := { m with largestTxNumSeen := (blockTxNum0 : Int) + hashes.length - 1 }
    (m, [m.saveLargestTxNumSeen])

/-- `insertForBlock`: the hashes of the block and what goes to the batch. -/
def insertForBlock (m : TxHash2TxNumMgr) (blockTxNum0 : Nat) (hashes : List Bytes) :
    Except Exception (TxHash2TxNumMgr × List (Write Bytes UInt8)) := do
  let merges ← m.insertForBlockInner1 blockTxNum0 hashes
  let (m, tail) := m.insertForBlockInner2 blockTxNum0 hashes
  return (m, merges ++ tail)

/-- The first phase of `insertForBlockPhased`: keys and values. -/
def insertPhase1 (m : TxHash2TxNumMgr) (blockTxNum0 : Nat) (hashes : List Bytes) :
    Except Exception (List (Bytes × Bytes)) :=
  (hashes.zipIdx blockTxNum0).mapM fun e =>
    (fun key => (key, VarInt.encode false e.2)) <$> m.makeKeyFromHash e.1

/-- `insertForBlockPhased`, with both phases done. -/
def insertForBlockPhased (m : TxHash2TxNumMgr) (blockTxNum0 : Nat) (hashes : List Bytes) :
    Except Exception (TxHash2TxNumMgr × List (Write Bytes UInt8)) := do
  let kv ← m.insertPhase1 blockTxNum0 hashes
  let merges := kv.map fun e => Write.merge e.1 e.2
  let (m, tail) := m.insertForBlockInner2 blockTxNum0 hashes
  return (m, merges ++ tail)

/-- `insertForBlockNoBatch`. -/
def insertForBlockNoBatch (m : TxHash2TxNumMgr) (blockTxNum0 : Nat) (hashes : List Bytes) :
    Except Exception TxHash2TxNumMgr := do
  let (m, batch) ← m.insertForBlock blockTxNum0 hashes
  return { m with cf := write m.cf batch }

/-! ## Undoing -/

/-- What the first phase of `truncateForUndoPhased` leaves for the second: the keys, the values to
write back, and which of them were read. -/
structure UndoPhased where
  keySlices : List Bytes := []
  valsBackToDb : List Bytes := []
  ok : List Bool := []

/-- The numbers below `txNum` of a row, as they stand there. -/
def filterRow (txNum : Nat) (row : Bytes) : Except Exception Bytes :=
  match VarInt.deserializeAll false row.length row with
  | .error e =>
      .error (.databaseFormatError ("txhash2txnum: caught exception in truncateForUndo: " ++ e))
  | .ok vals => .ok ((vals.filter fun val => ! decide (val.1 ≥ txNum)).flatMap Prod.snd)

/-- The row of one key: a row that is not there is passed over. -/
def undoRow (m : TxHash2TxNumMgr) (txNum : Nat) (key : Bytes) : Except Exception (Bytes × Bool) :=
  match m.cf[key]? with
  | none => .ok ([], false)
  | some row => (·, true) <$> filterRow txNum row

/-- The first phase of `truncateForUndoPhased`. -/
def undoPhase1 (m : TxHash2TxNumMgr) (txNum : Nat) : Except Exception UndoPhased :=
  let rfNR := m.dra.nRecs
  if rfNR < txNum then
    .error (.databaseError ("txhash2txnum: DBRecordArray does not have the hashes required for " ++
      "the specified truncation"))
  else if rfNR = txNum then .ok {}
  else
    let (recs, err) := m.dra.readRecords m.draCf txNum (rfNR - txNum)
    if recs.length ≠ rfNR - txNum ∨ err ≠ none then
      .error (.databaseError ("txhash2txnum: short read count or error reading DBRecordArray: " ++
        err.getD ""))
    else do
      let keySlices ← recs.mapM m.makeKeyFromHash
      let rows ← keySlices.mapM (m.undoRow txNum)
      return { keySlices := keySlices, valsBackToDb := rows.map Prod.fst, ok := rows.map Prod.snd }

/-- The writes of the second phase of `truncateForUndoPhased`. -/
def undoWrites (ph : UndoPhased) : List (Write Bytes UInt8) :=
  (ph.keySlices.zip (ph.valsBackToDb.zip ph.ok)).flatMap fun e =>
    if ! e.2.2 then []
    else if e.2.1.isEmpty then [.delete e.1]
    else [.put e.1 e.2.1]

/-- `truncateForUndoPhased`, with both phases done. -/
def truncateForUndoPhased (m : TxHash2TxNumMgr) (txNum : Nat) :
    Except Exception (TxHash2TxNumMgr × List (Write Bytes UInt8)) := do
  let ph ← m.undoPhase1 txNum
  if min (min ph.keySlices.length ph.valsBackToDb.length) ph.ok.length = 0 then return (m, [])
  else
    let m := { m with largestTxNumSeen := max ((txNum : Int) - 1) (-1) }
    return (m, undoWrites ph ++ [m.saveLargestTxNumSeen])

/-! ## Finding -/

/-- The first number whose record is the hash. -/
def firstMatch (recs : List Bytes) (nums : List Nat) (txHash : Bytes) : Option Nat :=
  ((recs.zip nums).find? fun e => decide (e.1 = txHash)).map Prod.snd

/-- `TxHash2TxNumMgr::find`. -/
def find (m : TxHash2TxNumMgr) (txHash : Bytes) : Except Exception (Option Nat) := do
  let key ← m.makeKeyFromHash txHash
  match m.cf[key]? with
  | none => return none
  | some row =>
      let fail (what : String) : Exception := .databaseError ("txhash2txnum: failed lookup for " ++
        "txHash " ++ DBRecordArray.toHex txHash ++ ": " ++ what)
      match VarInt.deserializeAll false row.length row with
      | .error e => .error (fail e)
      | .ok vals =>
          let txNums := vals.map Prod.fst
          if txNums.isEmpty then
            .error (fail ("Missing data for txHash: " ++ DBRecordArray.toHex txHash))
          else
            let recs := (m.dra.readRandomRecords m.draCf txNums true).1
            if recs.length ≠ txNums.length then
              .error (fail "Expected recs.size() == txNums.size()!")
            else return firstMatch recs txNums txHash

/-- The loop of `findMany` over the rows: the record numbers, and the range of each hash. -/
def collectRecNums : List (Option Bytes) → List Nat →
    Except Exception (List Nat × List (Option (Nat × Nat)))
  | [], recNums => .ok (recNums, [])
  | row :: rows, recNums =>
      match row with
      | none => do
          let (recNums, ranges) ← collectRecNums rows recNums
          return (recNums, none :: ranges)
      | some dataBlob =>
          if dataBlob.isEmpty then do
            let (recNums, ranges) ← collectRecNums rows recNums
            return (recNums, none :: ranges)
          else
            match VarInt.deserializeAll false dataBlob.length dataBlob with
            | .error e =>
                .error (.databaseError ("txhash2txnum: failed to deserialize a VarInt: " ++ e))
            | .ok vals => do
                let first := recNums.length
                let second := first + vals.length
                let (recNums, ranges) ← collectRecNums rows (recNums ++ vals.map Prod.fst)
                return (recNums, (if second > first then some (first, second) else none) :: ranges)

/-- `TxHash2TxNumMgr::findMany`. -/
def findMany (m : TxHash2TxNumMgr) (hashes : List Bytes) :
    Except Exception (List (Option Nat)) :=
  if hashes.isEmpty then .ok []
  else do
    let keySlices ← hashes.mapM m.makeKeyFromHash
    let (recNums, ranges) ← collectRecNums (keySlices.map (m.cf[·]?)) []
    let (recs, errStr) := m.dra.readRandomRecords m.draCf recNums true
    if recs.length ≠ recNums.length then
      .error (.databaseError ("Expected recs.size() == recNums.size()! Error: " ++ errStr.getD ""))
    else
      return (hashes.zip ranges).map fun e =>
        e.2.bind fun range =>
          firstMatch ((recs.drop range.1).take (range.2 - range.1))
            ((recNums.drop range.1).take (range.2 - range.1)) e.1

/-! ## Rebuilding -/

/-- `deleteAllEntries`. -/
def deleteAllEntries (m : TxHash2TxNumMgr) : Except Exception TxHash2TxNumMgr :=
  let firstKey := m.cf.minKey?.getD []
  let endKey := m.cf.maxKey?.getD []
  let endKey := if endKey.isEmpty then endKey else endKey ++ [0xff]
  let m := { m with largestTxNumSeen := -1 }
  let cf := write m.cf [.deleteRange firstKey endKey, m.saveLargestTxNumSeen]
  if cf.isEmpty then .ok { m with cf := cf }
  else .error (.internalError
    "txhash2txnum: delete all keys failed -- iterator still points to a row! FIXME!")

/-- The loop of `rebuildDB` from record `i` on, in at most `fuel` rounds. -/
def rebuildLoop (batchSize : Nat) : Nat → Nat → TxHash2TxNumMgr → Except Exception TxHash2TxNumMgr
  | 0, _, m => .ok m
  | fuel + 1, i, m =>
      if i < m.dra.nRecs then
        let (recs, err) := m.dra.readRecords m.draCf i (min batchSize (m.dra.nRecs - i))
        if err ≠ none then
          .error (.internalError ("Got error from DBRecordArray: " ++ err.getD ""))
        else do
          let m ← m.insertForBlockNoBatch i recs
          rebuildLoop batchSize fuel (i + recs.length) m
      else .ok m

/-- `rebuildDB`.  Every round indexes a record. -/
def rebuildDB (m : TxHash2TxNumMgr) : Except Exception TxHash2TxNumMgr := do
  let m ← m.deleteAllEntries
  rebuildLoop 50000 m.dra.nRecs 0 m

end TxHash2TxNumMgr
end Storage
end Shulcrum
