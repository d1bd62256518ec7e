import Shulcrum.Lib.KeyValue
import Shulcrum.VarInt

/-!
# Record arrays in a table

`DBRecordArray` keeps records of one size in a sorted table.  Consecutive
records share a row, a *bucket*, whose key is the bucket number in big-endian
variable length, so that the rows are ordered as the buckets.  The row with
the empty key holds the metadata.

Reads go to the table.  Writes are collected in a batch: an append merges a
record into the last bucket, and a cut rewrites the bucket it falls into and
deletes the rows after it.
-/

namespace Shulcrum
namespace Storage

open BTC KeyValue

/-- A byte string: a key, a value or a record. -/
abbrev Bytes := List UInt8

/-- A column family with the bytewise comparator and the `ConcatOperator`. -/
abbrev ColumnFamily := Std.ExtTreeMap Bytes Bytes compare

/-- `DBRecordArray::MetaData`. -/
structure MetaData where
  magic : UInt32 := 0
  recSz : Nat := 0
  bucketNRecs : Nat := 0
  nRecs : Nat := 0
  deriving DecidableEq

namespace MetaData

/-- `MetaData::toBytes`. -/
def toBytes (m : MetaData) : Bytes :=
  leBytes 4 m.magic.toNat ++ leBytes 8 m.recSz ++ leBytes 8 m.bucketNRecs ++ leBytes 8 m.nRecs

/-- The field of `len` bytes at `pos`, or zero where the data ends before. -/
def fieldAt (bytes : Bytes) (pos len : Nat) : Nat :=
  if pos + len ≤ bytes.length then ofLE ((bytes.drop pos).take len) else 0

/-- `MetaData::fromBytes`: a failed read leaves the fields that were not read at zero. -/
def fromBytes (bytes : Bytes) : MetaData where
  magic := UInt32.ofNat (fieldAt bytes 0 4)
  recSz := fieldAt bytes 4 8
  bucketNRecs := fieldAt bytes 12 8
  nRecs := fieldAt bytes 20 8

end MetaData

/-- `DBRecordArray`, less its table. -/
structure DBRecordArray where
  name : String
  recSz : Nat
  magic : UInt32
  bucketNRecs : Nat
  bucketShiftAmt : Nat
  nRecs : Nat := 0

namespace DBRecordArray

/-- The key of the metadata row. -/
def kMetaDataKey : Bytes := []

/-- `DBRecordArray::makeKey`. -/
def makeKey (bucketNum : Nat) : Bytes := VarInt.encode true bucketNum

/-- A key after all rows: ten times `0xff`. -/
def pastTheEndKey : Bytes := List.replicate 10 0xff

/-- `std::has_single_bit`. -/
def hasSingleBit (n : Nat) : Bool := n == 2 ^ Nat.log2 n

/-- `std::popcount` of a 64-bit number. -/
def popcount (n : Nat) : Nat := (List.range 64).countP (n.testBit ·)

def recordNumToBucketNum (d : DBRecordArray) (recNum : Nat) : Nat := recNum >>> d.bucketShiftAmt

def recordNumBucketBase (d : DBRecordArray) (recNum : Nat) : Nat :=
  d.recordNumToBucketNum recNum <<< d.bucketShiftAmt

def recordNumOffsetFromBucketBase (d : DBRecordArray) (recNum : Nat) : Nat :=
  d.recSz * (recNum - d.recordNumBucketBase recNum)

/-- The metadata of the array. -/
def metaData (d : DBRecordArray) : MetaData where
  magic := d.magic
  recSz := d.recSz
  bucketNRecs := d.bucketNRecs
  nRecs := d.nRecs

/-- `DBRecordArray::writeMeta`. -/
def writeMeta (d : DBRecordArray) : Write Bytes UInt8 := .put kMetaDataKey d.metaData.toBytes

/-! ## Opening -/

/-- A number in hexadecimal, padded to `width` digits. -/
def hex (width n : Nat) : String := String.ofList ((Nat.toDigits 16 n).leftpad width '0')

/-- The hexadecimal digits of a byte string. -/
def toHex (b : Bytes) : String := String.join (b.map fun x => hex 2 x.toNat)

/-- The checks of `readOrInitMeta` on the metadata row.  A bucket size that differs is taken over
from the table. -/
def checkMeta (d : DBRecordArray) (m : MetaData) : Except String DBRecordArray :=
  if m.magic ≠ d.magic then
    .error ("readOrInitMeta: Magic bytes mismatch for DB " ++ d.name ++ ", expected: " ++
      hex 8 d.magic.toNat ++ ", got: " ++ hex 8 m.magic.toNat)
  else if m.recSz ≠ d.recSz then
    .error ("readOrInitMeta: Record size mismatch for DB " ++ d.name ++ ", expected: " ++
      toString d.recSz ++ ", got: " ++ toString m.recSz)
  else if m.bucketNRecs ≠ d.bucketNRecs then
    if ¬ hasSingleBit m.bucketNRecs then
      .error ("readOrInitMeta: bucketNRecs mismatch for DB " ++ d.name ++ ", expected: " ++
        toString d.bucketNRecs ++ ", got: " ++ toString m.bucketNRecs ++
        "; DB value is not a power of 2!")
    -- the product of 64-bit numbers may wrap
    else if d.recSz * m.bucketNRecs % 2 ^ 64 > 2 ^ 31 then
      .error ("readOrInitMeta: excessive bucket size read from metadata in DB " ++
        "(recSz * bucketNRecs = " ++ toString (d.recSz * m.bucketNRecs % 2 ^ 64) ++ ")")
    else .ok { d with
      bucketNRecs := m.bucketNRecs
      bucketShiftAmt := popcount (m.bucketNRecs - 1) }
  else .ok d

/-- The check of `readOrInitMeta` that the last row is the one the record count asks for. -/
def checkLastRow (d : DBRecordArray) (m : MetaData) (key value : Bytes) : Except String Unit :=
  if m.nRecs > 0 then
    let lastRecNum := m.nRecs - 1
    if key ≠ makeKey (d.recordNumToBucketNum lastRecNum) then
      .error ("readOrInitMeta: Database corruption possible for DB " ++ d.name ++
        " -- last row's key is not as expected. Expected: " ++
        toHex (makeKey (d.recordNumToBucketNum lastRecNum)) ++ ", got: " ++ toHex key)
    else if value.length % d.recSz ≠ 0 then
      .error ("readOrInitMeta: Database corruption possible for DB " ++ d.name ++
        " -- last row's data blob is not sized correctly. Expected a multiple of " ++
        toString d.recSz ++ ", got: " ++ toString value.length)
    else if d.recordNumBucketBase lastRecNum + value.length / d.recSz ≠ m.nRecs then
      .error ("readOrInitMeta: Database corruption possible for DB " ++ d.name ++
        " -- number of records in column family seems to mistmatch metadata. Expected: " ++
        toString m.nRecs ++ ", got: " ++
        toString (d.recordNumBucketBase lastRecNum + value.length / d.recSz))
    else .ok ()
  else if key ≠ kMetaDataKey then
    .error ("readOrInitMeta: Unrecognized DB format for " ++ d.name ++
      " -- when nRecs==0, the only row must be the metadata entry!")
  else .ok ()

/-- `DBRecordArray::readOrInitMeta`. -/
def readOrInitMeta (d : DBRecordArray) (cf : ColumnFamily) :
    Except String (DBRecordArray × ColumnFamily) :=
  let d := { d with nRecs := 0 }
  -- `SeekToFirst`
  match cf.minKey? with
  | none => .ok (d, write cf [d.writeMeta])
  | some first =>
      if first ≠ kMetaDataKey then
        .error ("readOrInitMeta: Unrecognized DB format for " ++ d.name ++
          " -- first row must be the metadata entry!")
      else do
        let m := MetaData.fromBytes (cf.getD first [])
        let d ← d.checkMeta m
        -- `SeekToLast`
        let last := cf.maxKey?.getD first
        d.checkLastRow m last (cf.getD last [])
        return ({ d with nRecs := m.nRecs }, cf)

/-- The constructor of `DBRecordArray`, whose sizes are 32-bit numbers. -/
def make (name : String) (cf : ColumnFamily) (recSz bucketNRecsPOT : Nat) (magic : UInt32) :
    Except String (DBRecordArray × ColumnFamily) :=
  if ¬ hasSingleBit bucketNRecsPOT then
    .error ("DBRecordArray: specified bucketNRecs size of `" ++ toString bucketNRecsPOT ++
      "` is not a power of 2!")
  else if recSz = 0 ∨ recSz * bucketNRecsPOT > 2 ^ 31 then
    .error ("DBRecordArray: invalid record size and/or bucket size combination " ++
      "(recSz * bucketNRecs = " ++ toString (recSz * bucketNRecsPOT) ++ ")")
  else
    readOrInitMeta {
      name := name
      recSz := recSz
      magic := magic
      bucketNRecs := bucketNRecsPOT
      bucketShiftAmt := popcount (bucketNRecsPOT - 1) } cf

/-! ## Writing -/

/-- `DBRecordArray::BatchWriteContext`. -/
structure BatchWriteContext where
  d : DBRecordArray
  batch : List (Write Bytes UInt8) := []
  lastWrite : Option (Nat × Bytes) := none
  dirty : Bool := false

namespace BatchWriteContext

/-- The key of a bucket: the one of the last write is kept. -/
def bucketKey (c : BatchWriteContext) (bucketNum : Nat) : Bytes :=
  match c.lastWrite with
  | some (num, key) => if num ≠ bucketNum then makeKey bucketNum else key
  | none => makeKey bucketNum

/-- `BatchWriteContext::append`: the error, if there is one, and the context after the call. -/
def append (c : BatchWriteContext) (data : Bytes) : Option String × BatchWriteContext :=
  if data.length ≠ c.d.recSz then
    (some ("Usage error for " ++ c.d.name ++ ". Bad write: " ++ toString data.length ++ " != " ++
      toString c.d.recSz ++ "!"), c)
  else
    let recNum := c.d.nRecs
    let bucketNum := c.d.recordNumToBucketNum recNum
    let key := c.bucketKey bucketNum
    (none, {
      d := { c.d with nRecs := recNum + 1 }
      batch := c.batch ++ [.merge key data]
      lastWrite := some (bucketNum, key)
      dirty := true })

/-- `BatchWriteContext::truncate`, which reads the table without the batch. -/
def truncate (c : BatchWriteContext) (cf : ColumnFamily) (newNumRecords : Nat) :
    Option String × BatchWriteContext :=
  if newNumRecords < c.d.nRecs then
    let firstBucketNum := c.d.recordNumToBucketNum newNumRecords
    let endOffset := c.d.recordNumOffsetFromBucketBase newNumRecords
    if endOffset > 0 then
      match cf[makeKey firstBucketNum]? with
      | none => (some ("DB error for " ++ c.d.name ++ ". Get returned error: NotFound: "), c)
      | some val =>
          if val.length ≤ endOffset then
            (some ("DB error for " ++ c.d.name ++ ". Possible corruption because value's size (" ++
              toString val.length ++ ") for bucketNum " ++ toString firstBucketNum ++
              " is less tha expected (" ++ toString endOffset ++ ")"), c)
          else
            (none, { c with
              d := { c.d with nRecs := newNumRecords }
              batch := c.batch ++ [.put (makeKey firstBucketNum) (val.take endOffset),
                .deleteRange (makeKey (firstBucketNum + 1)) pastTheEndKey]
              dirty := true })
    else
      (none, { c with
        d := { c.d with nRecs := newNumRecords }
        batch := c.batch ++ [.deleteRange (makeKey firstBucketNum) pastTheEndKey]
        dirty := true })
  else (none, c)

/-- The destructor: a context that wrote something writes the metadata last. -/
def finish (c : BatchWriteContext) : List (Write Bytes UInt8) :=
  if c.dirty then c.batch ++ [c.d.writeMeta] else c.batch

end BatchWriteContext

/-- `DBRecordArray::beginBatchWrite`. -/
def beginBatchWrite (d : DBRecordArray) : BatchWriteContext := { d := d }

/-! ## Reading -/

/-- `DBRecordArray::LastRead`: the bucket of the last read. -/
structure LastRead where
  bucketNum : Nat
  bucketValue : Bytes

/-- The message of a read past the end. -/
def outOfRange (d : DBRecordArray) (recNum : Nat) : String :=
  "DB error for " ++ d.name ++ ". Record number " ++ toString recNum ++
    " out of range (nRecs = " ++ toString d.nRecs ++ ")"

/-- `DBRecordArray::readSequentialInner`.  An error stands for the empty record that is returned
with it. -/
def readSequentialInner (d : DBRecordArray) (cf : ColumnFamily) (recNum : Nat)
    (lastRead : Option LastRead) : Except String Bytes × Option LastRead :=
  if recNum < d.nRecs then
    let bucketNum := d.recordNumToBucketNum recNum
    let offset := d.recordNumOffsetFromBucketBase recNum
    match lastRead.filter (·.bucketNum == bucketNum) with
    | some last =>
        if offset + d.recSz ≤ last.bucketValue.length then
          (.ok ((last.bucketValue.drop offset).take d.recSz), lastRead)
        else
          (.error ("DB error for " ++ d.name ++ ". Record number " ++ toString recNum ++
            " is missing from the cached DB data blob!"), lastRead)
    | none =>
        match cf[makeKey bucketNum]? with
        | none => (.error ("DB error for " ++ d.name ++ ". NotFound: "), lastRead)
        | some value =>
            if offset + d.recSz ≤ value.length then
              (.ok ((value.drop offset).take d.recSz), some ⟨bucketNum, value⟩)
            else
              (.error ("DB error for " ++ d.name ++ ". Record number " ++ toString recNum ++
                " is missing from the DB data blob!"), lastRead)
  else (.error (d.outOfRange recNum), lastRead)

/-- `DBRecordArray::readRecord`. -/
def readRecord (d : DBRecordArray) (cf : ColumnFamily) (recNum : Nat) : Except String Bytes :=
  (d.readSequentialInner cf recNum none).1

/-- The loop of `readRecords`: the records read, and the error that ended it. -/
def readRecordsLoop (d : DBRecordArray) (cf : ColumnFamily) :
    Nat → Nat → Option LastRead → List Bytes × Option String
  | 0, _, _ => ([], none)
  | count + 1, recNum, lastRead =>
      match d.readSequentialInner cf recNum lastRead with
      | (.error e, _) =>
          ([], some ("Unable to read record " ++ toString recNum ++ " from DB " ++ d.name ++
            " (error was: '" ++ e ++ "')"))
      | (.ok rec, lastRead) =>
          let (recs, err) := readRecordsLoop d cf count (recNum + 1) lastRead
          (rec :: recs, err)

/-- `DBRecordArray::readRecords`. -/
def readRecords (d : DBRecordArray) (cf : ColumnFamily) (recNumStart count : Nat) :
    List Bytes × Option String :=
  let count := if d.nRecs > recNumStart then min count (d.nRecs - recNumStart) else 0
  if count = 0 then ([], some "readRecords specification is out of range")
  else d.readRecordsLoop cf count recNumStart none

/-- `setErrStr`: only the first error is reported. -/
def setErrStr (err : Option String) (msg : String) : Option String := err <|> some msg

/-- The message about a record that is not there. -/
def notInDB (d : DBRecordArray) (recNum : Nat) : String :=
  d.name ++ ": Record number " ++ toString recNum ++ " is not in the DB"

/-- The buckets that a batch of `readRandomRecords` asks for.  A batch that starts with a record
that is not there is given up without `continueOnError`. -/
def collectBuckets (d : DBRecordArray) (continueOnError : Bool) :
    List Nat → ColumnFamily → Option String → Option ColumnFamily × Option String
  | [], buckets, err => (some buckets, err)
  | recNum :: recNums, buckets, err =>
      if recNum ≥ d.nRecs then
        let err := setErrStr err (d.notInDB recNum)
        if ¬ continueOnError ∧ buckets.isEmpty then (none, err)
        else collectBuckets d continueOnError recNums buckets err
      else
        collectBuckets d continueOnError recNums
          (buckets.insertIfNew (makeKey (d.recordNumToBucketNum recNum)) []) err

/-- `MultiGet`: a bucket that is not in the table stays empty. -/
def multiGet (cf buckets : ColumnFamily) : ColumnFamily :=
  buckets.map fun key _ => cf.getD key []

/-- The error of the first bucket that is not in the table. -/
def multiGetErr (d : DBRecordArray) (cf buckets : ColumnFamily) (err : Option String) :
    Option String :=
  buckets.keys.foldl (fun err key =>
    if key ∈ cf then err
    else
      let num := match VarInt.deserialize true key with
        | .ok (num, _) => toString num
        | .error e => e
      setErrStr err ("DB error for " ++ d.name ++ ". Bucket number " ++ num ++
        " is missing from the DB? Error was: NotFound: ")) err

/-- The last loop of a batch: the records of the buckets, whether all were found, and the error. -/
def collectRecords (d : DBRecordArray) (continueOnError : Bool) (buckets : ColumnFamily) :
    List Nat → Option String → List Bytes × Bool × Option String
  | [], err => ([], true, err)
  | recNum :: recNums, err =>
      let bucketBytes := buckets.getD (makeKey (d.recordNumToBucketNum recNum)) []
      let offset := d.recordNumOffsetFromBucketBase recNum
      if recNum < d.nRecs ∧ offset + d.recSz ≤ bucketBytes.length then
        let (recs, ok, err) := collectRecords d continueOnError buckets recNums err
        ((bucketBytes.drop offset).take d.recSz :: recs, ok, err)
      else
        -- a record past the end was reported when the buckets were collected
        let err := if recNum < d.nRecs then setErrStr err (d.notInDB recNum) else err
        if ¬ continueOnError then ([], false, err)
        else
          let (recs, ok, err) := collectRecords d continueOnError buckets recNums err
          ([] :: recs, ok, err)

/-- One batch of `readRandomRecords`. -/
def doBatch (d : DBRecordArray) (cf : ColumnFamily) (continueOnError : Bool)
    (batch : List Nat) (err : Option String) : List Bytes × Bool × Option String :=
  match d.collectBuckets continueOnError batch ∅ err with
  | (none, err) => ([], false, err)
  | (some buckets, err) =>
      d.collectRecords continueOnError (multiGet cf buckets) batch (d.multiGetErr cf buckets err)

/-- The number of records in a batch: eight mebibytes of buckets. -/
def batchSize (d : DBRecordArray) : Nat := max 1 (8 * 1024 * 1024 / (d.recSz * d.bucketNRecs))

theorem batchSize_pos (d : DBRecordArray) : 0 < d.batchSize := by
  unfold batchSize
  omega

/-- The loop of `readRandomRecords` over its batches. -/
def readRandomLoop (d : DBRecordArray) (cf : ColumnFamily) (continueOnError : Bool)
    (recNums : List Nat) (err : Option String) : List Bytes × Option String :=
  if _h : recNums = [] then ([], err)
  else
    match d.doBatch cf continueOnError (recNums.take d.batchSize) err with
    | (recs, false, err) => (recs, err)
    | (recs, true, err) =>
        let (more, err) := readRandomLoop d cf continueOnError (recNums.drop d.batchSize) err
        (recs ++ more, err)
termination_by recNums.length
decreasing_by
  have hpos : 0 < recNums.length := List.length_pos_iff.mpr _h
  have hsize := d.batchSize_pos
  rw [List.length_drop]
  omega

/-- `DBRecordArray::readRandomRecords`. -/
def readRandomRecords (d : DBRecordArray) (cf : ColumnFamily) (recNums : List Nat)
    (continueOnError : Bool) : List Bytes × Option String :=
  d.readRandomLoop cf continueOnError recNums none

end DBRecordArray
end Storage
end Shulcrum
