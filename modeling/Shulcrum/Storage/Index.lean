import Shulcrum.BlockProc.Model
import Shulcrum.VarInt

/-!
# The index of the chain

The tables that describe the blocks of the chain, the counters and vectors kept
in memory beside them, and what adding and undoing a block does to them.  All
writes of one call go through a batch, so that every read sees the tables as
they were before the call.
-/

namespace Shulcrum
namespace Storage

open TreeMap

/-- `TxNumMax`: transaction numbers have 48 bits in the tables. -/
def txNumMax : Nat := 281474976710655

/-- A transaction number as it is read back from its six bytes. -/
def compactTxNum (n : Nat) : Nat := n % 281474976710656

/-- `CompactTXO`. -/
structure CompactTXO where
  txNum : Nat
  n : Nat
  deriving DecidableEq

/-- The constructor of `CompactTXO`, whose fields have 48 and 24 bits. -/
def CompactTXO.make (txNum n : Nat) : CompactTXO :=
  { txNum := compactTxNum txNum, n := n % 16777216 }

/-- A key of `scripthash_unspent`, see `mkShunspentKey`. -/
structure ShunspentKey where
  hashX : HashX
  ctxo : CompactTXO
  deriving DecidableEq

namespace ShunspentKey

/-- The byte order of the keys. -/
instance : Ord ShunspentKey where
  compare := compareLex (compareOn hashX)
    (compareLex (compareOn fun k => k.ctxo.txNum) (compareOn fun k => k.ctxo.n))

instance : Std.TransOrd ShunspentKey :=
  inferInstanceAs (Std.TransCmp (compareLex (compareOn hashX)
    (compareLex (compareOn fun k => k.ctxo.txNum) (compareOn fun k => k.ctxo.n))))

instance : Std.LawfulEqOrd ShunspentKey where
  eq_of_compare {a b} h := by
    have hlex : (compareOn hashX a b).then ((compareOn (fun k => k.ctxo.txNum) a b).then
        (compareOn (fun k => k.ctxo.n) a b)) = .eq := h
    rw [Ordering.then_eq_eq, Ordering.then_eq_eq] at hlex
    obtain ⟨hhash, htx, hn⟩ := hlex
    obtain ⟨_, _, _⟩ := a
    obtain ⟨_, _, _⟩ := b
    simp only [compareOn, Std.compare_eq_iff_eq] at hhash htx hn
    rw [hhash, htx, hn]

end ShunspentKey

/-- A value of `scripthash_unspent`. -/
structure SHUnspentValue where
  amount : Nat
  tokenDataPtr : Option TokenData
  deriving DecidableEq

/-- `BlkInfo`: the number of the first transaction of a block, and how many it has. -/
structure BlkInfo where
  txNum0 : Nat
  nTx : Nat
  deriving DecidableEq

/-- `UndoInfo`: what is needed to take a block back. -/
structure UndoInfo where
  height : Nat
  hash : Hash
  blkInfo : BlkInfo
  scriptHashes : List HashX
  addUndos : List (TXO × HashX × CompactTXO)
  delUndos : List (TXO × TXOInfo)

/-- The key of `txhash2txnum`: the last six bytes of the hash. -/
def makeKeyFromHash (hash : TxHash) : BitVec 48 := hash.setWidth 48

instance transOrd_key : Std.TransOrd (BitVec 48) := BitVec.instTransOrd

theorem maxReorg_default : 100 ≤ 100 ∧ 100 ≤ 500000 := by decide

theorem maxHistory_default : 1000 ≤ 125000 ∧ 125000 ≤ 25000000 := by decide

/-- The options the index depends on; the limits are checked when they are read. -/
structure Options where
  maxReorg : Nat := 100
  maxHistory : Nat := 125000
  /-- The record size of the header table. -/
  blockHeaderSize : Nat := 80
  maxReorg_inRange : 100 ≤ maxReorg ∧ maxReorg ≤ 500000 := by
    first | exact maxReorg_default | decide
  maxHistory_inRange : 1000 ≤ maxHistory ∧ maxHistory ≤ 25000000 := by
    first | exact maxHistory_default | decide

/-- `Storage::UTXOBatch`: the two tables of unspent outputs and their counter. -/
structure UTXOBatch where
  utxoset : Std.ExtTreeMap TXO TXOInfo compare := ∅
  shunspent : Std.ExtTreeMap ShunspentKey SHUnspentValue compare := ∅
  utxoCt : Int := 0

namespace UTXOBatch

/-- `UTXOBatch::add`. -/
def add (b : UTXOBatch) (txo : TXO) (info : TXOInfo) (ctxo : CompactTXO) : UTXOBatch :=
  { utxoset := b.utxoset.insert txo { info with txNum := compactTxNum info.txNum }
    shunspent := b.shunspent.insert ⟨info.hashX, ctxo⟩ ⟨info.amount, info.tokenDataPtr⟩
    utxoCt := b.utxoCt + 1 }

/-- `UTXOBatch::remove`. -/
def remove (b : UTXOBatch) (txo : TXO) (hashX : HashX) (ctxo : CompactTXO) : UTXOBatch :=
  { utxoset := b.utxoset.erase txo
    shunspent := b.shunspent.erase ⟨hashX, ctxo⟩
    utxoCt := b.utxoCt - 1 }

end UTXOBatch

/-- The tables and the values in memory that describe the blocks of the chain. -/
structure ChainIndex where
  /-- `scripthash_history`. -/
  shist : Std.ExtTreeMap HashX (List Nat) compare := ∅
  /-- `utxoset`, `scripthash_unspent` and `utxoCt`. -/
  utxos : UTXOBatch := {}
  /-- `txnum2txhash`. -/
  txNums : List TxHash := []
  txhash2txnum : Std.ExtTreeMap (BitVec 48) (List Nat) compare := ∅
  blkinfo : Std.ExtTreeMap Nat BlkInfo compare := ∅
  /-- The records of the header table. -/
  headers : List Header := []
  txNumNext : Nat := 0
  blkInfos : List BlkInfo := []
  blkInfosByTxNum : Std.ExtTreeMap Nat Nat compare := ∅
  headerVerifier : BTC.HeaderVerifier := {}

namespace ChainIndex

/-- `ConcatOperator`: the merge operator appends. -/
def concat {κ : Type} [Ord κ] [Std.TransOrd κ] (m : Std.ExtTreeMap κ (List Nat) compare)
    (k : κ) (l : List Nat) : Std.ExtTreeMap κ (List Nat) compare :=
  m.alter k fun old => some (old.getD [] ++ l)

/-- The output at index `oidx` as an entry of the UTXO set, unless this block spends it. -/
def newUtxo (ppb : PreProcessedBlock) (blockTxNum0 : Nat) (hashX : HashX) (oidx : Nat) :
    Option (TXO × TXOInfo) :=
  match ppb.outputs[oidx]? with
  | none => none
  | some out =>
      if out.spentInInputIndex.isSome then none
      else
        ppb.txInfos[out.txIdx]?.map fun txInfo =>
          ({ txHash := txInfo.hash, outN := out.outN },
            { amount := out.amount
              hashX := hashX
              confirmedHeight := some ppb.height
              txNum := blockTxNum0 + out.txIdx
              tokenDataPtr := out.tokenDataPtr })

/-- The loop of `addBlock` over the outputs: the entries it adds, in this order. -/
def newUtxos (ppb : PreProcessedBlock) (blockTxNum0 : Nat) : List (TXO × TXOInfo) :=
  ppb.hashXAggregated.toList.flatMap fun e => e.2.outs.filterMap (newUtxo ppb blockTxNum0 e.1)

/-- An input that spends an output of an earlier block. -/
structure Spend where
  inum : Nat
  txIdx : Nat
  txo : TXO
  info : TXOInfo

def failedToSpend (ppb : PreProcessedBlock) (inum : Nat) (inp : InputPt) : Exception :=
  .internalError ("Failed to spend: " ++ inp.prevoutHash.toHex ++ ":" ++ toString inp.prevoutN ++
    " (spending txid: " ++ (ppb.txHashForInputIdx inum).toHex ++ ")")

/-- One round of the loop of `addBlock` over the inputs. -/
def spendInput (utxoset : Std.ExtTreeMap TXO TXOInfo compare) (ppb : PreProcessedBlock)
    (inum : Nat) (inp : InputPt) : Except Exception (Option Spend) :=
  let txo : TXO := { txHash := inp.prevoutHash, outN := inp.prevoutN }
  if inum = 0 then .ok none
  else if inp.parentTxOutIdx.isSome then .ok none
  else
    match utxoset[txo]? with
    | some info => .ok (some { inum := inum, txIdx := inp.txIdx, txo := txo, info := info })
    | none => .error (failedToSpend ppb inum inp)

/-- The loop of `addBlock` over the inputs from number `inum` on. -/
def spendInputs (utxoset : Std.ExtTreeMap TXO TXOInfo compare) (ppb : PreProcessedBlock)
    (inum : Nat) : List InputPt → Except Exception (List Spend)
  | [] => .ok []
  | inp :: inputs =>
      match spendInput utxoset ppb inum inp with
      | .error e => .error e
      | .ok sp =>
          match spendInputs utxoset ppb (inum + 1) inputs with
          | .error e => .error e
          | .ok sps => .ok (sp.toList ++ sps)

/-- The spent output is from an earlier block, so the preprocessing did not see it. -/
def Spend.fromEarlierBlock (height : Nat) (sp : Spend) : Bool :=
  sp.info.confirmedHeight.any fun h => h != height

/-- Sort the lists that the inputs were added to. -/
def resortResolved (ag : AggregatedOutsIns) : AggregatedOutsIns :=
  { ag with
    ins := SortUnique.sort natLe ag.ins
    txNumsInvolvingHashX := SortUnique.sortUnique natLe ag.txNumsInvolvingHashX }

/-- `hashXAggregated` with the spends of outputs of earlier blocks. -/
def aggregateSpends (ppb : PreProcessedBlock) (spends : List Spend) : HashXAggregated :=
  let resolved := spends.filter (Spend.fromEarlierBlock ppb.height)
  let newHashXInputsResolved := resolved.map fun sp => sp.info.hashX
  let m := resolved.foldl
    (fun m sp => m.upd sp.info.hashX (AggregatedOutsIns.addIn sp.inum sp.txIdx))
    ppb.hashXAggregated
  m.map fun hashX ag => if hashX ∈ newHashXInputsResolved then resortResolved ag else ag

/-- The UTXO batch of `addBlock`: first the new outputs, then the spends. -/
def applyUtxos (b : UTXOBatch) (adds : List (TXO × TXOInfo)) (spends : List Spend) : UTXOBatch :=
  let b := adds.foldl
    (fun b e => b.add e.1 e.2 (CompactTXO.make e.2.txNum e.1.outN)) b
  spends.foldl
    (fun b sp => b.remove sp.txo sp.info.hashX (CompactTXO.make sp.info.txNum sp.txo.outN)) b

/-- The history table with the numbers of the block's transactions appended. -/
def appendHistory (shist : Std.ExtTreeMap HashX (List Nat) compare) (blockTxNum0 : Nat)
    (ag : HashXAggregated) : Std.ExtTreeMap HashX (List Nat) compare :=
  ag.toList.foldl
    (fun m e => concat m e.1
      (e.2.txNumsInvolvingHashX.map fun n => compactTxNum (n + blockTxNum0))) shist

/-- `TxHash2TxNumMgr::insertForBlock`. -/
def insertForBlock (m : Std.ExtTreeMap (BitVec 48) (List Nat) compare) (blockTxNum0 : Nat)
    (txInfos : List TxInfo) : Std.ExtTreeMap (BitVec 48) (List Nat) compare :=
  (txInfos.zipIdx blockTxNum0).foldl (fun m e => concat m (makeKeyFromHash e.1.hash) [e.2]) m

/-- `Storage::appendHeader`. -/
def appendHeader (opts : Options) (headers : List Header) (h : Header) (height : Nat) :
    Except Exception (List Header) :=
  if height ≠ headers.length then
    .error (.internalError ("Bad use of appendHeader -- expected height " ++
      toString headers.length ++ ", got height " ++ toString height))
  else if h.length > opts.blockHeaderSize then
    .error (.internalError ("Refusing to append a " ++ toString h.length ++
      "-byte header at height " ++ toString height ++ ": the record size is " ++
      toString opts.blockHeaderSize ++
      ". A chain with v2 headers needs extended_headers = true and a re-index."))
  else .ok (headers ++ [BTC.padHeaderRecord opts.blockHeaderSize h])

/-- What `addBlock` has found out about a block before it writes. -/
structure BlockChanges where
  adds : List (TXO × TXOInfo)
  spends : List Spend
  hashXAggregated : HashXAggregated

/-- The two loops of `addBlock` over outputs and inputs. -/
def blockChanges (ix : ChainIndex) (ppb : PreProcessedBlock) : Except Exception BlockChanges :=
  match spendInputs ix.utxos.utxoset ppb 0 ppb.inputs with
  | .error e => .error e
  | .ok spends =>
      .ok
        { adds := newUtxos ppb ix.txNumNext
          spends := spends
          hashXAggregated := aggregateSpends ppb spends }

/-- The undo information of a block. -/
def undoInfo (H : Hashers) (ix : ChainIndex) (ppb : PreProcessedBlock) (rawHeader : Header)
    (ch : BlockChanges) : UndoInfo :=
  { height := ppb.height
    hash := H.hashRev rawHeader
    blkInfo := { txNum0 := ix.txNumNext, nTx := ppb.txInfos.length }
    scriptHashes := ch.hashXAggregated.keys
    addUndos := ch.adds.map fun e =>
      (e.1, e.2.hashX, CompactTXO.make e.2.txNum e.1.outN)
    delUndos := ch.spends.map fun sp => (sp.txo, sp.info) }

/-- The writes of `addBlock` to the index, after the header was verified. -/
def writeBlock (ix : ChainIndex) (verifier : BTC.HeaderVerifier) (ppb : PreProcessedBlock)
    (ch : BlockChanges) (headers : List Header) : ChainIndex :=
  let blockTxNum0 := ix.txNumNext
  let blkInfo : BlkInfo := { txNum0 := blockTxNum0, nTx := ppb.txInfos.length }
  { shist := appendHistory ix.shist blockTxNum0 ch.hashXAggregated
    utxos := applyUtxos ix.utxos ch.adds ch.spends
    txNums := ix.txNums ++ ppb.txInfos.map TxInfo.hash
    txhash2txnum := insertForBlock ix.txhash2txnum blockTxNum0 ppb.txInfos
    blkinfo := ix.blkinfo.insert ppb.height blkInfo
    headers := headers
    txNumNext := blockTxNum0 + ppb.txInfos.length
    blkInfos := ix.blkInfos ++ [blkInfo]
    blkInfosByTxNum := ix.blkInfosByTxNum.insert blockTxNum0 ix.blkInfos.length
    headerVerifier := verifier }

/-- The part of `addBlock` after the verification of the header. -/
def connectBlock (H : Hashers) (opts : Options) (ix : ChainIndex) (verifier : BTC.HeaderVerifier)
    (ppb : PreProcessedBlock) : Except Exception (ChainIndex × UndoInfo) :=
  let rawHeader := verifier.prev
  if ix.txNumNext + ppb.txInfos.length ≠ ix.txNums.length + ppb.txInfos.length then
    .error (.internalError "TxNum file and internal txNumNext counter disagree! FIXME!")
  else
    match blockChanges ix ppb with
    | .error e => .error e
    | .ok ch =>
        match appendHeader opts ix.headers rawHeader ppb.height with
        | .error e => .error e
        | .ok headers =>
            .ok (writeBlock ix verifier ppb ch headers, undoInfo H ix ppb rawHeader ch)

/-- `Storage::headerForHeight_nolock`. -/
def headerForHeight (ix : ChainIndex) (height : Nat) : Option Header :=
  ix.headers[height]?.map BTC.trimHeaderRecord

/-- The row of a key in `txhash2txnum`: its numbers in variable length, one after the other. -/
def rowBytes (m : Std.ExtTreeMap (BitVec 48) (List Nat) compare) (key : BitVec 48) : List UInt8 :=
  (m[key]?.getD []).flatMap (VarInt.encode false)

/-- The numbers that `TxHash2TxNumMgr` reads in the row of a record. -/
def readRow (m : Std.ExtTreeMap (BitVec 48) (List Nat) compare) (rec : TxHash) :
    Except Exception (List Nat) :=
  let row := rowBytes m (makeKeyFromHash rec)
  match VarInt.deserializeAll false row.length row with
  | .error e =>
      .error (.databaseFormatError ("txhash2txnum: caught exception in truncateForUndo: " ++ e))
  | .ok vals => .ok (vals.map Prod.fst)

/-- Write back what is left of the bucket of a record, without numbers from `txNum` on. -/
def truncateBucket (old : Std.ExtTreeMap (BitVec 48) (List Nat) compare) (txNum : Nat)
    (m : Std.ExtTreeMap (BitVec 48) (List Nat) compare) (rec : TxHash) :
    Std.ExtTreeMap (BitVec 48) (List Nat) compare :=
  let key := makeKeyFromHash rec
  match old[key]? with
  | none => m
  | some vals =>
      let valBackToDb := vals.filter fun val => decide (val < txNum)
      if valBackToDb.isEmpty then m.erase key else m.insert key valBackToDb

/-- `TxHash2TxNumMgr::truncateForUndoPhased`: forget the numbers from `txNum` on. -/
def truncateForUndo (ix : ChainIndex) (txNum : Nat) :
    Except Exception (Std.ExtTreeMap (BitVec 48) (List Nat) compare) :=
  if ix.txNums.length < txNum then
    .error (.databaseError ("txhash2txnum: DBRecordArray does not have the hashes required " ++
      "for the specified truncation"))
  else
    -- the first phase reads the rows, and fails if one of them is not read to its end
    match (ix.txNums.drop txNum).mapM (readRow ix.txhash2txnum) with
    | .error e => .error e
    | .ok _ =>
        .ok ((ix.txNums.drop txNum).foldl (truncateBucket ix.txhash2txnum txNum) ix.txhash2txnum)

/-- The loop of `undoLatestBlock` over the script hashes of the block. -/
def undoHistories (shist : Std.ExtTreeMap HashX (List Nat) compare) (txNum0 : Nat) :
    List HashX → Except Exception (Std.ExtTreeMap HashX (List Nat) compare)
  | [] => .ok shist
  | sh :: rest =>
      match shist[sh]? with
      | none =>
          .error (.databaseError ("Undo failed because we failed to retrieve the scripthash " ++
            "history for " ++ sh.toHex))
      | some vec =>
          match undoHistories shist txNum0 rest with
          | .error e => .error e
          | .ok m =>
              let newVec := SortUnique.sortUnique natLe (vec.filter fun n => decide (n < txNum0))
              .ok (if newVec.isEmpty then m.erase sh else m.insert sh newVec)

/-- The UTXO batch of `undoLatestBlock`: first the deletions, then the additions. -/
def undoUtxos (b : UTXOBatch) (undo : UndoInfo) : UTXOBatch :=
  let b := undo.delUndos.foldl
    (fun b e => b.add e.1 e.2 (CompactTXO.make e.2.txNum e.1.outN)) b
  undo.addUndos.foldl (fun b e => b.remove e.1 e.2.1 e.2.2) b

/-- The part of `undoLatestBlock` that takes the block out of the index. -/
def disconnectBlock (ix : ChainIndex) (prevHeight : Nat) (prevHeader : Header)
    (undo : UndoInfo) : Except Exception ChainIndex :=
  let txNum0 := undo.blkInfo.txNum0
  match undoHistories ix.shist txNum0 undo.scriptHashes with
  | .error e => .error e
  | .ok shist =>
      match truncateForUndo ix txNum0 with
      | .error e => .error e
      | .ok txhash2txnum =>
          .ok
            { shist := shist
              utxos := undoUtxos ix.utxos undo
              txNums := ix.txNums.take txNum0
              txhash2txnum := txhash2txnum
              blkinfo := ix.blkinfo.erase undo.height
              headers := ix.headers.take (prevHeight + 1)
              txNumNext := txNum0
              blkInfos := ix.blkInfos.dropLast
              blkInfosByTxNum := ix.blkInfosByTxNum.erase txNum0
              headerVerifier := BTC.HeaderVerifier.reset (prevHeight + 1) prevHeader }

end ChainIndex
end Storage
end Shulcrum
