import Shulcrum.Header
import Shulcrum.Lib.SortUnique
import Shulcrum.Lib.TreeMap
import Shulcrum.Transaction

/-!
# Preprocessing of blocks

`fill` turns a downloaded block into flat lists of transactions, outputs and
inputs, together with the outputs, inputs and transactions that involve each
script hash.  Inputs that spend outputs of the same block are resolved here;
the others wait for the UTXO set.
-/

namespace Shulcrum

/-- The 24-bit limit on output indices, `IONumMax`. -/
def ioNumMax : Nat := 16777215

/-- `CTransaction::IsCoinBase`: one input, without a previous transaction. -/
def CTransaction.isCoinBase (tx : CTransaction) : Bool :=
  tx.vin.length == 1 && tx.vin.all fun input => input.prevout.txHash == 0

/-- A block.  The first transaction is the coinbase and no id is the null hash. -/
structure CBlock where
  header : BTC.CBlockHeader
  vtx : List CTransaction
  coinbase : vtx.head?.any CTransaction.isCoinBase = true
  hash_ne_null : ∀ tx ∈ vtx, tx.hash ≠ 0

/-- `PreProcessedBlock::TxInfo`. -/
structure TxInfo where
  hash : TxHash
  nInputs : Nat
  nOutputs : Nat
  input0Index : Option Nat
  output0Index : Option Nat
  deriving DecidableEq

/-- `PreProcessedBlock::OutPt`. -/
structure OutPt where
  txIdx : Nat
  outN : Nat
  amount : Nat
  spentInInputIndex : Option Nat := none
  tokenDataPtr : Option TokenData
  deriving DecidableEq

/-- `PreProcessedBlock::InputPt`. -/
structure InputPt where
  txIdx : Nat
  prevoutHash : TxHash
  prevoutN : Nat
  parentTxOutIdx : Option Nat := none
  deriving DecidableEq

/-- `PreProcessedBlock::AggregatedOutsIns`. -/
structure AggregatedOutsIns where
  outs : List Nat := []
  ins : List Nat := []
  txNumsInvolvingHashX : List Nat := []
  deriving DecidableEq

/-- The outputs, inputs and transactions of a block by script hash. -/
abbrev HashXAggregated := Std.ExtTreeMap HashX AggregatedOutsIns compare

structure PreProcessedBlock where
  height : Nat
  hash : Hash
  sizeBytes : Nat
  header : BTC.CBlockHeader
  txInfos : List TxInfo := []
  outputs : List OutPt := []
  inputs : List InputPt := []
  hashXAggregated : HashXAggregated := ∅
  nOpReturns : Nat := 0
  serializedRpaPrefixTable : Option (List UInt8) := none

/-- The comparison of the index lists. -/
def natLe (a b : Nat) : Bool := decide (a ≤ b)

namespace AggregatedOutsIns

/-- `vec.empty() || vec.back() != txIdx`, then `vec.push_back(txIdx)`. -/
def pushTxIdx (vec : List Nat) (txIdx : Nat) : List Nat :=
  if vec.getLast? = some txIdx then vec else vec ++ [txIdx]

/-- Record an output of transaction `txIdx`. -/
def addOut (outputIdx txIdx : Nat) (ag : AggregatedOutsIns) : AggregatedOutsIns :=
  { ag with
    outs := ag.outs ++ [outputIdx]
    txNumsInvolvingHashX := pushTxIdx ag.txNumsInvolvingHashX txIdx }

/-- Record an input of transaction `txIdx`. -/
def addIn (inIdx txIdx : Nat) (ag : AggregatedOutsIns) : AggregatedOutsIns :=
  { ag with
    ins := ag.ins ++ [inIdx]
    txNumsInvolvingHashX := pushTxIdx ag.txNumsInvolvingHashX txIdx }

/-- Sort the three lists and keep each transaction once. -/
def sorted (ag : AggregatedOutsIns) : AggregatedOutsIns :=
  { outs := SortUnique.sort natLe ag.outs
    ins := SortUnique.sort natLe ag.ins
    txNumsInvolvingHashX := SortUnique.sortUnique natLe ag.txNumsInvolvingHashX }

end AggregatedOutsIns

/-- `hashXAggregated[hashX]`, changed by `f`; a missing entry is created first. -/
def HashXAggregated.upd (m : HashXAggregated) (hashX : HashX)
    (f : AggregatedOutsIns → AggregatedOutsIns) : HashXAggregated :=
  m.alter hashX fun ag => some (f (ag.getD {}))

namespace PreProcessedBlock

/-- `PreProcessedBlock::txHashForInputIdx`; the null hash if there is none. -/
def txHashForInputIdx (ppb : PreProcessedBlock) (inputIdx : Nat) : TxHash :=
  ((ppb.inputs[inputIdx]?.bind fun inp => ppb.txInfos[inp.txIdx]?).map TxInfo.hash).getD 0

section Fill

variable (H : Hashers) (height : Nat)

/-- What the loop over the transactions has collected. -/
structure FillState where
  txInfos : List TxInfo := []
  outputs : List OutPt := []
  inputs : List InputPt := []
  txHashToIndex : Std.ExtTreeMap TxHash Nat compare := ∅
  hashXAggregated : HashXAggregated := ∅
  nOpReturns : Nat := 0

/-- The entries of `outputs` for one transaction. -/
def txOutputs (txIdx : Nat) (tx : CTransaction) : List OutPt :=
  tx.vout.zipIdx.map fun out =>
    { txIdx := txIdx
      outN := out.2
      amount := out.1.nValue
      tokenDataPtr := out.1.tokenDataPtr }

/-- The entries of `inputs` for one transaction. -/
def txInputs (txIdx : Nat) (tx : CTransaction) : List InputPt :=
  tx.vin.map fun input =>
    { txIdx := txIdx
      prevoutHash := input.prevout.txHash
      prevoutN := input.prevout.outN }

/-- The script hash of an output at index `out.2` of `outputs`, unless it is `OP_RETURN`. -/
def aggregateOutput (txIdx : Nat) (m : HashXAggregated) (out : CTxOut × Nat) : HashXAggregated :=
  if BTC.isOpReturn out.1.scriptPubKey then m
  else m.upd (H.hashXFromCScript out.1.scriptPubKey) (AggregatedOutsIns.addOut out.2 txIdx)

/-- `maxOutNSeen`, zero without outputs. -/
def maxOutNSeen (tx : CTransaction) : Nat := tx.vout.length - 1

/-- `maxIONumSeen`, the largest output index that a transaction after the coinbase spends. -/
def maxIONumSeen (txIdx : Nat) (tx : CTransaction) : Nat :=
  if txIdx > 0 then tx.vin.foldl (fun n input => max n input.prevout.outN) 0 else 0

def outNTooLarge (hash : TxHash) (n : Nat) : Exception :=
  .internalError ("Block " ++ toString height ++ " tx " ++ hash.toHex ++
    " has outN larger than " ++ toString ioNumMax ++ " (" ++ toString n ++
    "). This should never happen. Please contact the developers and report this issue.")

def prevoutNTooLarge (hash : TxHash) (n : Nat) : Exception :=
  .internalError ("Block " ++ toString height ++ " tx " ++ hash.toHex ++
    " has input prevoutN larger than " ++ toString ioNumMax ++ " (" ++ toString n ++
    "). This should never happen. Please contact the developers and report this issue.")

def noOutput0Index (hash : TxHash) : Exception :=
  .internalError ("Unexpected state: prevInfo has no output0Index for txid: " ++ hash.toHex ++
    " in block " ++ toString height)

/-- One round of the loop over `b.vtx`. -/
def fillTx (s : FillState) (tx : CTransaction) : Except Exception FillState :=
  let txIdx := s.txInfos.length
  if maxOutNSeen tx > ioNumMax then .error (outNTooLarge height tx.hash (maxOutNSeen tx))
  else if maxIONumSeen txIdx tx > ioNumMax then
    .error (prevoutNTooLarge height tx.hash (maxIONumSeen txIdx tx))
  else
    .ok
      { txInfos := s.txInfos ++
          [{ hash := tx.hash
             nInputs := tx.vin.length
             nOutputs := tx.vout.length
             input0Index := if tx.vin.isEmpty then none else some s.inputs.length
             output0Index := if tx.vout.isEmpty then none else some s.outputs.length }]
        outputs := s.outputs ++ txOutputs txIdx tx
        inputs := s.inputs ++ txInputs txIdx tx
        txHashToIndex := s.txHashToIndex.insert tx.hash txIdx
        hashXAggregated :=
          (tx.vout.zipIdx s.outputs.length).foldl (aggregateOutput H txIdx) s.hashXAggregated
        nOpReturns := s.nOpReturns + tx.vout.countP fun out => BTC.isOpReturn out.scriptPubKey }

/-- The loop over `b.vtx`. -/
def fillTxs (s : FillState) : List CTransaction → Except Exception FillState
  | [] => .ok s
  | tx :: vtx =>
      match fillTx H height s tx with
      | .error e => .error e
      | .ok s => fillTxs s vtx

/-- What the loop over the inputs changes; `inputs` are those it has passed. -/
structure ResolveState where
  inputs : List InputPt := []
  outputs : List OutPt
  hashXAggregated : HashXAggregated

/-- One round of the loop over the inputs: find the output if it is in this block. -/
def resolveInput (vtx : List CTransaction) (f : FillState) (s : ResolveState) (inp : InputPt) :
    Except Exception ResolveState :=
  let inIdx := s.inputs.length
  match f.txHashToIndex[inp.prevoutHash]? with
  | none => .ok { s with inputs := s.inputs ++ [inp] }
  | some prevTxIdx =>
      match f.txInfos[prevTxIdx]?.bind TxInfo.output0Index with
      | none => .error (noOutput0Index height inp.prevoutHash)
      | some output0Index =>
          let parentTxOutIdx := output0Index + inp.prevoutN
          -- an index past the outputs of the parent fails the assertion of the source
          match vtx[prevTxIdx]?.bind fun prevTx => prevTx.vout[inp.prevoutN]? with
          | none => .error .assertionFailed
          | some prevOut =>
              .ok
                { inputs := s.inputs ++ [{ inp with parentTxOutIdx := some parentTxOutIdx }]
                  outputs := s.outputs.modify parentTxOutIdx fun outp =>
                    { outp with spentInInputIndex := some inIdx }
                  hashXAggregated :=
                    if BTC.isOpReturn prevOut.scriptPubKey then s.hashXAggregated
                    else
                      s.hashXAggregated.upd (H.hashXFromCScript prevOut.scriptPubKey)
                        (AggregatedOutsIns.addIn inIdx inp.txIdx) }

/-- The loop over the inputs. -/
def resolveInputs (vtx : List CTransaction) (f : FillState) (s : ResolveState) :
    List InputPt → Except Exception ResolveState
  | [] => .ok s
  | inp :: inputs =>
      match resolveInput H height vtx f s inp with
      | .error e => .error e
      | .ok s => resolveInputs vtx f s inputs

/--
`PreProcessedBlock::fill`.  The work of the RPA task, which serializes the
prefix table of the block, is the argument `rpaTask`; its exception surfaces
when the task is awaited at the end.
-/
def fill (rpaTask : Option (List CTransaction → Except Exception (List UInt8)))
    (blockHash : Hash) (blockSize : Nat) (b : CBlock) : Except Exception PreProcessedBlock :=
  match fillTxs H height {} b.vtx with
  | .error e => .error e
  | .ok f =>
      match resolveInputs H height b.vtx f
          { outputs := f.outputs, hashXAggregated := f.hashXAggregated } f.inputs with
      | .error e => .error e
      | .ok r =>
          let ppb : PreProcessedBlock :=
            { height := height
              hash := blockHash
              sizeBytes := blockSize
              header := b.header
              txInfos := f.txInfos
              outputs := r.outputs
              inputs := r.inputs
              hashXAggregated := r.hashXAggregated.map fun _ ag => ag.sorted
              nOpReturns := f.nOpReturns }
          match rpaTask with
          | none => .ok ppb
          | some work =>
              match work b.vtx with
              | .error e => .error e
              | .ok ser => .ok { ppb with serializedRpaPrefixTable := some ser }

end Fill

end PreProcessedBlock
end Shulcrum
