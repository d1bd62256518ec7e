import Shulcrum.Transaction

/-!
# Double-spend proofs

`DSPs` keeps the known double-spend proofs and, for every transaction, the
proofs that affect it.  A proof lists the transactions it affects: the double
spender and its descendants in the mempool.
-/

namespace Shulcrum

/-- A set of hashes. -/
abbrev HashSet := Std.ExtTreeSet Hash compare

/-- `DSProof`. -/
structure DSProof where
  hash : Hash
  serializedProof : List UInt8
  txo : TXO
  txHash : TxHash
  descendants : HashSet

/-- `DSPs`: the proofs, and the proofs linked to each transaction. -/
structure DSPs where
  txDspsMap : Std.ExtTreeMap TxHash HashSet compare := ∅
  dsproofs : Std.ExtTreeMap Hash DSProof compare := ∅

namespace DSPs

def isEmpty (d : DSPs) : Bool := d.dsproofs.isEmpty

@[simp] theorem isEmpty_empty : isEmpty {} = true := rfl

def size (d : DSPs) : Nat := d.dsproofs.size

/-- `DSPs::numTxDspLinks`. -/
def numTxDspLinks (d : DSPs) : Nat :=
  d.txDspsMap.toList.foldl (fun n e => n + e.2.size) 0

/-- Link a transaction to a proof in the transaction table. -/
def link (m : Std.ExtTreeMap TxHash HashSet compare) (txHash : TxHash) (dspHash : Hash) :
    Std.ExtTreeMap TxHash HashSet compare :=
  m.alter txHash fun s => some ((s.getD ∅).insert dspHash)

/-- `DSPs::add`.  Hashes have 32 bytes by type, so only the descendants are checked. -/
def add (d : DSPs) (dsp : DSProof) : Except Exception (Bool × DSPs) :=
  if ¬ dsp.txHash ∈ dsp.descendants then
    .error (.badArgs "Expected dsp txHash to be valid and in its own descendant set")
  else if dsp.hash ∈ d.dsproofs then .ok (false, d)
  else .ok (true,
    { dsproofs := d.dsproofs.insert dsp.hash dsp
      txDspsMap := dsp.descendants.toList.foldl (fun m t => link m t dsp.hash) d.txDspsMap })

/-- One round of the loop of `DSPs::rm`. -/
def unlink (hash : Hash) (acc : Nat × Std.ExtTreeMap TxHash HashSet compare) (txHash : TxHash) :
    Nat × Std.ExtTreeMap TxHash HashSet compare :=
  match acc.2[txHash]? with
  | none => acc
  | some s =>
      let s := s.erase hash
      (acc.1 + 1, if s.isEmpty then acc.2.erase txHash else acc.2.insert txHash s)

/-- `DSPs::rm`: remove a proof and return the number of transactions linked to it. -/
def rm (d : DSPs) (hash : Hash) : Nat × DSPs :=
  match d.dsproofs[hash]? with
  | none => (0, d)
  | some dsp =>
      let (ret, m) := dsp.descendants.toList.foldl (unlink hash) (0, d.txDspsMap)
      (ret, { txDspsMap := m, dsproofs := d.dsproofs.erase hash })

/-- `DSPs::addTx`: link a transaction to an existing proof. -/
def addTx (d : DSPs) (dspHash : Hash) (txHash : TxHash) : Bool × DSPs :=
  match d.dsproofs[dspHash]? with
  | none => (false, d)
  | some dsp =>
      let newLink := ¬ dsp.hash ∈ d.txDspsMap.getD txHash ∅
      let newDescendant := ¬ txHash ∈ dsp.descendants
      (decide (newLink ∨ newDescendant),
        { txDspsMap := link d.txDspsMap txHash dsp.hash
          dsproofs := d.dsproofs.insert dspHash
            { dsp with descendants := dsp.descendants.insert txHash } })

/-- One round of the loop of `DSPs::rmTx`. -/
def rmTxRound (txHash : TxHash) (acc : Nat × DSPs) (dspHash : Hash) : Nat × DSPs :=
  match acc.2.dsproofs[dspHash]? with
  | none => acc
  | some dsp =>
      if dsp.txHash = txHash then (acc.1 + 1, (acc.2.rm dsp.hash).2)
      else (acc.1 + 1, { acc.2 with
        dsproofs := acc.2.dsproofs.insert dspHash
          { dsp with descendants := dsp.descendants.erase txHash } })

/-- `DSPs::rmTx`: unlink a transaction, and remove the proofs about it. -/
def rmTx (d : DSPs) (txHash : TxHash) : Nat × DSPs :=
  match d.txDspsMap[txHash]? with
  | none => (0, d)
  | some dspHashes =>
      dspHashes.toList.foldl (rmTxRound txHash)
        (0, { d with txDspsMap := d.txDspsMap.erase txHash })

/-- `DSPs::dspHashesForTx`. -/
def dspHashesForTx (d : DSPs) (txHash : TxHash) : Option HashSet :=
  d.txDspsMap[txHash]?

/-- `DSPs::txsLinkedToTxs`: all transactions linked to `txids` by a common proof. -/
def txsLinkedToTxs (d : DSPs) (txids : HashSet) : HashSet :=
  let linked : HashSet := txids.toList.foldl
    (fun acc txid => ((d.dspHashesForTx txid).getD ∅).toList.foldl (·.insert ·) acc) ∅
  linked.toList.foldl (fun acc dspHash =>
    match d.dsproofs[dspHash]? with
    | none => acc
    | some dsp => dsp.descendants.toList.foldl (·.insert ·) acc) ∅

end DSPs
end Shulcrum
