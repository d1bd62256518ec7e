import Shulcrum.Types
import Std.Data.ExtTreeMap
import Std.Data.ExtTreeSet

/-!
# Transactions and transaction outputs

The parts of a transaction the index reads, the names of outputs and the
information kept about an output.  The cryptographic hash functions are the
fields of `Hashers`.
-/

namespace Shulcrum

/-- Serialized token data of an output. -/
abbrev TokenData := List UInt8

/-- The name of an output: its transaction and its index there. -/
structure TXO where
  txHash : TxHash
  outN : Nat
  deriving DecidableEq, Repr

namespace TXO

/-- `TXO::operator<=>`: by transaction, then by index. -/
instance : Ord TXO where
  compare := compareLex (compareOn TXO.txHash) (compareOn TXO.outN)

instance : Std.TransOrd TXO :=
  inferInstanceAs (Std.TransCmp (compareLex (compareOn TXO.txHash) (compareOn TXO.outN)))

instance : Std.LawfulEqOrd TXO where
  eq_of_compare {a b} h := by
    have hlex : (compareOn TXO.txHash a b).then (compareOn TXO.outN a b) = .eq := h
    rw [Ordering.then_eq_eq] at hlex
    obtain ⟨hhash, hout⟩ := hlex
    cases a
    cases b
    simp only [compareOn, Std.compare_eq_iff_eq] at hhash hout
    rw [hhash, hout]

end TXO

/-- `TXOInfo`: what is known about an output.  Amounts are never negative. -/
structure TXOInfo where
  amount : Nat
  hashX : HashX
  confirmedHeight : Option Nat
  txNum : Nat
  tokenDataPtr : Option TokenData
  deriving DecidableEq, Repr

/-- An output of a transaction. -/
structure CTxOut where
  nValue : Nat
  scriptPubKey : List UInt8
  tokenDataPtr : Option TokenData := none
  deriving DecidableEq, Repr

/-- An input of a transaction. -/
structure CTxIn where
  prevout : TXO
  scriptSig : List UInt8 := []
  nSequence : Nat := 0
  deriving DecidableEq, Repr

/-- A transaction with its id. -/
structure CTransaction where
  hash : TxHash
  vin : List CTxIn
  vout : List CTxOut
  deriving DecidableEq, Repr

/-- The hash functions the program uses. -/
structure Hashers where
  /-- `BTC::HashXFromCScript`. -/
  hashXFromCScript : List UInt8 → HashX
  /-- The 16-bit prefix of `Rpa::Hash` of an input. -/
  rpaPrefix : CTxIn → UInt16
  /-- `BTC::HeaderPoWHash`, the block id of a serialized header. -/
  headerPoWHash : List UInt8 → Hash
  /-- `BTC::HashRev`. -/
  hashRev : List UInt8 → Hash

namespace BTC

/-- `BTC::IsOpReturn`: the script starts with `OP_RETURN`. -/
def isOpReturn (script : List UInt8) : Bool :=
  script.head? == some 0x6a

end BTC

/-- `Rpa::InputIndexLimit`. -/
def rpaInputIndexLimit : Nat := 30

end Shulcrum
