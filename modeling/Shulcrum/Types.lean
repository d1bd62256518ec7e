import Mathlib.Data.BitVec

/-!
# Common types

Hashes, amounts and exceptions shared by the whole development.

A 32-byte hash is a `BitVec 256` whose most significant byte is the first byte
of the string, so that the numeric order is the lexicographic byte order.
Block heights and transaction numbers are natural numbers.
-/

namespace Shulcrum

/-- A 32-byte hash. -/
abbrev Hash := BitVec 256

instance : Std.TransOrd Hash := BitVec.instTransOrd

instance : LawfulBEq Hash := instLawfulBEq

/-- A transaction id, in the byte order of the tables. -/
abbrev TxHash := Hash

/-- A script hash, the key of the address index. -/
abbrev HashX := Hash

/-- The exceptions thrown by the program, with their message. -/
inductive Exception where
  | badArgs (msg : String)
  | internalError (msg : String)
  | databaseError (msg : String)
  | databaseFormatError (msg : String)
  | databaseSerializationError (msg : String)
  | historyTooLarge (msg : String)
  | undoInfoMissing (msg : String)
  /-- An `assert` of the source does not hold. -/
  | assertionFailed
  deriving DecidableEq, Repr

end Shulcrum
