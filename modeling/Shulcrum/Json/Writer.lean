import Shulcrum.Json.Variant

/-!
# The JSON writer

`serialize` writes a `QVariant` as JSON text.  The output grows at its end only,
so a function that writes returns what it appends, and an output that was begun
when an exception is thrown is lost.
-/

namespace Shulcrum
namespace Json

/-- What the writer throws. -/
inductive WriteError where
  /-- `NestingLimitExceeded`. -/
  | nestingLimitExceeded
  | unableToSerializeDouble
  | unsupportedType
  deriving DecidableEq, Repr

/-- `MAX_RECURSION_DEPTH`. -/
def maxRecursionDepth : Nat := 1024

/-- `put` with a count, which as an `int` is negative from 2^31 on. -/
def put (c : UInt8) (nFill : UInt32) : QByteArray :=
  List.replicate (if nFill.toNat < 2 ^ 31 then nFill.toNat else 0) c

/-! ## Numbers -/

/-- `%PRIu64`. -/
def printNat (n : Nat) : QByteArray :=
  if n < 10 then [.ofNat (0x30 + n)] else printNat (n / 10) ++ [.ofNat (0x30 + n % 10)]

/-- `%PRId64`. -/
def printInt (i : Int) : QByteArray :=
  if i < 0 then 0x2d :: printNat (-i).toNat else printNat i.toNat

/-! ## Strings -/

/-- A hexadecimal digit of the table. -/
def hexChar (n : Nat) : UInt8 := if n < 10 then .ofNat (0x30 + n) else .ofNat (0x61 + (n - 10))

/-- The table `escapes`; none for a null pointer. -/
def escapes (ch : UInt8) : Option QByteArray :=
  if ch = 0x08 then some [0x5c, 0x62]
  else if ch = 0x09 then some [0x5c, 0x74]
  else if ch = 0x0a then some [0x5c, 0x6e]
  else if ch = 0x0c then some [0x5c, 0x66]
  else if ch = 0x0d then some [0x5c, 0x72]
  else if ch = 0x22 then some [0x5c, 0x22]
  else if ch = 0x5c then some [0x5c, 0x5c]
  else if ch < 0x20 ∨ ch = 0x7f then
    some [0x5c, 0x75, 0x30, 0x30, hexChar (ch.toNat / 16), hexChar (ch.toNat % 16)]
  else none

/-- `jsonEscape`. -/
def jsonEscape (inS : QByteArray) : QByteArray :=
  inS.flatMap fun ch => match escapes ch with
    | some escStr => escStr
    | none => [ch]

/-- `writeString`. -/
def writeString (ba : QByteArray) : QByteArray := 0x22 :: (jsonEscape ba ++ [0x22])

/-! ## Values -/

def nullLiteral : QByteArray := [0x6e, 0x75, 0x6c, 0x6c]

def trueLiteral : QByteArray := [0x74, 0x72, 0x75, 0x65]

def falseLiteral : QByteArray := [0x66, 0x61, 0x6c, 0x73, 0x65]

/-- A line end where the output is indented. -/
def lineEnd (prettyIndent : UInt32) : QByteArray := if prettyIndent ≠ 0 then [0x0a] else []

/-- `indentStr`, where the output is indented. -/
def indentStr (prettyIndent indentLevel : UInt32) : QByteArray :=
  if prettyIndent ≠ 0 then put 0x20 (prettyIndent * indentLevel) else []

/-- What is written around the elements of a container. -/
def writeBrackets (opening closing : UInt8) (prettyIndent indentLevel : UInt32)
    (elements : QByteArray) : QByteArray :=
  opening :: (lineEnd prettyIndent ++ elements ++ indentStr prettyIndent (indentLevel - 1) ++
    [closing])

/-- One element, with a comma if it is not the last. -/
def writeElement (prettyIndent indentLevel : UInt32) (last : Bool) (element : QByteArray) :
    QByteArray :=
  indentStr prettyIndent indentLevel ++ element ++ (if last then [] else [0x2c]) ++
    lineEnd prettyIndent

/-- The elements of a `QStringList`. -/
def writeStrings (prettyIndent indentLevel : UInt32) : List QString → QByteArray
  | [] => []
  | s :: ss =>
      writeElement prettyIndent indentLevel ss.isEmpty (writeString s.toUtf8) ++
        writeStrings prettyIndent indentLevel ss

/-- The variant of a byte array: null if it is empty. -/
def writeByteArray (ba : QByteArray) : QByteArray :=
  if ba.isEmpty then nullLiteral else writeString ba

/-- The first check of `writeVariant`. -/
def checkRecursion (recursionDepth : Nat) : Except WriteError Unit :=
  if recursionDepth > maxRecursionDepth then .error .nestingLimitExceeded else .ok ()

/-- The elements of a `QByteArrayList`. -/
def writeByteArrays (prettyIndent indentLevel : UInt32) (recursionDepth : Nat) :
    List QByteArray → Except WriteError QByteArray
  | [] => .ok []
  | ba :: bas => do
      checkRecursion (recursionDepth + 1)
      let rest ← writeByteArrays prettyIndent indentLevel recursionDepth bas
      return writeElement prettyIndent indentLevel bas.isEmpty (writeByteArray ba) ++ rest

variable (P : Platform)

mutual

/-- `writeVariant`. -/
def writeVariant (prettyIndent indentLevel : UInt32) (recursionDepth : Nat) :
    Variant P.Double → Except WriteError QByteArray
  | .null => do
      checkRecursion recursionDepth
      return nullLiteral
  | .byteArray ba => do
      checkRecursion recursionDepth
      return writeByteArray ba
  | .string s => do
      checkRecursion recursionDepth
      return writeString s.toUtf8
  | .stringList ss => do
      checkRecursion recursionDepth
      let level := max indentLevel 1
      return writeBrackets 0x5b 0x5d prettyIndent level (writeStrings prettyIndent level ss)
  | .byteArrayList bas => do
      checkRecursion recursionDepth
      let level := max indentLevel 1
      let elements ← writeByteArrays prettyIndent level recursionDepth bas
      return writeBrackets 0x5b 0x5d prettyIndent level elements
  | .list vs => do
      checkRecursion recursionDepth
      let level := max indentLevel 1
      let elements ← writeVariants prettyIndent level recursionDepth vs
      return writeBrackets 0x5b 0x5d prettyIndent level elements
  | .map entries => do
      checkRecursion recursionDepth
      let level := max indentLevel 1
      let elements ← writeEntries prettyIndent level recursionDepth entries
      return writeBrackets 0x7b 0x7d prettyIndent level elements
  | .hash entries => do
      checkRecursion recursionDepth
      let level := max indentLevel 1
      let elements ← writeEntries prettyIndent level recursionDepth entries
      return writeBrackets 0x7b 0x7d prettyIndent level elements
  | .bool b => do
      checkRecursion recursionDepth
      return if b then trueLiteral else falseLiteral
  | .longlong i => do
      checkRecursion recursionDepth
      return printInt i.toInt
  | .ulonglong u => do
      checkRecursion recursionDepth
      return printNat u.toNat
  | .double d => do
      checkRecursion recursionDepth
      match P.printDouble d with
      | some text => return text
      | none => throw .unableToSerializeDouble
  | .unsupported => do
      checkRecursion recursionDepth
      throw .unsupportedType

/-- The elements in `writeArray`. -/
def writeVariants (prettyIndent indentLevel : UInt32) (recursionDepth : Nat) :
    List (Variant P.Double) → Except WriteError QByteArray
  | [] => .ok []
  | v :: vs => do
      let element ← writeVariant prettyIndent (indentLevel + 1) (recursionDepth + 1) v
      let rest ← writeVariants prettyIndent indentLevel recursionDepth vs
      return writeElement prettyIndent indentLevel vs.isEmpty element ++ rest

/-- The entries in `writeObject`. -/
def writeEntries (prettyIndent indentLevel : UInt32) (recursionDepth : Nat) :
    List (QString × Variant P.Double) → Except WriteError QByteArray
  | [] => .ok []
  | (key, value) :: entries => do
      let element ← writeVariant prettyIndent (indentLevel + 1) (recursionDepth + 1) value
      let rest ← writeEntries prettyIndent indentLevel recursionDepth entries
      return writeElement prettyIndent indentLevel entries.isEmpty
        (writeString key.toUtf8 ++ [0x3a] ++ (if prettyIndent ≠ 0 then [0x20] else []) ++ element)
        ++ rest

end

/-- `serialize`. -/
def serialize (v : Variant P.Double) (prettyIndent indentLevel : UInt32) :
    Except WriteError QByteArray :=
  writeVariant P prettyIndent indentLevel 0 v

end Json
end Shulcrum
