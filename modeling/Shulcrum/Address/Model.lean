import Shulcrum.Address.Base58
import Shulcrum.Address.Content
import Shulcrum.Transaction

/-!
# Addresses

An address is read from a text in Base58 or from a cash address.  A Base58
address does not say which of the test networks it is for, a cash address of a
test network neither.  A cash address has four types, a Base58 address two.

The texts are the bytes of the strings.
-/

namespace Shulcrum
namespace BTC

open SubsMgr.StatusHash (utf8)

/-- `BTC::Net`. -/
inductive Net where
  | mainNet
  | testNet
  | testNet4
  | scaleNet
  | chipNet
  | regTestNet
  | invalid
  deriving DecidableEq, Repr

namespace Address

/-- `Address::Kind`; `unnamed` is a number of the enumeration that has no name. -/
inductive Kind where
  | p2pkh
  | p2sh
  | tokenP2pkh
  | tokenP2sh
  | unnamed (b : UInt8)
  | invalid
  deriving DecidableEq, Repr

/-- The kind with a given number. -/
def Kind.ofByte (b : UInt8) : Kind :=
  if b = 0 then .p2pkh
  else if b = 1 then .p2sh
  else if b = 2 then .tokenP2pkh
  else if b = 3 then .tokenP2sh
  else if b = 0xff then .invalid
  else .unnamed b

/-- The number of a kind. -/
def Kind.toByte : Kind → UInt8
  | .p2pkh => 0
  | .p2sh => 1
  | .tokenP2pkh => 2
  | .tokenP2sh => 3
  | .unnamed b => b
  | .invalid => 0xff

/-- `InvalidVerByte`. -/
def invalidVerByte : UInt8 := 0xff

/-- `netVerByteKindMap`. -/
def netVerByteKindMap : Net → List (UInt8 × Kind)
  | .mainNet => [(0, .p2pkh), (5, .p2sh)]
  | .testNet | .testNet4 | .scaleNet | .chipNet | .regTestNet => [(111, .p2pkh), (196, .p2sh)]
  | .invalid => []

/-- `verByteForNetAndKind`. -/
def verByteForNetAndKind (net : Net) (kind : Kind) : UInt8 :=
  let kind := if kind = .tokenP2pkh then .p2pkh else if kind = .tokenP2sh then .p2sh else kind
  match (netVerByteKindMap net).find? fun e => e.2 = kind with
  | some e => e.1
  | none => invalidVerByte

/-- `kindForNetAndVerByte`. -/
def kindForNetAndVerByte (net : Net) (verByte : UInt8) : Kind :=
  match (netVerByteKindMap net).find? fun e => e.1 = verByte with
  | some e => e.2
  | none => .invalid

/-- `netForVerByte`; four of the networks are skipped. -/
def netForVerByte (verByte : UInt8) : Net :=
  match [Net.mainNet, .testNet, .testNet4, .scaleNet, .chipNet, .regTestNet].find? fun net =>
      decide (net ≠ .regTestNet ∧ net ≠ .testNet4 ∧ net ≠ .scaleNet ∧ net ≠ .chipNet) &&
        (netVerByteKindMap net).any fun e => e.1 = verByte with
  | some net => net
  | none => .invalid

/-- `H160Len`. -/
def h160Len : Nat := 20

/-- `H256Len`. -/
def h256Len : Nat := 32

/-- The prefix of the cash addresses of a network. -/
def cashAddrPrefix : Net → Option (List UInt8)
  | .mainNet => some (utf8 "bitcoincash")
  | .testNet | .testNet4 | .scaleNet | .chipNet => some (utf8 "bchtest")
  | .regTestNet => some (utf8 "bchreg")
  | .invalid => none

end Address

open Address

/-- `BTC::Address`. -/
structure Address where
  net : Net := .invalid
  verByte : UInt8 := invalidVerByte
  hash : List UInt8 := []
  kind : Kind := .invalid
  deriving DecidableEq

namespace Address

/-- `isValid`. -/
def isValid (a : Address) : Bool :=
  a.kind ≠ .invalid && (a.hash.length = h160Len || a.hash.length = h256Len) &&
    a.net ≠ .invalid && a.verByte ≠ invalidVerByte

/-- `autosetKind`: the kind by the version byte, or a default address. -/
def autosetKind (a : Address) : Address :=
  let kind := kindForNetAndVerByte a.net a.verByte
  if a.hash.length = h160Len then
    if kind ≠ .invalid then { a with kind := kind } else {}
  else if a.hash.length = h256Len then
    if kind = .p2sh ∨ kind = .tokenP2sh then { a with kind := kind } else {}
  else {}

/-- The networks that `fromString` tries, in order. -/
def cashNets : List Net := [.mainNet, .testNet, .testNet4, .scaleNet, .chipNet, .regTestNet]

/-- One network, with the content if its prefix fits. -/
def tryNet (ss : List UInt8) (net : Net) : Option (Net × CashAddr.CashAddrContent) :=
  let content := CashAddr.decodeCashAddrContent ss ((cashAddrPrefix net).getD [])
  if content.hash ≠ [] then some (net, content) else none

/-- The first network whose prefix fits, with the content. -/
def decodeCashNet (ss : List UInt8) : Option (Net × CashAddr.CashAddrContent) :=
  cashNets.findSome? (tryNet ss)

/-- `DecodeCash` in `fromString`. -/
def decodeCash (ss : List UInt8) : Except String (Option Address) :=
  match decodeCashNet ss with
  | none => .ok none
  | some (net, content) =>
      let kind := Kind.ofByte content.type
      let verByte := verByteForNetAndKind net kind
      if verByte = invalidVerByte then
        .error "Unknown content.type or other missing data on cash addr decode attempt"
      else
        let a : Address := { net := net, verByte := verByte, hash := content.hash, kind := kind }
        .ok (if a.isValid then some a else none)

section Text

variable (C : Crypto)

/-- `fromString`; the default address if the text is not one. -/
def fromString (ss : List UInt8) : Except Exception Address :=
  match Base58.decodeBase58Check C ss with
  | .error e => .error e
  | .ok (some dec) =>
      if ¬ (dec.length = 1 + h160Len ∨ dec.length = 1 + h256Len) then .ok {}
      else
        let verByte := dec.getD 0 0
        .ok (autosetKind
          { net := netForVerByte verByte, verByte := verByte, hash := dec.drop 1 })
  | .ok none =>
      match decodeCash ss with
      | .ok (some a) => .ok a
      | .ok none => .ok {}
      -- the exception is caught and logged
      | .error _ => .ok {}

/-- `toString` for a legacy address; empty if the address is not valid. -/
def toLegacyString (a : Address) : Except Exception (List UInt8) :=
  if a.isValid then Base58.encodeBase58Check C (a.verByte :: a.hash) else .ok []

/-- `toString` for a cash address; empty if the address is not valid. -/
def toCashString (a : Address) : Except String (List UInt8) :=
  if a.isValid then
    match cashAddrPrefix a.net with
    | none => .ok []
    | some pfx => CashAddr.encodeCashAddr pfx { type := a.kind.toByte, hash := a.hash }
  else .ok []

/-- `isCompatibleWithNet`. -/
def isCompatibleWithNet (a : Address) (net : Net) : Bool :=
  if a.net = .invalid ∨ net = .invalid then false
  else if net = a.net then true
  else
    let other := { a with net := net, verByte := verByteForNetAndKind net a.kind }
    other.isValid && a.toLegacyString C = other.toLegacyString C
      && a.toCashString = other.toCashString

end Text

/-- `toCScript`; the hashes are short enough for a push of one byte. -/
def toCScript (a : Address) : List UInt8 :=
  if a.hash.length = h160Len then
    if a.kind = .p2pkh ∨ a.kind = .tokenP2pkh then
      [0x76, 0xa9, UInt8.ofNat a.hash.length] ++ a.hash ++ [0x88, 0xac]
    else if a.kind = .p2sh ∨ a.kind = .tokenP2sh then
      [0xa9, UInt8.ofNat a.hash.length] ++ a.hash ++ [0x87]
    else []
  else if a.hash.length = h256Len ∧ (a.kind = .p2sh ∨ a.kind = .tokenP2sh) then
    [0xaa, UInt8.ofNat a.hash.length] ++ a.hash ++ [0x87]
  else []

/-- `toHashX`; none if there is no script. -/
def toHashX (H : Hashers) (a : Address) : Option HashX :=
  if a.toCScript = [] then none else some (H.hashXFromCScript a.toCScript)

end Address
end BTC
end Shulcrum
