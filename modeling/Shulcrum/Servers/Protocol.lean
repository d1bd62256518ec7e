import Shulcrum.Lib.Fallible
import Shulcrum.Types

/-!
# Protocol versions and their negotiation

A client states the protocol version it speaks once, by `server.version`.  The
highest version on offer depends on the chain: a chain that has a header of
the second layout offers 1.8, every other chain 1.7.  Headers of such a chain
go to clients of version 1.8 and above only.

**Results.**
* `serverVersion_ok`: a client negotiates at most once.
-/

namespace Shulcrum
namespace Servers

open Fallible

/-- `Version`, compared lexicographically.  The version 0.0.0 is invalid. -/
structure Version where
  major : Nat := 0
  minor : Nat := 0
  revision : Nat := 0
  deriving DecidableEq, Repr

namespace Version

instance : LT Version where
  lt a b := a.major < b.major ∨ a.major = b.major ∧
    (a.minor < b.minor ∨ a.minor = b.minor ∧ a.revision < b.revision)

instance : LE Version where
  le a b := ¬ b < a

instance (a b : Version) : Decidable (a < b) :=
  inferInstanceAs (Decidable (a.major < b.major ∨ a.major = b.major ∧
    (a.minor < b.minor ∨ a.minor = b.minor ∧ a.revision < b.revision)))

instance (a b : Version) : Decidable (a ≤ b) := inferInstanceAs (Decidable (¬ b < a))

/-- `std::min`. -/
def min (a b : Version) : Version := if b < a then b else a

/-- `std::max`. -/
def max (a b : Version) : Version := if a < b then b else a

def isValid (v : Version) : Bool := v.major ≠ 0 ∨ v.minor ≠ 0 ∨ v.revision ≠ 0

end Version

/-- The error codes of `RPC::ErrorCodes` that the modelled calls use. -/
inductive ErrorCode where
  | invalidRequest
  | invalidParams
  | internalError
  | appBadRequest
  | appLimitExceeded
  deriving DecidableEq, Repr

/-- What a call throws: an `RPCError`, or another exception. -/
inductive RPCError where
  | rpc (message : String) (code : ErrorCode) (disconnect : Bool)
  | exception (e : Exception)
  deriving DecidableEq, Repr

namespace RPCError

/-- `RPCError` with its default code. -/
def bad (message : String) : RPCError := .rpc message .appBadRequest false

/-- `RPCErrorWithDisconnect`. -/
def withDisconnect (message : String) : RPCError := .rpc message .appBadRequest true

/-- The client is disconnected after the error. -/
def disconnects : RPCError → Bool
  | .rpc _ _ disconnect => disconnect
  | .exception _ => false

end RPCError

/-- Throw unless a condition holds. -/
def ensure (c : Prop) [Decidable c] (e : RPCError) : Except RPCError Unit :=
  if c then .ok () else .error e

@[simp] theorem ensure_bind_eq_ok {α : Type} {c : Prop} [Decidable c] {e : RPCError}
    {next : Unit → Except RPCError α} {r : α} :
    (ensure c e >>= next) = .ok r ↔ c ∧ next () = .ok r := by
  by_cases hc : c <;> simp [ensure, hc, bind, Except.bind]

namespace ServerMisc

def minProtocolVersion : Version := ⟨1, 4, 0⟩

def maxProtocolVersion : Version := ⟨1, 7, 0⟩

def maxProtocolVersionV2 : Version := ⟨1, 8, 0⟩

end ServerMisc

open ServerMisc

namespace ProtocolV2

def headerRefusal : String :=
  "This chain uses 164-byte block headers with a BLAKE2b block hash, which a client below " ++
  "protocol 1.8 cannot read. Reconnect and negotiate 1.8. Refusing rather than serving headers " ++
  "it would misinterpret."

/-- The highest version a client may negotiate on this chain. -/
def maxNegotiable (chainHasV2 : Bool) : Version :=
  if chainHasV2 then maxProtocolVersionV2 else maxProtocolVersion

/-- May a client that negotiated this version be served block headers? -/
def mayServeHeaders (chainHasV2 : Bool) (negotiated : Version) : Bool :=
  !chainHasV2 || maxProtocolVersionV2 ≤ negotiated

end ProtocolV2

/-- What the server keeps about a client here.  The version is the least one until the client
negotiates another. -/
structure Client where
  protocolVersion : Version := minProtocolVersion
  alreadySentVersion : Bool := false
  /-- `headerSubConnection` is set. -/
  headerSub : Bool := false
  connected : Bool := true
  deriving DecidableEq, Repr

/-- The second argument of `server.version`, with its strings parsed; `text` is the tuple given. -/
inductive VersionArg where
  | single (version : Version)
  | range (cMin cMax : Version) (text : String)
  deriving DecidableEq, Repr

/-- The version a client gets from its argument; it may be invalid. -/
def chooseVersion (maxNegotiable : Version) : VersionArg → Except RPCError Version
  | .single version => .ok version
  | .range cMin cMax text =>
      if !cMin.isValid ∨ !cMax.isValid ∨ cMax < cMin then
        .error (.withDisconnect ("Bad version tuple: " ++ text))
      else
        let pver := Version.min cMax maxNegotiable
        .ok (if pver < Version.max cMin minProtocolVersion then {} else pver)

/-- `Server::rpc_server_version`.  Without an argument the least version is taken. -/
def serverVersion (chainHasV2 : Bool) (c : Client) (arg : Option VersionArg) :
    Except RPCError Client := do
  ensure (c.alreadySentVersion = false) (.bad "server.version already sent")
  let maxNegotiable := ProtocolV2.maxNegotiable chainHasV2
  let pver ← chooseVersion maxNegotiable (arg.getD (.single minProtocolVersion))
  ensure (pver.isValid ∧ minProtocolVersion ≤ pver ∧ pver ≤ maxNegotiable)
    (.withDisconnect "Unsupported protocol version")
  .ok { c with protocolVersion := pver, alreadySentVersion := true }

/-- A version is negotiated once, and it is the only thing that changes. -/
theorem serverVersion_ok {chainHasV2 : Bool} {c c' : Client} {arg : Option VersionArg}
    (h : serverVersion chainHasV2 c arg = .ok c') :
    c.alreadySentVersion = false ∧ c'.alreadySentVersion = true ∧ c'.connected = c.connected := by
  rw [serverVersion, ensure_bind_eq_ok, bind_eq_ok] at h
  obtain ⟨hfirst, pver, -, h⟩ := h
  rw [ensure_bind_eq_ok] at h
  obtain ⟨-, h⟩ := h
  cases h
  exact ⟨hfirst, rfl, rfl⟩

end Servers
end Shulcrum
