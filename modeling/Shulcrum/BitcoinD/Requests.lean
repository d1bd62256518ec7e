import Mathlib.Data.List.AList
import Mathlib.Tactic
import Shulcrum.Lib.Invariant

/-!
# Requests to bitcoind

`BitcoinDMgr` passes requests of objects in any thread on to one of several
clients of bitcoind, and the answers back.  Each request has a context object.
The manager finds the contexts in a table of weak references.  A context lives
as long as the call that dispatches its request is queued, its signals are
connected to the sender, or one of its signals is queued there.

A step is the call of one slot or of one queued functor.  The queues of the
manager and of the senders are explicit, and so is what the other threads
decide: which clients are good, and what time it is.

**Results.**
* `ctx?_update`: the contexts after one of them was changed.
-/

namespace Shulcrum
namespace BitcoinDMgr

/-- `RPC::Message::Id`, from `newId`. -/
abbrev Id := Nat

/-- The place of a context in the order of creation. -/
abbrev CtxRef := Nat

/-- `RPC::Message`, with what the manager reads of it. -/
structure Message (V : Type) where
  id : Id
  method : String
  result : V

/-- The signals of `ReqCtxObj`, which are the calls of the sender's three functions. -/
inductive Signal (V : Type)
  | results (response : Message V)
  | error (response : Message V)
  | fail (origId : Id) (failureReason : String)

/-- The id an answer is for. -/
def Signal.id {V : Type} : Signal V → Id
  | results response => response.id
  | error response => response.id
  | fail origId _ => origId

/-- `ReqCtxObj`, with what `submitRequest` captures for it. -/
structure ReqCtxObj (V : Type) where
  rid : Id
  sender : Nat
  method : String
  timeout : Int
  /-- `cachedResultOkIfNotOlderThan`, if results are to be cached. -/
  maxAge : Option Int
  replied : Bool := false
  timedOut : Bool := false
  ts : Int := 0
  bd : Option Nat := none
  /-- The signals are connected to the sender. -/
  connected : Bool := true
  /-- The signals that are queued in the thread of the sender. -/
  pending : List (Signal V) := []
  /-- The cleanup handler is installed. -/
  hooked : Bool := false
  /-- The object was deleted, and its `destroyed` signal handled. -/
  destroyed : Bool := false

/-- `CachedResult`. -/
structure CachedResult (V : Type) where
  timeStamp : Int
  maxAge : Int
  result : V

/-- One of the sender's functions was called. -/
structure Answer (V : Type) where
  ctx : CtxRef
  signal : Signal V
  time : Int

/-- A cached result on its way to a sender. -/
structure CachedReply (V : Type) where
  sender : Nat
  rid : Id
  method : String
  result : V
  /-- When it was found, and how old it might be. -/
  time : Int
  notOlderThan : Int

structure Mgr (V : Type) where
  nClients : Nat
  goodSet : Finset Nat := ∅
  roundRobinCursor : Nat := 0
  ctxs : List (ReqCtxObj V) := []
  /-- The dispatching calls that are queued in the thread of the manager. -/
  queue : List CtxRef := []
  reqContextTable : AList (fun _ : Id => CtxRef) := ∅
  requestZombieCtr : Nat := 0
  requestTimeoutCtr : Nat := 0
  cachedResultsTable : AList (fun _ : String => CachedResult V) := ∅
  cachedReplies : List (CachedReply V) := []
  /-- The senders that were deleted. -/
  gone : Finset Nat := ∅
  /-- The calls of the senders' functions, the newest first. -/
  log : List (Answer V) := []
  /-- The requests that were given to a client. -/
  sent : List CtxRef := []

/-! ## Finding a client -/

/-- The loop of `getBitcoinD`; the cursor is an unsigned integer of 32 bits. -/
def scanClients (nClients : Nat) (good : Nat → Bool) : Nat → Nat → Option Nat × Nat
  | 0, cursor => (none, cursor)
  | k + 1, cursor =>
      if good (cursor % nClients) then (some (cursor % nClients), (cursor + 1) % 2 ^ 32)
      else scanClients nClients good k ((cursor + 1) % 2 ^ 32)

namespace Mgr

variable {V : Type}

/-- `getBitcoinD`; the first argument says which clients are good right now. -/
def getBitcoinD (isGood : Nat → Bool) (m : Mgr V) : Option Nat × Nat :=
  if m.goodSet = ∅ then (none, m.roundRobinCursor)
  else scanClients m.nClients (fun k => decide (k ∈ m.goodSet) && isGood k) m.nClients
    m.roundRobinCursor

/-! ## Contexts -/

def ctx? (m : Mgr V) (i : CtxRef) : Option (ReqCtxObj V) := m.ctxs[i]?

/-- Change one context. -/
def update (m : Mgr V) (i : CtxRef) (f : ReqCtxObj V → ReqCtxObj V) : Mgr V :=
  { m with ctxs := m.ctxs.modify i f }

/-- Something holds a reference to the context. -/
def alive (m : Mgr V) (i : CtxRef) : Bool :=
  decide (i ∈ m.queue) || (m.ctx? i).any fun c => c.connected || ! c.pending.isEmpty

/-- Send a signal. -/
def emit (m : Mgr V) (i : CtxRef) (signal : Signal V) : Mgr V :=
  m.update i fun c => if c.connected then { c with pending := c.pending ++ [signal] } else c

/-! ## The slots of the manager -/

/-- `submitRequest`, up to the scheduling of its last part.  A result from the cache is given to
the sender in its own event loop. -/
def submitRequest (m : Mgr V) (sender : Nat) (rid : Id) (method : String) (noParams : Bool)
    (timeout : Int) (cachedResultOkIfNotOlderThan : Option Int) (now : Int) : Mgr V :=
  let maxAge := if noParams then cachedResultOkIfNotOlderThan else none
  let cached := maxAge.bind fun limit =>
    (m.cachedResultsTable.lookup method).filter fun r =>
      decide (0 ≤ now - r.timeStamp ∧ now - r.timeStamp ≤ limit)
  match cached with
  | some r => { m with cachedReplies := m.cachedReplies ++ [{
      sender := sender, rid := rid, method := method, result := r.result, time := now
      notOlderThan := maxAge.getD 0 }] }
  | none => { m with
      ctxs := m.ctxs ++ [{
        rid := rid, sender := sender, method := method, timeout := max timeout 0
        maxAge := maxAge }]
      queue := m.queue ++ [m.ctxs.length] }

/-- A request is given to a client, unless its id is in use. -/
def assign (m : Mgr V) (i : CtxRef) (rid : Id) (bd : Nat) (now : Int) : Mgr V :=
  let m := m.update i fun c => { c with bd := some bd }
  if (m.reqContextTable.lookup rid).all fun j => ! m.alive j then
    let m := m.update i fun c => { c with ts := now, hooked := true }
    { m with reqContextTable := m.reqContextTable.insert rid i, sent := i :: m.sent }
  else
    m.emit i (.fail rid s!"Request id {rid} already exists in table! FIXME!")

/-- The last part of `submitRequest`, for the first queued request. -/
def dispatch (m : Mgr V) (isGood : Nat → Bool) (now : Int) : Option (Mgr V) :=
  match m.queue with
  | [] => none
  | i :: queue => do
      let c ← m.ctx? i
      let (bd, cursor) := m.getBitcoinD isGood
      let m := { m with queue := queue, roundRobinCursor := cursor }
      match bd with
      | none => return m.emit i (.fail c.rid "Unable to find a good BitcoinD connection")
      | some bd => return m.assign i c.rid bd now

/-- A context is flagged as handled, and counted. -/
def setTimedOut (m : Mgr V) (i : CtxRef) : Mgr V :=
  { m.update i fun c => { c with timedOut := true } with
    requestTimeoutCtr := m.requestTimeoutCtr + 1 }

/-- `requestTimeoutChecker`, for one entry of the table. -/
def checkTimeout (now : Int) (m : Mgr V) (entry : Id × CtxRef) : Mgr V :=
  if m.alive entry.2 &&
      (m.ctx? entry.2).any (fun c => ! c.timedOut && decide (c.timeout < now - c.ts)) then
    (m.setTimedOut entry.2).emit entry.2 (.fail entry.1 "bitcoind request timed out")
  else m

/-- `notifyFailForRequestsMatchingBitcoinD`, for one entry of the table. -/
def failIfMatching (bd : Nat) (errorMessage : String) (m : Mgr V) (entry : Id × CtxRef) :
    Mgr V :=
  if m.alive entry.2 && (m.ctx? entry.2).any (fun c => c.bd == some bd) then
    m.emit entry.2 (.fail entry.1 errorMessage)
  else m

/-- The entries of the table, in the order of its iteration. -/
def entries (m : Mgr V) : List (Id × CtxRef) :=
  m.reqContextTable.entries.map fun entry => (entry.1, entry.2)

/-- `requestTimeoutChecker`. -/
def requestTimeoutChecker (m : Mgr V) (now : Int) : Mgr V :=
  m.entries.foldl (checkTimeout now) m

/-- `notifyFailForRequestsMatchingBitcoinD`. -/
def notifyFail (m : Mgr V) (bd : Nat) (errorMessage : String) : Mgr V :=
  m.entries.foldl (failIfMatching bd errorMessage) m

/-- `handleMessageCommon`. -/
def handleMessageCommon (m : Mgr V) (msg : Message V) (signal : Signal V) : Mgr V :=
  let ref := m.reqContextTable.lookup msg.id
  let m := { m with reqContextTable := m.reqContextTable.erase msg.id }
  match ref.filter m.alive with
  | some i => m.emit i signal
  | none =>
      if msg.method = "uptime" ∨ msg.method = "help" then m
      else { m with requestZombieCtr := m.requestZombieCtr + 1 }

/-- `on_Message`. -/
def onMessage (m : Mgr V) (msg : Message V) : Mgr V := m.handleMessageCommon msg (.results msg)

/-- `on_ErrorMessage`. -/
def onErrorMessage (m : Mgr V) (msg : Message V) : Mgr V := m.handleMessageCommon msg (.error msg)

/-- The slot for `authenticated`; the first good client clears the cache. -/
def authenticated (m : Mgr V) (k : Nat) (isGood : Bool) : Mgr V :=
  if ! isGood then m
  else
    let m' := { m with goodSet := insert k m.goodSet }
    if m.goodSet = ∅ then { m' with cachedResultsTable := ∅ } else m'

/-- The second slot for `lostConnection`. -/
def lostConnection (m : Mgr V) (k : Nat) (isGood : Bool) : Mgr V :=
  if isGood then m else { m with goodSet := m.goodSet.erase k }

/-- `expireOldCachedResults`, for one entry of the cache. -/
def eraseIfOld (now : Int) (t : AList (fun _ : String => CachedResult V)) (method : String) :
    AList (fun _ : String => CachedResult V) :=
  if (t.lookup method).any fun r => decide (r.maxAge < now - r.timeStamp) then t.erase method
  else t

/-- `expireOldCachedResults`. -/
def expireOldCachedResults (m : Mgr V) (now : Int) : Mgr V :=
  { m with
    cachedResultsTable := m.cachedResultsTable.keys.foldl (eraseIfOld now) m.cachedResultsTable }

/-! ## What happens in the other threads -/

/-- A queued signal is handled in the thread of the sender. -/
def deliver (m : Mgr V) (i : CtxRef) (now : Int) : Option (Mgr V) := do
  let c ← m.ctx? i
  match c.pending with
  | [] => none
  | signal :: pending =>
      let m' := m.update i fun c =>
        { c with pending := pending, replied := true, connected := false }
      if c.replied then return m'
      else
        let m' := { m' with log := { ctx := i, signal := signal, time := now } :: m'.log }
        match signal, c.maxAge with
        | .results response, some maxAge =>
            let r : CachedResult V :=
              { timeStamp := now, maxAge := maxAge, result := response.result }
            return { m' with cachedResultsTable := m'.cachedResultsTable.insert c.method r }
        | _, _ => return m'

/-- A sender is deleted, with its connections and what is queued for it. -/
def senderDestroyed (m : Mgr V) (sender : Nat) : Mgr V :=
  { m with
    gone := insert sender m.gone
    cachedReplies := m.cachedReplies.filter fun r => r.sender ≠ sender
    ctxs := m.ctxs.map fun c =>
      if c.sender = sender then { c with connected := false, pending := [] } else c }

/-- A context that nothing refers to is deleted; its cleanup handler runs. -/
def ctxDestroyed (m : Mgr V) (i : CtxRef) : Option (Mgr V) := do
  let c ← m.ctx? i
  if m.alive i ∨ c.destroyed then none
  else
    let m' := m.update i fun c => { c with destroyed := true }
    return if c.hooked then { m' with reqContextTable := m'.reqContextTable.erase c.rid } else m'

/-- One step of one of the threads. -/
inductive Step : Mgr V → Mgr V → Prop
  | submit (m : Mgr V) {sender : Nat} (rid : Id) (method : String) (noParams : Bool)
      (timeout : Int) (ok : Option Int) (now : Int) (hsender : sender ∉ m.gone) :
      Step m (m.submitRequest sender rid method noParams timeout ok now)
  | dispatch {m m' : Mgr V} {isGood : Nat → Bool} {now : Int} :
      m.dispatch isGood now = some m' → Step m m'
  | message (m : Mgr V) (msg : Message V) : Step m (m.onMessage msg)
  | errorMessage (m : Mgr V) (msg : Message V) : Step m (m.onErrorMessage msg)
  | timeouts (m : Mgr V) (now : Int) : Step m (m.requestTimeoutChecker now)
  | connectionLost (m : Mgr V) (k : Nat) : Step m (m.notifyFail k "bitcoind connection lost")
  | clientDeleted (m : Mgr V) (k : Nat) : Step m (m.notifyFail k "bitcoind client deleted")
  | authenticated (m : Mgr V) (k : Nat) (isGood : Bool) : Step m (m.authenticated k isGood)
  | lost (m : Mgr V) (k : Nat) (isGood : Bool) : Step m (m.lostConnection k isGood)
  | expire (m : Mgr V) (now : Int) : Step m (m.expireOldCachedResults now)
  | deliver {m m' : Mgr V} {i : CtxRef} {now : Int} : m.deliver i now = some m' → Step m m'
  | deliverCached (m : Mgr V) (k : Nat) :
      Step m { m with cachedReplies := m.cachedReplies.eraseIdx k }
  | senderDestroyed (m : Mgr V) (sender : Nat) : Step m (m.senderDestroyed sender)
  | ctxDestroyed {m m' : Mgr V} {i : CtxRef} : m.ctxDestroyed i = some m' → Step m m'

/-- A manager as it is constructed. -/
def Start (m : Mgr V) : Prop := ∃ n, 0 < n ∧ m = { nClients := n }

/-! ## Contexts after an update -/

section Contexts

variable (m : Mgr V) (i j : CtxRef) (f : ReqCtxObj V → ReqCtxObj V) (signal : Signal V)

theorem ctx?_update :
    (m.update i f).ctx? j = if i = j then (m.ctx? j).map f else m.ctx? j := by
  simp only [ctx?, update, List.getElem?_modify]
  split_ifs
  · rfl
  · cases m.ctxs[j]? <;> rfl

@[simp] theorem ctx?_update_self : (m.update i f).ctx? i = (m.ctx? i).map f := by
  rw [ctx?_update, if_pos rfl]

@[simp] theorem queue_update : (m.update i f).queue = m.queue := rfl

@[simp] theorem table_update : (m.update i f).reqContextTable = m.reqContextTable := rfl

@[simp] theorem log_update : (m.update i f).log = m.log := rfl

@[simp] theorem gone_update : (m.update i f).gone = m.gone := rfl

@[simp] theorem sent_update : (m.update i f).sent = m.sent := rfl

@[simp] theorem queue_emit : (m.emit i signal).queue = m.queue := rfl

@[simp] theorem table_emit : (m.emit i signal).reqContextTable = m.reqContextTable := rfl

@[simp] theorem log_emit : (m.emit i signal).log = m.log := rfl

@[simp] theorem gone_emit : (m.emit i signal).gone = m.gone := rfl

@[simp] theorem sent_emit : (m.emit i signal).sent = m.sent := rfl

end Contexts

end Mgr

end BitcoinDMgr
end Shulcrum
