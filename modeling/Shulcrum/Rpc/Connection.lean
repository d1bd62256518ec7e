import Mathlib.Logic.Function.Basic
import Mathlib.Logic.Function.Iterate
import Shulcrum.Types

/-!
# Client connections and their batches

A client sends messages, or lists of messages in one batch.  Each batch has a
processor that hands over one item at a time to the handlers of the server and
collects the responses.  A handler may ask bitcoind, and a client with too many
open requests is not read from until a timer has let its counter decay.

Everything runs in the event loop of one thread.  Calls that a handler posts run
later, in any order.  A processor that has finished is deleted by a later pass of
the event loop, and its timer is active until then.  What a handler does with a
request is part of the request here.
-/

namespace Shulcrum
namespace Rpc

/-! ## Messages -/

/-- `RPCMsgId`. -/
inductive MsgId where
  | null
  | int (n : Int)
  | str (s : String)
  deriving DecidableEq, Repr

/-- A message that is sent to the client: a response or an error. -/
inductive Message where
  | response (id : MsgId) (result : String)
  | error (id : MsgId) (code : Int) (message : String)
  deriving DecidableEq, Repr

namespace Message

def id : Message → MsgId
  | response id _ => id
  | error id _ _ => id

def isError : Message → Bool
  | response _ _ => false
  | error _ _ _ => true

end Message

def codeInvalidRequest : Int := -32600

def codeInternalError : Int := -32603

def codeLimitExceeded : Int := 4

/-- How a handler answers.  An error may ask to disconnect the client. -/
inductive Answer where
  | result (result : String)
  | error (disconnect : Bool) (code : Int) (message : String)
  deriving DecidableEq, Repr

/-- What a handler does when it is called: the requests it sends to bitcoind, and its
answer, unless that comes later. -/
structure Handling where
  bitcoindRequests : Nat := 0
  answer : Option Answer := none
  deriving DecidableEq, Repr

/-- What `processObject` makes of an item of a batch. -/
inductive Item where
  /-- The item is not an object. -/
  | notObject
  | error (code : Int) (message : String) (id : MsgId)
  | request (id : MsgId) (handling : Handling)
  /-- A notification that is handed over without a batch id and not answered. -/
  | notif (bitcoindRequests : Nat)
  /-- A response or an error, which a client has no reason to send. -/
  | other (id : MsgId)
  /-- Neither a message nor an error: a notification that no method allows. -/
  | nothing
  deriving DecidableEq, Repr

/-! ## Batches -/

/-- `RPC::Batch`. -/
structure Batch where
  items : List Item
  nextItem : Nat := 0
  skippedCt : Nat := 0
  errCt : Nat := 0
  unansweredRequests : Int := 0
  responses : List Message := []
  deriving DecidableEq, Repr

namespace Batch

def hasNext (b : Batch) : Bool := b.nextItem < b.items.length

def isComplete (b : Batch) : Bool :=
  ! b.hasNext && b.skippedCt + b.responses.length ≥ b.items.length

end Batch

/-- `RPC::BatchProcessor`, with the calls of `process` that are posted to it and its timer. -/
structure BatchProcessor where
  batch : Batch
  done : Bool := false
  isProcessingPaused : Bool := false
  killed : Bool := false
  calls : Nat := 0
  inactivityTimer : Bool := false
  deriving DecidableEq, Repr

namespace BatchProcessor

/-- `ProcessAgainMixin::AGAIN`. -/
def again (p : BatchProcessor) : BatchProcessor := { p with calls := p.calls + 1 }

/-- `BatchProcessor::pushResponse`. -/
def pushResponse (p : BatchProcessor) (m : Message) : BatchProcessor :=
  { p with batch := { p.batch with responses := p.batch.responses ++ [m] } }

/-- `BatchProcessor::gotResponse`. -/
def gotResponse (p : BatchProcessor) (m : Message) : BatchProcessor :=
  let p := { p with batch :=
    { p.batch with unansweredRequests := p.batch.unansweredRequests - 1 } }.pushResponse m
  if p.batch.isComplete then p.again else p

end BatchProcessor

/-! ## The connection -/

/-- `AbstractConnection::Status`. -/
inductive Status where
  | notConnected
  | connected
  | bad
  deriving DecidableEq, Repr

/-- `ConnectionBase::ErrorPolicy`. -/
structure ErrorPolicy where
  sendErrorMessage : Bool := true
  disconnect : Bool := false
  deriving DecidableEq, Repr

/-- `Options::BdReqThrottleParams` that are valid. -/
structure BdReqThrottleParams where
  hi : Nat := 50
  lo : Nat := 20
  decay : Nat := 5
  lo_le_hi : lo ≤ hi := by decide
  hi_inRange : 5 ≤ hi ∧ hi ≤ 10000 := by decide
  lo_inRange : 1 ≤ lo ∧ lo ≤ 9999 := by decide
  decay_inRange : 1 ≤ decay ∧ decay ≤ 9999 := by decide

/-- A complete message in the buffer of the socket. -/
inductive Line where
  /-- A message that is answered with an error. -/
  | failure (code : Int) (message : String) (id : MsgId)
  | request (id : MsgId) (handling : Handling)
  /-- An error message, which clients must not send. -/
  | errorMessage
  | nothing
  /-- A list of items; `accepted` is what `canAcceptBatch` says. -/
  | batch (items : List Item) (accepted : Bool)
  deriving DecidableEq, Repr

/-- What is written to the socket. -/
inductive Outgoing where
  | message (m : Message)
  /-- The responses of a batch. -/
  | reply (responses : List Message)
  deriving DecidableEq, Repr

/-- A request whose handler has not answered yet. -/
structure Pending where
  batchId : Option Nat
  id : MsgId
  deriving DecidableEq, Repr

/-- Why a batch processor has finished. -/
inductive Outcome where
  | ignored
  | killed
  | completed
  | timedOut
  deriving DecidableEq, Repr

/--
A connection of a client.  The last fields record what has happened: the batches
that were accepted, in the order of their ids, which of them were killed, why they
have finished, and what was written and for which batch.
-/
structure Connection where
  status : Status := .connected
  ignoreNewIncomingMessages : Bool := false
  errorPolicy : ErrorPolicy := {}
  lines : List Line := []
  /-- Calls of `on_readyRead` that are posted, or due because of new data. -/
  readEvents : Nat := 0
  readPaused : Bool := false
  skippedOnReadyRead : Bool := false
  params : BdReqThrottleParams := {}
  bdReqCtr : Nat := 0
  /-- The counter of the decay timer, while the timer is active. -/
  decayTimer : Option Nat := none
  /-- Requests that bitcoind has not replied to. -/
  inFlight : Nat := 0
  pending : List Pending := []
  extantBatchProcessors : Nat → Option BatchProcessor := fun _ => none
  /-- Processors that have finished and are not deleted yet. -/
  finishedProcessors : Nat → Option BatchProcessor := fun _ => none
  enqueued : List (List Item) := []
  killedBatches : Nat → Bool := fun _ => false
  outcomes : Nat → Option Outcome := fun _ => none
  sent : List (Option Nat × Outgoing) := []

namespace Connection

def isGood (c : Connection) : Bool := c.status = .connected

/-- Put a batch processor back into its place. -/
def setProcessor (c : Connection) (i : Nat) (p : BatchProcessor) : Connection :=
  { c with extantBatchProcessors := Function.update c.extantBatchProcessors i (some p) }

/-- `emit send`, on behalf of a batch or of none. -/
def write (c : Connection) (sender : Option Nat) (out : Outgoing) : Connection :=
  { c with sent := c.sent ++ [(sender, out)] }

/-- `Client::do_disconnect`. -/
def doDisconnect (c : Connection) : Connection :=
  { c with
    status := if c.status = .bad then .bad else .notConnected
    ignoreNewIncomingMessages := true }

/-- `ConnectionBase::batchResponseFilter`; the result says whether the message was taken. -/
def batchResponseFilter (c : Connection) (batchId : Option Nat) (m : Message) :
    Bool × Connection :=
  match batchId with
  | none => (false, c)
  | some i =>
      match c.extantBatchProcessors i with
      | some p => (true, c.setProcessor i (p.gotResponse m))
      | none => (true, c)

/-- `ConnectionBase::_sendResult`. -/
def sendResult (c : Connection) (batchId : Option Nat) (id : MsgId) (result : String) :
    Connection :=
  if ¬ c.isGood then c.doDisconnect
  else
    let (filtered, c) := c.batchResponseFilter batchId (.response id result)
    if filtered then c else c.write batchId (.message (.response id result))

/-- `ConnectionBase::_sendError`, on behalf of `sender`. -/
def sendError (c : Connection) (sender : Option Nat) (disc : Bool) (code : Int) (message : String)
    (batchId : Option Nat) (id : MsgId) : Connection :=
  if ¬ c.isGood then c.doDisconnect
  else if disc then
    -- an error that disconnects is not a response in the batch
    (c.write sender (.message (.error id code message))).doDisconnect
  else
    let (filtered, c) := c.batchResponseFilter batchId (.error id code message)
    if filtered then c else c.write sender (.message (.error id code message))

/-- `ConnectionBase::on_processJsonFailure`. -/
def onProcessJsonFailure (c : Connection) (sender : Option Nat) (code : Int) (message : String)
    (id : MsgId) : Connection :=
  if c.errorPolicy.sendErrorMessage then
    c.sendError sender c.errorPolicy.disconnect code (String.ofList (message.toList.take 120)) none
      id
  else if c.errorPolicy.disconnect then { c.doDisconnect with status := .bad }
  else c

/-! ## Throttling -/

/-- The signal `readPausedStateChanged`: a paused batch goes on when reads are resumed. -/
def readPausedStateChanged (c : Connection) (readPaused : Bool) : Connection :=
  { c with extantBatchProcessors := fun i => (c.extantBatchProcessors i).map fun p =>
      if ! readPaused && p.isProcessingPaused then p.again else p }

/-- `ElectrumConnection::setReadPaused`. -/
def setReadPaused (c : Connection) (b : Bool) : Connection :=
  if b = c.readPaused then c
  else
    readPausedStateChanged { c with
      skippedOnReadyRead := false
      readPaused := b
      readEvents := if ! b && c.skippedOnReadyRead then c.readEvents + 1 else c.readEvents } b

/-- Set or stop the decay timer. -/
def setDecayTimer (c : Connection) (timer : Option Nat) : Connection :=
  { c with decayTimer := timer }

/-- `callOnTimerSoon` for the decay timer: nothing changes if it is active. -/
def startDecayTimer (c : Connection) : Connection :=
  c.setDecayTimer (some (c.decayTimer.getD 0))

/-- A request is counted before it is submitted. -/
def countRequest (c : Connection) : Connection :=
  { c with bdReqCtr := c.bdReqCtr + 1, inFlight := c.inFlight + 1 }

/-- `ServerBase::generic_async_to_bitcoind`. -/
def submitRequest (c : Connection) : Connection :=
  if c.params.hi ≤ c.countRequest.bdReqCtr ∧ c.readPaused = false then
    (c.countRequest.setReadPaused true).startDecayTimer
  else c.countRequest

/-- How often the decay timer fires in a second. -/
def kPollFreqHz : Nat := 5

/-- The counter decays once a second. -/
def decay (c : Connection) (iCtr : Nat) : Connection :=
  if iCtr % kPollFreqHz = 0 then
    { c with bdReqCtr := c.bdReqCtr - min c.params.decay c.bdReqCtr }
  else c

/-- Reads are resumed when the counter is low. -/
def resume (c : Connection) : Connection :=
  if c.readPaused ∧ c.bdReqCtr ≤ c.params.lo then c.setReadPaused false else c

/-- The decay timer fires, which is stopped when the counter is 0. -/
def decayTick (c : Connection) : Connection :=
  match c.decayTimer with
  | none => c
  | some iCtr =>
      let iCtr := (iCtr + 1) % 2 ^ 32
      let c := (c.decay iCtr).resume
      c.setDecayTimer (if 0 < c.bdReqCtr then some iCtr else none)

/-- A reply, an error or a failure of a request to bitcoind arrives. -/
def bitcoindDone (c : Connection) : Connection :=
  { c with bdReqCtr := c.bdReqCtr - min c.bdReqCtr 1, inFlight := c.inFlight - 1 }

/-! ## Handlers -/

/-- A handler answers the request `id` of a batch, or of none. -/
def answer (c : Connection) (batchId : Option Nat) (id : MsgId) : Answer → Connection
  | .result result => c.sendResult batchId id result
  | .error disconnect code message => c.sendError batchId disconnect code message batchId id

/-- The signal `gotMessage` for a request, which calls its handler. -/
def gotMessage (c : Connection) (batchId : Option Nat) (id : MsgId) (handling : Handling) :
    Connection :=
  let c := submitRequest^[handling.bitcoindRequests] c
  match handling.answer with
  | none => { c with pending := c.pending ++ [⟨batchId, id⟩] }
  | some answer => c.answer batchId id answer

/--
A handler answers the request at position `k` of the open ones.  It does not
disconnect the client then: handlers that may do so decide it when they are called.
-/
def respond (c : Connection) (k : Nat) (p : Pending) (answer : String ⊕ Int × String) :
    Connection :=
  let c := { c with pending := c.pending.eraseIdx k }
  match answer with
  | .inl result => c.answer p.batchId p.id (.result result)
  | .inr (code, message) => c.answer p.batchId p.id (.error false code message)

/-! ## Processing a batch -/

/-- The signal `finished`, after `done` was set: the processor is taken out of the table, and
`deleteLater` is called. -/
def finish (c : Connection) (i : Nat) (p : BatchProcessor) (outcome : Outcome) : Connection :=
  { c with
    extantBatchProcessors := Function.update c.extantBatchProcessors i none
    finishedProcessors := Function.update c.finishedProcessors i (some { p with done := true })
    outcomes := Function.update c.outcomes i (some outcome) }

/-- An item that is answered with an error. -/
def pushError (c : Connection) (i : Nat) (p : BatchProcessor) (m : Message) : Connection :=
  let p := p.pushResponse m
  c.setProcessor i { p with batch := { p.batch with errCt := p.batch.errCt + 1 } }

/-- An item that is not answered. -/
def skipItem (c : Connection) (i : Nat) (p : BatchProcessor) : Connection :=
  c.setProcessor i { p with batch := { p.batch with skippedCt := p.batch.skippedCt + 1 } }

/-- The part of `BatchProcessor::process` for one item, which was counted already. -/
def processItem (c : Connection) (i : Nat) (p : BatchProcessor) : Item → Connection
  | .notObject => c.pushError i p (.error .null codeInvalidRequest "Invalid request")
  | .error code message id =>
      c.pushError i p (.error id code (String.ofList (message.toList.take 120)))
  | .request id handling =>
      let p := { p with batch :=
        { p.batch with unansweredRequests := p.batch.unansweredRequests + 1 } }
      (c.setProcessor i p).gotMessage (some i) id handling
  | .notif bitcoindRequests => submitRequest^[bitcoindRequests] (c.skipItem i p)
  | .other id => c.pushError i p (.error id codeInvalidRequest "Invalid request")
  | .nothing => c.skipItem i p

/-- `AGAIN` of a batch processor. -/
def callAgain (c : Connection) (i : Nat) : Connection :=
  { c with extantBatchProcessors :=
      Function.update c.extantBatchProcessors i ((c.extantBatchProcessors i).map .again) }

/-- The part of `BatchProcessor::process` for a batch with all its responses. -/
def complete (c : Connection) (i : Nat) (p : BatchProcessor) : Connection :=
  let l := p.batch.responses
  let c := if l ≠ [] ∧ c.isGood then c.write (some i) (.reply l) else c
  let c := if p.batch.errCt ≠ 0 ∧ c.errorPolicy.disconnect then
      { c.doDisconnect with status := .bad }
    else c
  c.finish i { p with batch := { p.batch with responses := [] } } .completed

/-- `BatchProcessor::process`. -/
def process (c : Connection) (i : Nat) (p : BatchProcessor) : Connection :=
  if p.done then c
  else if c.ignoreNewIncomingMessages then c.finish i p .ignored
  else if p.killed then
    -- `done` is set first, so that the error is not taken for a response of the batch
    ((c.setProcessor i { p with done := true }).onProcessJsonFailure (some i) codeLimitExceeded
      "Batch limit exceeded" .null).finish i p .killed
  else
    match p.batch.items[p.batch.nextItem]? with
    | some item =>
        if c.readPaused then c.setProcessor i { p with isProcessingPaused := true }
        else
          let p := { p with
            isProcessingPaused := false
            batch := { p.batch with nextItem := p.batch.nextItem + 1 } }
          let c := c.processItem i p item
          if c.isGood then c.callAgain i else c
    | none =>
        if p.batch.isComplete then c.complete i p
        else c.setProcessor i { p with inactivityTimer := true }

/-- What the inactivity timer of a batch sends. -/
def sendTimedOut (c : Connection) (i : Nat) : Connection :=
  { c.sendError (some i) true codeInternalError "Batch request timed out" none .null with
    status := .bad }

/-- The inactivity timer of a batch fires, which is not repeated. -/
def inactivityTimeout (c : Connection) (i : Nat) (p : BatchProcessor) : Connection :=
  ((c.setProcessor i { p with done := true }).sendTimedOut i).finish i
    { p with inactivityTimer := false } .timedOut

/--
The inactivity timer of a batch that has finished fires.  The function does not look
at `done`, and the table has no processor any more that `finished` could take out.
-/
def lateTimeout (c : Connection) (i : Nat) (p : BatchProcessor) : Connection :=
  { c with
    finishedProcessors := Function.update c.finishedProcessors i
      (some { p with inactivityTimer := false }) }.sendTimedOut i

/-- The posted deletion of a processor. -/
def deferredDelete (c : Connection) (i : Nat) : Connection :=
  { c with finishedProcessors := Function.update c.finishedProcessors i none }

/-- `BatchProcessor::killForExceedngLimit`, which the listener of `costDelta` calls at the end of
`pushResponse`. -/
def killForExceedngLimit (c : Connection) (i : Nat) (p : BatchProcessor) : Connection :=
  if p.killed || p.done || c.ignoreNewIncomingMessages then c
  else
    { c.setProcessor i { p with killed := true }.again with
      killedBatches := Function.update c.killedBatches i true }

/-! ## Reading -/

/-- `ConnectionBase::enqueueNewBatch`. -/
def enqueueNewBatch (c : Connection) (items : List Item) (accepted : Bool) : Connection :=
  if items = [] then c.onProcessJsonFailure none codeInvalidRequest "Invalid request" .null
  else if ! accepted then
    c.onProcessJsonFailure none codeLimitExceeded "Batch limit exceeded" .null
  else
    { c.setProcessor c.enqueued.length { batch := { items := items }, calls := 1 } with
      enqueued := c.enqueued ++ [items] }

/-- `ConnectionBase::processJson`. -/
def processJson (c : Connection) (line : Line) : Connection :=
  if c.ignoreNewIncomingMessages then c
  else
    match line with
    | .failure code message id => c.onProcessJsonFailure none code message id
    | .request id handling => c.gotMessage none id handling
    | .errorMessage =>
        c.sendError none true codeInvalidRequest "Not a valid request object" none .null
    | .nothing => c
    | .batch items accepted => c.enqueueNewBatch items accepted

/-- The loop of `on_readyRead` over the complete lines. -/
def readLines : List Line → Connection → Connection
  | [], c => { c with lines := [] }
  | line :: lines, c =>
      if c.status = .bad then { c with lines := line :: lines }
      else if c.readPaused then { c with lines := line :: lines, skippedOnReadyRead := true }
      else readLines lines (c.processJson line)

/-- `ElectrumConnection::on_readyRead`. -/
def onReadyRead (c : Connection) : Connection := readLines c.lines c

end Connection

/-- The start of a connection, with any policy and parameters. -/
def Connection.Start (c : Connection) : Prop :=
  ∃ errorPolicy params, c = { errorPolicy := errorPolicy, params := params }

/--
One event in the event loop of a connection, but not the timer of a batch that has
finished.  A call of `process` that is posted to such a batch returns at once.
-/
inductive PromptStep : Connection → Connection → Prop
  | data {c : Connection} (lines : List Line) :
      PromptStep c { c with lines := c.lines ++ lines, readEvents := c.readEvents + 1 }
  | readyRead {c : Connection} :
      0 < c.readEvents → PromptStep c { c with readEvents := c.readEvents - 1 }.onReadyRead
  | process {c : Connection} {i : Nat} {p : BatchProcessor} :
      c.extantBatchProcessors i = some p → 0 < p.calls →
      PromptStep c (c.process i { p with calls := p.calls - 1 })
  | inactivityTimeout {c : Connection} {i : Nat} {p : BatchProcessor} :
      c.extantBatchProcessors i = some p → p.inactivityTimer = true →
      PromptStep c (c.inactivityTimeout i p)
  | kill {c : Connection} {i : Nat} {p : BatchProcessor} :
      c.extantBatchProcessors i = some p → PromptStep c (c.killForExceedngLimit i p)
  | deferredDelete {c : Connection} (i : Nat) : PromptStep c (c.deferredDelete i)
  | respond {c : Connection} {k : Nat} {p : Pending} (answer : String ⊕ Int × String) :
      c.pending[k]? = some p → PromptStep c (c.respond k p answer)
  | submit {c : Connection} : PromptStep c c.submitRequest
  | bitcoindDone {c : Connection} : 0 < c.inFlight → PromptStep c c.bitcoindDone
  | decayTick {c : Connection} : PromptStep c c.decayTick
  | setParams {c : Connection} (params : BdReqThrottleParams) :
      PromptStep c { c with params := params }
  | disconnect {c : Connection} : PromptStep c c.doDisconnect
  /-- The socket is closed, or the connection is found to be bad. -/
  | lost {c : Connection} {status : Status} :
      status ≠ .connected → PromptStep c { c with status := status }

/-- One event in the event loop of a connection. -/
inductive ConnectionStep : Connection → Connection → Prop
  | prompt {c c' : Connection} : PromptStep c c' → ConnectionStep c c'
  | lateTimeout {c : Connection} {i : Nat} {p : BatchProcessor} :
      c.finishedProcessors i = some p → p.inactivityTimer = true →
      ConnectionStep c (c.lateTimeout i p)

end Rpc
end Shulcrum
