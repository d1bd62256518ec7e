import Shulcrum.Storage.Model

/-!
# The state machine of the controller

The part of the controller that brings the storage up to the chain of the node:
the states of a synch, the results of the download tasks that wait for their
turn, and the handlers that give them to the storage in the order of their
heights.

The server is not being stopped, so `stopFlag` is not set.
-/

namespace Shulcrum
namespace Controller

open Storage

/-- `Controller::StateMachine::State`. -/
inductive SmState where
  | begin
  | waitingForChainInfo
  | getBlocks
  | downloadingBlocks
  | finishedDL
  | downloadingBlocksRPA
  | finishedDLRPA
  | ended
  | failure
  | bitcoinDIsInHeaderDL
  | retry
  | retryInIBD
  | synchMempool
  | synchingMempool
  | synchMempoolFinished
  | synchDSPs
  | synchingDSPs
  | synchDSPsFinished
  deriving DecidableEq, Repr

/-- `Controller::RpaOnlyModeData`, without its statistics. -/
structure RpaOnlyModeData where
  height : Nat
  hash : Hash
  serializedPrefixTable : List UInt8

/-- `VarDLTaskResult`: what a download task sends. -/
inductive VarDLTaskResult where
  | ppb (b : PreProcessedBlock)
  | rpa (romd : RpaOnlyModeData)

def VarDLTaskResult.height : VarDLTaskResult → Nat
  | .ppb b => b.height
  | .rpa romd => romd.height

/-- `Controller::StateMachine`. -/
structure StateMachine where
  state : SmState := .begin
  suppressSaveUndo : Bool := false
  ht : Int := -1
  nHeaders : Int := -1
  dlResults : Std.ExtTreeMap Nat VarDLTaskResult compare := ∅
  startheight : Nat := 0
  endHeight : Nat := 0
  dlResultsHtNext : Nat := 0

/-- What the handlers of the controller depend on besides the storage. -/
structure Config where
  H : Hashers
  opts : Options
  masterNotifySubsFlag : Bool
  zmqAllowHashTx : Bool

/-- What the handlers do, in the order in which they do it. -/
inductive Action where
  | addBlock (height : Nat)
  | addRpaData (height : Nat)
  | finishedDL
  | finishedDLRPA
  deriving DecidableEq, Repr

/-- The storage and the state machine of the running synch. -/
structure Sync where
  storage : State
  sm : StateMachine

section Handlers

variable (cfg : Config)

/-- `Controller::process_DoUndoAndRetry`. -/
def processDoUndoAndRetry (c : Sync) : Sync :=
  match undoLatestBlock cfg.H c.storage cfg.masterNotifySubsFlag with
  | .ok u => { storage := u.state, sm := { c.sm with state := .retry } }
  | .error _ => { c with sm := { c.sm with state := .failure } }

/-- `saveUndoInfo` of `Controller::process_VerifyAndAddBlock`. -/
def saveUndoFor (sm : StateMachine) (height : Nat) : Bool :=
  !sm.suppressSaveUndo && decide ((height : Int) > sm.ht - cfg.opts.maxReorg)

/-- `Controller::process_VerifyAndAddBlock`. -/
def processVerifyAndAddBlock (c : Sync) (b : PreProcessedBlock) : Bool × Sync :=
  match addBlock cfg.H cfg.opts c.storage b (saveUndoFor cfg c.sm b.height)
      cfg.masterNotifySubsFlag cfg.zmqAllowHashTx with
  | .ok s _ => (true, { c with storage := s })
  | .headerVerificationFailure _ s => (false, processDoUndoAndRetry cfg { c with storage := s })
  | .threw _ => (false, { c with sm := { c.sm with state := .failure } })

/-- `Storage::addRpaDataForHeight`. -/
def addRpaData (s : State) (romd : RpaOnlyModeData) : State :=
  { s with rpa := s.rpa.addRpaDataForHeight romd.height romd.hash romd.serializedPrefixTable }

/-- The visitor of a result: whether the loop goes on, and what was done. -/
def handleResult (c : Sync) : VarDLTaskResult → Bool × Sync
  | .ppb b => processVerifyAndAddBlock cfg c b
  | .rpa romd => (true, { c with storage := addRpaData c.storage romd })

/-- The action that stands for giving a result to the storage. -/
def VarDLTaskResult.action : VarDLTaskResult → Action
  | .ppb b => .addBlock b.height
  | .rpa romd => .addRpaData romd.height

def VarDLTaskResult.isRpa : VarDLTaskResult → Bool
  | .ppb _ => false
  | .rpa _ => true

/-- The loop of `Controller::process_DownloadingBlocks`.  It takes one result out of the map each
time, so that their number bounds it. -/
def downloadingLoop : Nat → Bool → Sync → Sync × List Action
  | 0, _, c => (c, [])
  | fuel + 1, isRpa, c =>
      match c.sm.dlResults[c.sm.dlResultsHtNext]? with
      | none => (c, [])
      | some r =>
          let sm :=
            { c.sm with
              dlResultsHtNext := c.sm.dlResultsHtNext + 1
              dlResults := c.sm.dlResults.erase c.sm.dlResultsHtNext }
          let isRpa := isRpa || r.isRpa
          match handleResult cfg { c with sm := sm } r with
          | (false, c) => (c, [r.action])
          | (true, c) =>
              if c.sm.dlResultsHtNext > c.sm.endHeight then
                ({ c with sm := { c.sm with
                    state := if isRpa then .finishedDLRPA else .finishedDL } },
                  [r.action, if isRpa then .finishedDLRPA else .finishedDL])
              else
                let (c, actions) := downloadingLoop fuel isRpa c
                (c, r.action :: actions)

/-- `Controller::process_DownloadingBlocks`. -/
def processDownloadingBlocks (c : Sync) : Sync × List Action :=
  downloadingLoop cfg c.sm.dlResults.size false c

/-- `Controller::on_putCommon` once there is a state machine. -/
def onPutCommon (c : Sync) (taskDeleted : Bool) (r : VarDLTaskResult) (expectedState : SmState) :
    Sync × List Action :=
  if taskDeleted ∨ c.sm.state = .failure then (c, [])
  else if c.sm.state ≠ expectedState then (c, [])
  else
    processDownloadingBlocks cfg
      { c with sm := { c.sm with dlResults := c.sm.dlResults.insert r.height r } }

/-- `Controller::on_putBlock`. -/
def onPutBlock (c : Sync) (taskDeleted : Bool) (b : PreProcessedBlock) : Sync × List Action :=
  onPutCommon cfg c taskDeleted (.ppb b) .downloadingBlocks

/-- `Controller::on_putRpaIndex`. -/
def onPutRpaIndex (c : Sync) (taskDeleted : Bool) (romd : RpaOnlyModeData) :
    Sync × List Action :=
  onPutCommon cfg c taskDeleted (.rpa romd) .downloadingBlocksRPA

/-- `Controller::genericTaskErrored`. -/
def genericTaskErrored (c : Sync) : Sync := { c with sm := { c.sm with state := .failure } }

end Handlers

/-! ## What one pass of the loop keeps -/

section Handled

variable {cfg : Config} {c c' : Sync}

/-- Giving a result to the storage changes nothing of the state machine, except that a failure
sets its state. -/
theorem handleResult_sm {r : VarDLTaskResult} {ok : Bool}
    (h : handleResult cfg c r = (ok, c')) :
    c'.sm = c.sm ∧ ok = true ∨
      ok = false ∧ ∃ st, (st = .retry ∨ st = .failure) ∧ c'.sm = { c.sm with state := st } := by
  cases r with
  | rpa romd =>
      cases h
      exact .inl ⟨rfl, rfl⟩
  | ppb b =>
      rw [handleResult, processVerifyAndAddBlock] at h
      split at h
      · cases h
        exact .inl ⟨rfl, rfl⟩
      · rw [processDoUndoAndRetry] at h
        split at h
        · cases h
          exact .inr ⟨rfl, _, .inl rfl, rfl⟩
        · cases h
          exact .inr ⟨rfl, _, .inr rfl, rfl⟩
      · cases h
        exact .inr ⟨rfl, _, .inr rfl, rfl⟩

end Handled

end Controller
end Shulcrum
