import Shulcrum.Lib.Invariant
import Shulcrum.Rpc.Connection

/-!
# Throttled clients are served again

A client whose reads are paused has a decay timer that will resume them, a complete
line that is not read because of a pause leaves a mark that makes the resumption read
it, and a batch that is paused is woken up.

The invariant is about connections that are good.  It has two parameters for states
within an event: the batch whose posted call is being run, and whether the buffer is
being read.

**Results.**
* `served_of_reachable`: the invariant of all runs.
* `never_stranded`: a good connection has something pending that serves it.
-/

namespace Shulcrum
namespace Rpc

open Invariant

/-- What makes a batch go on, given whether reads are paused. -/
def BatchProcessor.Awake (paused : Bool) (p : BatchProcessor) : Prop :=
  p.done = false → p.batch.hasNext = true →
    0 < p.calls ∨ p.isProcessingPaused = true ∧ paused = true

/-- The paused and the waiting parts of a connection will go on. -/
structure Waiting (busy : Option Nat) (reading : Bool) (c : Connection) : Prop where
  timer : c.readPaused = true → c.decayTimer.isSome
  buffered : reading = false → c.lines ≠ [] →
    0 < c.readEvents ∨ c.readPaused = true ∧ c.skippedOnReadyRead = true
  batches : ∀ i p, some i ≠ busy → c.extantBatchProcessors i = some p → p.Awake c.readPaused

def Served (busy : Option Nat) (reading : Bool) (c : Connection) : Prop :=
  c.isGood = true → Waiting busy reading c

/-! ## Processors -/

section Processor

variable {p : BatchProcessor} {paused : Bool}

theorem BatchProcessor.awake_again (p : BatchProcessor) (paused : Bool) : p.again.Awake paused :=
  fun _ _ => .inl (Nat.succ_pos _)

theorem BatchProcessor.Awake.gotResponse (h : p.Awake paused) (m : Message) :
    (p.gotResponse m).Awake paused := by
  unfold BatchProcessor.gotResponse
  dsimp only
  split_ifs
  · exact BatchProcessor.awake_again _ _
  · exact h

/-- A batch stays awake when reads are paused. -/
theorem BatchProcessor.Awake.pause (h : p.Awake false) : p.Awake true := by
  intro hdone hnext
  rcases h hdone hnext with hcalls | ⟨_, hfalse⟩
  · exact .inl hcalls
  · exact Bool.noConfusion hfalse

/-- The batches that were paused are called when reads are resumed. -/
theorem BatchProcessor.Awake.resume (h : p.Awake true) :
    (if p.isProcessingPaused = true then p.again else p).Awake false := by
  split_ifs with hpaused
  · exact p.awake_again false
  · intro hdone hnext
    rcases h hdone hnext with hcalls | ⟨hp, _⟩
    · exact .inl hcalls
    · exact absurd hp hpaused

end Processor

/-! ## Parts of an event -/

section Parts

variable {c c' : Connection} {busy : Option Nat} {reading : Bool} {i : Nat} {p : BatchProcessor}

theorem Served.congr (h : Served busy reading c) (hgood : c'.isGood = true → c.isGood = true)
    (hpaused : c'.readPaused = c.readPaused) (htimer : c'.decayTimer = c.decayTimer)
    (hlines : c'.lines = c.lines) (hevents : c'.readEvents = c.readEvents)
    (hskipped : c'.skippedOnReadyRead = c.skippedOnReadyRead)
    (hbatches : c'.extantBatchProcessors = c.extantBatchProcessors) : Served busy reading c' := by
  intro hg
  have hw := h (hgood hg)
  refine ⟨?_, ?_, ?_⟩
  · rw [hpaused, htimer]
    exact hw.timer
  · rw [hpaused, hlines, hevents, hskipped]
    exact hw.buffered
  · rw [hpaused, hbatches]
    exact hw.batches

theorem served_status (c : Connection) {status : Status} (hstatus : status ≠ .connected) :
    Served busy reading { c with status := status } :=
  fun hg => absurd (of_decide_eq_true hg) hstatus

theorem served_doDisconnect (c : Connection) : Served busy reading c.doDisconnect := by
  unfold Connection.doDisconnect
  intro hg
  have hstatus := of_decide_eq_true hg
  dsimp only at hstatus
  split_ifs at hstatus

theorem served_write (h : Served busy reading c) (sender : Option Nat) (out : Outgoing) :
    Served busy reading (c.write sender out) :=
  h.congr id rfl rfl rfl rfl rfl rfl

theorem served_setProcessor (h : Served busy reading c)
    (hp : some i ≠ busy → p.Awake c.readPaused) : Served busy reading (c.setProcessor i p) := by
  intro hg
  have hw := h hg
  refine ⟨hw.timer, hw.buffered, fun j q hj hq => ?_⟩
  by_cases hji : j = i
  · subst hji
    obtain rfl : p = q := by
      simpa [Connection.setProcessor] using hq
    exact hp hj
  · refine hw.batches j q hj ?_
    simpa [Connection.setProcessor, Function.update_of_ne hji] using hq

theorem served_finish (h : Served busy reading c) (i : Nat) (p : BatchProcessor) (o : Outcome) :
    Served busy reading (c.finish i p o) := by
  intro hg
  have hw := h hg
  refine ⟨hw.timer, hw.buffered, fun j q hj hq => ?_⟩
  by_cases hji : j = i
  · subst hji
    simp [Connection.finish] at hq
  · refine hw.batches j q hj ?_
    simpa [Connection.finish, Function.update_of_ne hji] using hq

/-- A batch that finishes need not be called any more. -/
theorem served_finish_busy (h : Served (some i) reading c) (p : BatchProcessor) (o : Outcome) :
    Served none reading (c.finish i p o) := by
  intro hg
  have hw := h hg
  refine ⟨hw.timer, hw.buffered, fun j q _ hq => ?_⟩
  by_cases hji : j = i
  · subst hji
    simp [Connection.finish] at hq
  · refine hw.batches j q (fun hj => hji (Option.some.inj hj)) ?_
    simpa [Connection.finish, Function.update_of_ne hji] using hq

theorem served_callAgain (h : Served (some i) reading c) : Served none reading (c.callAgain i) := by
  intro hg
  have hw := h hg
  refine ⟨hw.timer, hw.buffered, fun j q _ hq => ?_⟩
  by_cases hji : j = i
  · subst hji
    simp only [Connection.callAgain, Function.update_self, Option.map_eq_some_iff] at hq
    obtain ⟨q', _, rfl⟩ := hq
    exact q'.awake_again _
  · refine hw.batches j q (fun hj => hji (Option.some.inj hj)) ?_
    simpa [Connection.callAgain, Function.update_of_ne hji] using hq

/-! ### Pausing and resuming -/

/-- The timer is started with every pause, so that the pause will end. -/
theorem served_pause (h : Served busy reading c) :
    Served busy reading (c.setReadPaused true).startDecayTimer := by
  unfold Connection.setReadPaused
  by_cases hsame : true = c.readPaused
  · rw [if_pos hsame]
    intro hg
    have hw := h hg
    exact ⟨fun _ => rfl, hw.buffered, hw.batches⟩
  · rw [if_neg hsame]
    have hrunning : c.readPaused = false := Bool.eq_false_of_not_eq_true fun ht => hsame ht.symm
    intro hg
    have hw := h hg
    refine ⟨fun _ => rfl, fun hread hlines => ?_, fun j q hj hq => ?_⟩
    · -- the mark was cleared, but without a pause it did not stand for a line
      rcases hw.buffered hread hlines with hevents | ⟨hpaused, _⟩
      · exact .inl hevents
      · rw [hrunning] at hpaused
        exact Bool.noConfusion hpaused
    · have hget : c.extantBatchProcessors j = some q := by
        simpa [Connection.readPausedStateChanged, Connection.startDecayTimer,
          Connection.setDecayTimer] using hq
      have hawake := hw.batches j q hj hget
      rw [hrunning] at hawake
      exact hawake.pause

theorem served_resume (h : Served none false c) (hpaused : c.readPaused = true) :
    Served none false (c.setReadPaused false) := by
  unfold Connection.setReadPaused
  rw [if_neg (by simp [hpaused])]
  intro hg
  have hw := h hg
  refine ⟨fun hfalse => Bool.noConfusion hfalse, fun hread hlines => .inl ?_, fun j q hj hq => ?_⟩
  · rcases hw.buffered hread hlines with hevents | ⟨_, hskipped⟩
    · simp only [Connection.readPausedStateChanged]
      split_ifs
      · exact Nat.succ_pos _
      · exact hevents
    · simp [Connection.readPausedStateChanged, hskipped]
  · simp only [Connection.readPausedStateChanged, Option.map_eq_some_iff] at hq
    obtain ⟨q', hget, rfl⟩ := hq
    have hawake := hw.batches j q' hj hget
    rw [hpaused] at hawake
    exact hawake.resume

theorem served_submitRequest (h : Served busy reading c) :
    Served busy reading c.submitRequest := by
  have hcounted : Served busy reading c.countRequest := h.congr id rfl rfl rfl rfl rfl rfl
  unfold Connection.submitRequest
  split_ifs
  · exact served_pause hcounted
  · exact hcounted

theorem served_submitRequests (h : Served busy reading c) (n : Nat) :
    Served busy reading (Connection.submitRequest^[n] c) := by
  induction n generalizing c with
  | zero => exact h
  | succ n ih => exact ih (served_submitRequest h)

/-! ### Answers -/

theorem served_batchResponseFilter (h : Served busy reading c) (b : Option Nat) (m : Message) :
    Served busy reading (c.batchResponseFilter b m).2 := by
  cases b with
  | none => exact h
  | some j =>
      cases hget : c.extantBatchProcessors j with
      | none =>
          simp only [Connection.batchResponseFilter, hget]
          exact h
      | some q =>
          simp only [Connection.batchResponseFilter, hget]
          intro hg
          exact served_setProcessor h
            (fun hj => ((h hg).batches j q hj hget).gotResponse m) hg

theorem served_sendResult (h : Served busy reading c) (b : Option Nat) (id : MsgId)
    (result : String) : Served busy reading (c.sendResult b id result) := by
  have hfilter := served_batchResponseFilter h b (.response id result)
  unfold Connection.sendResult
  dsimp only
  split_ifs
  · exact hfilter
  · exact served_write hfilter _ _
  · exact served_doDisconnect c

theorem served_sendError (h : Served busy reading c) (sender : Option Nat) (disc : Bool)
    (code : Int) (message : String) (b : Option Nat) (id : MsgId) :
    Served busy reading (c.sendError sender disc code message b id) := by
  have hfilter := served_batchResponseFilter h b (.error id code message)
  unfold Connection.sendError
  dsimp only
  split_ifs
  · exact served_doDisconnect _
  · exact hfilter
  · exact served_write hfilter _ _
  · exact served_doDisconnect c

theorem served_onProcessJsonFailure (h : Served busy reading c) (sender : Option Nat)
    (code : Int) (message : String) (id : MsgId) :
    Served busy reading (c.onProcessJsonFailure sender code message id) := by
  unfold Connection.onProcessJsonFailure
  split_ifs
  · exact served_sendError h _ _ _ _ _ _
  · exact served_status _ (by simp)
  · exact h

theorem served_answer (h : Served busy reading c) (b : Option Nat) (id : MsgId) (a : Answer) :
    Served busy reading (c.answer b id a) := by
  cases a with
  | result result => exact served_sendResult h b id result
  | error disconnect code message => exact served_sendError h _ _ _ _ _ _

theorem served_gotMessage (h : Served busy reading c) (b : Option Nat) (id : MsgId)
    (handling : Handling) : Served busy reading (c.gotMessage b id handling) := by
  have hsubmit := served_submitRequests h handling.bitcoindRequests
  unfold Connection.gotMessage
  cases handling.answer with
  | none => exact hsubmit.congr (fun hg => hg) rfl rfl rfl rfl rfl rfl
  | some a => exact served_answer hsubmit b id a

end Parts

/-! ## Events -/

section Events

variable {c : Connection} {busy : Option Nat} {reading : Bool} {i : Nat} {p : BatchProcessor}

theorem served_respond (h : Served none false c) (k : Nat) (req : Pending)
    (a : String ⊕ Int × String) : Served none false (c.respond k req a) := by
  have herased : Served none false { c with pending := c.pending.eraseIdx k } :=
    h.congr id rfl rfl rfl rfl rfl rfl
  unfold Connection.respond
  cases a with
  | inl result => exact served_answer herased _ _ _
  | inr e => exact served_answer herased _ _ _

/-- While reads stay paused the counter is above `lo`, which is not 0. -/
theorem resume_paused (hpaused : c.resume.readPaused = true) : 0 < c.resume.bdReqCtr := by
  unfold Connection.resume at hpaused ⊢
  split_ifs at hpaused ⊢ with hlow
  · unfold Connection.setReadPaused at hpaused
    rw [if_neg (by simp [hlow.1])] at hpaused
    exact Bool.noConfusion hpaused
  · have hlo := c.params.lo_inRange.1
    have habove : ¬ c.bdReqCtr ≤ c.params.lo := fun hle => hlow ⟨hpaused, hle⟩
    omega

theorem served_decayTick (h : Served none false c) : Served none false c.decayTick := by
  unfold Connection.decayTick
  cases htimer : c.decayTimer with
  | none => exact h
  | some iCtr =>
      dsimp only
      have hdecay : Served none false (c.decay ((iCtr + 1) % 2 ^ 32)) := by
        unfold Connection.decay
        split_ifs
        · exact h.congr id rfl rfl rfl rfl rfl rfl
        · exact h
      generalize c.decay ((iCtr + 1) % 2 ^ 32) = d at hdecay
      have hresume : Served none false d.resume := by
        unfold Connection.resume
        split_ifs with hlow
        · exact served_resume hdecay hlow.1
        · exact hdecay
      intro hg
      have hw := hresume hg
      refine ⟨fun hpaused => ?_, hw.buffered, hw.batches⟩
      have hpos := resume_paused hpaused
      simp [Connection.setDecayTimer, hpos]

/-- A batch that is busy may be put back in any state. -/
theorem served_busy (h : Served none false c) (q : BatchProcessor) :
    Served (some i) false (c.setProcessor i q) := by
  refine served_setProcessor (fun hg => ?_) (fun hne => absurd rfl hne)
  have hw := h hg
  exact ⟨hw.timer, hw.buffered, fun j q' _ => hw.batches j q' (by simp)⟩

theorem served_processItem (h : Served none false c) (i : Nat) (p : BatchProcessor) (item : Item) :
    Served (some i) false (c.processItem i p item) := by
  cases item with
  | notObject => exact served_busy h _
  | error code message id => exact served_busy h _
  | other id => exact served_busy h _
  | nothing => exact served_busy h _
  | notif n => exact served_submitRequests (served_busy h _) n
  | request id handling => exact served_gotMessage (served_busy h _) _ _ _

theorem served_complete (h : Served none false c) (i : Nat) (p : BatchProcessor) :
    Served none false (c.complete i p) := by
  unfold Connection.complete
  dsimp only
  refine served_finish ?_ i _ _
  have hwritten : Served none false (if p.batch.responses ≠ [] ∧ c.isGood = true then
      c.write (some i) (.reply p.batch.responses) else c) := by
    split_ifs
    · exact served_write h _ _
    · exact h
  generalize (if p.batch.responses ≠ [] ∧ c.isGood = true then
      c.write (some i) (.reply p.batch.responses) else c) = d at hwritten
  split_ifs
  · exact served_status _ (by simp)
  · exact hwritten

theorem served_process (h : Served none false c) (n : Nat) :
    Served none false (c.process i { p with calls := n }) := by
  unfold Connection.process
  dsimp only
  by_cases hdone : p.done = true
  · rw [if_pos hdone]
    exact h
  rw [if_neg hdone]
  by_cases hign : c.ignoreNewIncomingMessages = true
  · rw [if_pos hign]
    exact served_finish h i _ _
  rw [if_neg hign]
  by_cases hkill : p.killed = true
  · rw [if_pos hkill]
    exact served_finish_busy (served_onProcessJsonFailure (served_busy h _) _ _ _ _) _ _
  rw [if_neg hkill]
  cases hitem : p.batch.items[p.batch.nextItem]? with
  | none =>
      dsimp only
      split_ifs with hcomplete
      · exact served_complete h i _
      · refine served_setProcessor h fun _ _ hnext => ?_
        have hlt : p.batch.nextItem < p.batch.items.length := of_decide_eq_true hnext
        rw [List.getElem?_eq_getElem hlt] at hitem
        simp at hitem
  | some item =>
      dsimp only
      split_ifs with hpaused hgood
      · refine served_setProcessor h fun _ _ _ => .inr ⟨rfl, hpaused⟩
      · exact served_callAgain (served_processItem h i _ item)
      · exact fun hg => absurd hg hgood

theorem served_inactivityTimeout (c : Connection) (i : Nat) (p : BatchProcessor) :
    Served none false (c.inactivityTimeout i p) := by
  unfold Connection.inactivityTimeout Connection.sendTimedOut
  exact served_finish (served_status _ (by simp)) i _ _

theorem served_killForExceedngLimit (h : Served none false c) (i : Nat) (p : BatchProcessor) :
    Served none false (c.killForExceedngLimit i p) := by
  unfold Connection.killForExceedngLimit
  split_ifs
  · exact h
  · have hset := served_setProcessor (i := i) h
      (fun _ => BatchProcessor.awake_again { p with killed := true } c.readPaused)
    exact hset.congr id rfl rfl rfl rfl rfl rfl

/-! ### Reading -/

theorem served_enqueueNewBatch (h : Served none reading c) (items : List Item) (accepted : Bool) :
    Served none reading (c.enqueueNewBatch items accepted) := by
  unfold Connection.enqueueNewBatch
  split_ifs
  · exact served_onProcessJsonFailure h _ _ _ _
  · exact served_onProcessJsonFailure h _ _ _ _
  · have hset := served_setProcessor (i := c.enqueued.length)
      (p := { batch := { items := items }, calls := 1 }) h (fun _ _ _ => .inl Nat.one_pos)
    exact hset.congr id rfl rfl rfl rfl rfl rfl

theorem served_processJson (h : Served none reading c) (line : Line) :
    Served none reading (c.processJson line) := by
  unfold Connection.processJson
  split_ifs
  · exact h
  · cases line with
    | failure code message id => exact served_onProcessJsonFailure h _ _ _ _
    | request id handling => exact served_gotMessage h _ _ _
    | errorMessage => exact served_sendError h _ _ _ _ _ _
    | nothing => exact h
    | batch items accepted => exact served_enqueueNewBatch h items accepted

/-- The loop leaves lines in the buffer only when reads are paused. -/
theorem served_readLines (lines : List Line) (h : Served none true c) :
    Served none false (Connection.readLines lines c) := by
  induction lines generalizing c with
  | nil =>
      intro hg
      have hw := h hg
      exact ⟨hw.timer, fun _ hne => absurd rfl hne, hw.batches⟩
  | cons line lines ih =>
      unfold Connection.readLines
      split_ifs with hbad hpaused
      · intro hg
        rw [show c.status = .connected from of_decide_eq_true hg] at hbad
        exact Status.noConfusion hbad
      · intro hg
        have hw := h hg
        exact ⟨hw.timer, fun _ _ => .inr ⟨hpaused, rfl⟩, hw.batches⟩
      · exact ih (served_processJson h line)

end Events

/-! ## Runs -/

theorem served_promptStep {c c' : Connection} (h : Served none false c)
    (hstep : PromptStep c c') : Served none false c' := by
  cases hstep with
  | data lines =>
      intro hg
      have hw := h hg
      exact ⟨hw.timer, fun _ _ => .inl (Nat.succ_pos _), hw.batches⟩
  | readyRead _ =>
      refine served_readLines _ fun hg => ?_
      have hw := h hg
      exact ⟨hw.timer, fun hread => Bool.noConfusion hread, hw.batches⟩
  | process _ _ => exact served_process h _
  | inactivityTimeout _ _ => exact served_inactivityTimeout c _ _
  | kill _ => exact served_killForExceedngLimit h _ _
  | deferredDelete i => exact h.congr id rfl rfl rfl rfl rfl rfl
  | respond a _ => exact served_respond h _ _ a
  | submit => exact served_submitRequest h
  | bitcoindDone _ => exact h.congr id rfl rfl rfl rfl rfl rfl
  | decayTick => exact served_decayTick h
  | setParams params => exact h.congr id rfl rfl rfl rfl rfl rfl
  | disconnect => exact served_doDisconnect c
  | lost hstatus => exact served_status c hstatus

theorem served_step {c c' : Connection} (h : Served none false c) (hstep : ConnectionStep c c') :
    Served none false c' := by
  cases hstep with
  | prompt hstep => exact served_promptStep h hstep
  | lateTimeout _ _ => exact served_status _ (by simp)

theorem served_of_reachable {c : Connection} (h : Reachable Connection.Start ConnectionStep c) :
    Served none false c := by
  refine h.invariant (fun c hc => ?_) (fun _ _ hi hs => served_step hi hs)
  obtain ⟨errorPolicy, params, rfl⟩ := hc
  intro _
  exact ⟨fun hpaused => Bool.noConfusion hpaused, fun _ hne => absurd rfl hne, by simp⟩

/--
A good connection whose reads are paused has an active decay timer; one with a complete
line in its buffer and reads that are not paused has a read event pending; and a batch
with items left has a call of `process` pending or waits for the end of the pause.
-/
theorem never_stranded {c : Connection} (h : Reachable Connection.Start ConnectionStep c)
    (hgood : c.isGood = true) :
    (c.readPaused = true → c.decayTimer.isSome) ∧
    (c.readPaused = false → c.lines ≠ [] → 0 < c.readEvents) ∧
    (∀ i p, c.extantBatchProcessors i = some p → p.done = false → p.batch.hasNext = true →
      0 < p.calls ∨ p.isProcessingPaused = true ∧ c.readPaused = true) := by
  have hw := served_of_reachable h hgood
  refine ⟨hw.timer, fun hrunning hlines => ?_, fun i p hget => hw.batches i p (by simp) hget⟩
  rcases hw.buffered rfl hlines with hevents | ⟨hpaused, _⟩
  · exact hevents
  · rw [hrunning] at hpaused
    exact Bool.noConfusion hpaused

/-- A client sends a request to bitcoind more often than allowed and then another message. -/
theorem never_stranded_paused : ∃ c : Connection, c.readPaused = true ∧ c.lines = [.nothing] ∧
    (c.readPaused = true → c.decayTimer.isSome) ∧
    (c.readPaused = false → c.lines ≠ [] → 0 < c.readEvents) := by
  have h0 : Reachable Connection.Start ConnectionStep
      { params := { hi := 5, lo := 1, decay := 1 } } := .start ⟨{}, _, rfl⟩
  have h1 := h0.next (.prompt (.data [.request (.int 1) { bitcoindRequests := 5 }, .nothing]))
  have h2 := h1.next (.prompt (.readyRead (by decide)))
  have hserved := never_stranded h2 (by decide +kernel)
  exact ⟨_, by decide +kernel, by decide +kernel, hserved.1, hserved.2.1⟩

end Rpc
end Shulcrum
