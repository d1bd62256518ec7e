import Shulcrum.Lib.Invariant
import Shulcrum.Rpc.BatchStages

/-!
# The replies to batches

Whatever the order in which items are processed, handlers answer, reads are paused
and batches are killed or time out, a batch is answered once at most, unless its timer
fires after it has finished.  Its normal reply has one response for every request and
every invalid item.

**Results.**
* `inv_of_reachable`: the invariant of all runs without such a timer.
* `batch_replies`: what is sent for a batch.
* `late_timeout_after_reply`: the timer of a batch that was answered.
-/

namespace Shulcrum
namespace Rpc

open Invariant

/-! ## Processing -/

section Process

variable {c c' : Connection} {i : Nat} {p q : BatchProcessor} {good ignoring : Bool}
  {sent : List Outgoing} {opened opened' : List MsgId} {items : List Item} {b b' : Batch}
  {item : Item} {o : Outcome} {killed : Bool}

/-- The next item is handed over: it is skipped, answered or open. -/
theorem Running.advance (h : Running good ignoring sent opened items b)
    (hitem : b.items[b.nextItem]? = some item) (hitems : b'.items = b.items)
    (hnext : b'.nextItem = b.nextItem + 1)
    (hskip : b'.skippedCt + item.answered.toList.length = b.skippedCt + 1)
    (hopen : (b'.responses.map Message.id ++ opened').Perm
      ((b.responses.map Message.id ++ opened) ++ item.answered.toList)) :
    Running good ignoring sent opened' items b' := by
  have hhanded : b'.handedOver = b.handedOver ++ item.answered.toList := by
    unfold Batch.handedOver
    rw [hitems, hnext, List.take_add_one, List.filterMap_append, hitem]
    cases hans : item.answered with
    | none => simp [hans]
    | some id => simp [hans]
  refine ⟨hitems.trans h.items_eq, ?_, h.sent_of, fun hign => ?_, fun hign => ?_⟩
  · have hlt := (List.getElem?_eq_some_iff.1 hitem).1
    rw [h.items_eq] at hlt
    omega
  · have hcount := h.counted hign
    rw [hhanded, List.length_append, hnext]
    omega
  · rw [hhanded]
    exact hopen.trans ((h.balanced hign).append_right _)

/-- A batch that does not get its normal reply. -/
theorem Running.ended (h : Running good ignoring sent opened items b) (ho : o ≠ .completed) :
    Ended killed sent items o := by
  rcases h.sent_of with rfl | ⟨_, _, m, hm, rfl⟩
  · exact ⟨by simp, by simp, by simp, fun _ => ho⟩
  · exact ended_error hm ho

theorem Running.sendError {disc : Bool} {code : Int} {message : String} {id : MsgId}
    (h : Running c.isGood ignoring (c.sentFor i) opened items b) (ho : o ≠ .completed) :
    Ended killed ((c.sendError (some i) disc code message none id).sentFor i) items o := by
  unfold Connection.sendError
  split_ifs with hgood
  · rw [sentFor_doDisconnect, sentFor_write_self, h.sent_nil hgood]
    exact ended_error rfl ho
  · simp only [Connection.batchResponseFilter, Bool.false_eq_true, if_false]
    rw [sentFor_write_self, h.sent_nil hgood]
    exact ended_error rfl ho
  · exact h.ended ho

theorem Running.onProcessJsonFailure {code : Int} {message : String} {id : MsgId}
    (h : Running c.isGood ignoring (c.sentFor i) opened items b) (ho : o ≠ .completed) :
    Ended killed ((c.onProcessJsonFailure (some i) code message id).sentFor i) items o := by
  unfold Connection.onProcessJsonFailure
  split_ifs
  · exact h.sendError ho
  · exact h.ended ho
  · exact h.ended ho

/-- The responses that a complete batch has collected. -/
theorem Running.complete (h : Running good false sent opened items b) (hcomplete : b.isComplete) :
    (b.responses.map Message.id).Perm (items.filterMap Item.answered) := by
  unfold Batch.isComplete Batch.hasNext at hcomplete
  simp only [Bool.and_eq_true, Bool.not_eq_true', decide_eq_false_iff_not, decide_eq_true_eq]
    at hcomplete
  obtain ⟨hlast, hall⟩ := hcomplete
  have hcount := h.counted rfl
  have hbalance := h.balanced rfl
  have hnext : b.nextItem = b.items.length := by
    have hle := h.nextItem_le
    rw [← h.items_eq] at hle
    omega
  have hhanded : b.handedOver = items.filterMap Item.answered := by
    unfold Batch.handedOver
    rw [hnext, List.take_length, h.items_eq]
  have hlength := hbalance.length_eq
  rw [List.length_append, List.length_map] at hlength
  have hnone : opened = [] := List.eq_nil_of_length_eq_zero (by omega)
  rw [hnone, List.append_nil, hhanded] at hbalance
  exact hbalance

/-- Steps that concern one batch only. -/
structure Aside (i : Nat) (c c' : Connection) : Prop where
  enqueued : c'.enqueued = c.enqueued
  killedBatches : c'.killedBatches = c.killedBatches
  stage : ∀ j, j ≠ i → Stage [] c j → Stage [] c' j

theorem Quiet.aside (h : Quiet c c') (i : Nat) : Aside i c c' :=
  ⟨h.enqueued, h.killedBatches, fun j _ hj => hj.same (h.same [] j)⟩

theorem Aside.trans {c'' : Connection} (h : Aside i c c') (h' : Aside i c' c'') : Aside i c c'' :=
  ⟨h'.enqueued.trans h.enqueued, h'.killedBatches.trans h.killedBatches,
    fun j hj hs => h'.stage j hj (h.stage j hj hs)⟩

theorem aside_write (c : Connection) (i : Nat) (out : Outgoing) :
    Aside i c (c.write (some i) out) :=
  ⟨rfl, rfl, fun _ hj hs => hs.same (same_write fun h => hj (Option.some.inj h).symm)⟩

theorem aside_setProcessor (c : Connection) (i : Nat) (p : BatchProcessor) :
    Aside i c (c.setProcessor i p) := by
  refine ⟨rfl, rfl, fun j hj hs => hs.same
    ⟨rfl, rfl, rfl, rfl, ?_, fun hg => hg, fun hi => hi, fun ho => ho, fun _ _ => .refl _⟩⟩
  simp [Connection.setProcessor, Function.update_of_ne hj]

theorem aside_sendError (c : Connection) (i : Nat) (disc : Bool) (code : Int) (message : String)
    (id : MsgId) : Aside i c (c.sendError (some i) disc code message none id) := by
  unfold Connection.sendError
  split_ifs
  · exact (aside_write c i _).trans ((quiet_doDisconnect _).aside i)
  · exact aside_write c i _
  · exact (quiet_doDisconnect c).aside i

theorem aside_onProcessJsonFailure (c : Connection) (i : Nat) (code : Int) (message : String)
    (id : MsgId) : Aside i c (c.onProcessJsonFailure (some i) code message id) := by
  unfold Connection.onProcessJsonFailure
  split_ifs
  · exact aside_sendError c i _ _ _ _
  · exact (quiet_bad c).aside i
  · exact (Quiet.refl c).aside i

theorem Inv.finish (h : Inv [] c) (ha : Aside i c c') (henq : c.enqueued[i]? = some items)
    (hend : Ended (c.killedBatches i) (c'.sentFor i) items o) : Inv [] (c'.finish i p o) := by
  intro j
  by_cases hj : j = i
  · subst hj
    refine .ended items o ?_ (by simp [Connection.finish]) (by simp [Connection.finish]) ?_
    · exact ha.enqueued ▸ henq
    · exact ha.killedBatches ▸ hend
  · refine (ha.stage j hj (h j)).same
      ⟨rfl, rfl, ?_, rfl, ?_, fun hg => hg, fun hi => hi, fun ho => ho, fun _ _ => .refl _⟩
    · simp [Connection.finish, Function.update_of_ne hj]
    · simp [Connection.finish, Function.update_of_ne hj]

theorem inv_complete (h : Inv [] c) (hget : c.extantBatchProcessors i = some p)
    (hq : q.batch = p.batch) (hign : c.ignoreNewIncomingMessages = false)
    (hkilled : p.killed = false) (hcomplete : p.batch.isComplete) : Inv [] (c.complete i q) := by
  obtain ⟨items, henq, _, _, hk, hrun⟩ := h.running_of_get hget
  rw [hign] at hrun
  rw [hkilled] at hk
  have hperm := hrun.complete hcomplete
  have hnil : c.sentFor i = [] := by
    rcases hrun.sent_of with hnil | ⟨_, hbad, _⟩
    · exact hnil
    · exact Bool.noConfusion hbad
  have hempty : Ended (c.killedBatches i) [] items .completed :=
    ⟨by simp, by simp, by simp, fun hkill => by simp [← hk] at hkill⟩
  have hreply : Ended (c.killedBatches i) [.reply p.batch.responses] items .completed :=
    ⟨by simp, fun hne => absurd rfl hne, fun _ out hout => ⟨_, hperm, List.mem_singleton.1 hout⟩,
      fun hkill => by simp [← hk] at hkill⟩
  have hwritten : Ended (c.killedBatches i)
      ((c.write (some i) (.reply p.batch.responses)).sentFor i) items .completed := by
    rw [sentFor_write_self, hnil]
    exact hreply
  have hsilent : Ended (c.killedBatches i) (c.sentFor i) items .completed := by
    rw [hnil]
    exact hempty
  unfold Connection.complete
  dsimp only
  rw [hq]
  split_ifs
  · exact h.finish ((aside_write c i _).trans ((quiet_bad _).aside i)) henq hwritten
  · exact h.finish (aside_write c i _) henq hwritten
  · exact h.finish ((quiet_bad c).aside i) henq hsilent
  · exact h.finish ((Quiet.refl c).aside i) henq hsilent

theorem inv_pushError {m : Message} (h : Inv [] c) (hget : c.extantBatchProcessors i = some q)
    (hitem : q.batch.items[q.batch.nextItem]? = some item) (hm : item.answered = some m.id)
    (hp : p.core = ({ q.batch with nextItem := q.batch.nextItem + 1 }, q.done, q.killed)) :
    Inv [] (c.pushError i p m) := by
  obtain ⟨hbatch, hdone, hkilled⟩ : p.batch = { q.batch with nextItem := q.batch.nextItem + 1 } ∧
      p.done = q.done ∧ p.killed = q.killed := by
    simpa [BatchProcessor.core] using hp
  refine h.set hget hdone hkilled (fun _ _ => rfl) (fun _ _ _ _ hrun => ?_)
  refine hrun.advance hitem ?_ ?_ ?_ ?_
  · simp [BatchProcessor.pushResponse, hbatch]
  · simp [BatchProcessor.pushResponse, hbatch]
  · simp [BatchProcessor.pushResponse, hbatch, hm]
  · simp only [BatchProcessor.pushResponse, hbatch, hm, List.map_append, List.map_cons,
      List.map_nil, Option.toList_some, List.append_assoc]
    exact List.perm_append_comm.append_left _

theorem inv_skipItem (h : Inv [] c) (hget : c.extantBatchProcessors i = some q)
    (hitem : q.batch.items[q.batch.nextItem]? = some item) (hm : item.answered = none)
    (hp : p.core = ({ q.batch with nextItem := q.batch.nextItem + 1 }, q.done, q.killed)) :
    Inv [] (c.skipItem i p) := by
  obtain ⟨hbatch, hdone, hkilled⟩ : p.batch = { q.batch with nextItem := q.batch.nextItem + 1 } ∧
      p.done = q.done ∧ p.killed = q.killed := by
    simpa [BatchProcessor.core] using hp
  refine h.set hget hdone hkilled (fun _ _ => rfl) (fun _ _ _ _ hrun => ?_)
  refine hrun.advance hitem ?_ ?_ ?_ ?_
  · simp [hbatch]
  · simp [hbatch]
  · simp [hbatch, hm]
  · simp [hbatch, hm]

theorem inv_processItem (h : Inv [] c) (hget : c.extantBatchProcessors i = some q)
    (hitem : q.batch.items[q.batch.nextItem]? = some item)
    (hp : p.core = ({ q.batch with nextItem := q.batch.nextItem + 1 }, q.done, q.killed)) :
    Inv [] (c.processItem i p item) := by
  cases item with
  | notObject => exact inv_pushError h hget hitem rfl hp
  | error code message id => exact inv_pushError h hget hitem rfl hp
  | other id => exact inv_pushError h hget hitem rfl hp
  | notif n => exact (inv_skipItem h hget hitem rfl hp).quiet (quiet_submitRequests n _)
  | nothing => exact inv_skipItem h hget hitem rfl hp
  | request id handling =>
      obtain ⟨hbatch, hdone, hkilled⟩ :
          p.batch = { q.batch with nextItem := q.batch.nextItem + 1 } ∧
            p.done = q.done ∧ p.killed = q.killed := by
        simpa [BatchProcessor.core] using hp
      unfold Connection.processItem
      refine inv_gotMessage (h.set hget hdone hkilled ?_ fun _ _ _ _ hrun => ?_) ?_
      · intro j hj
        exact openFor_other (fun hij => hj (Option.some.inj hij).symm) _
      · refine hrun.advance hitem ?_ ?_ ?_ ?_
        · simp [hbatch]
        · simp [hbatch]
        · simp [hbatch, Item.answered]
        · simp only [hbatch, Item.answered, openFor_append, openFor_self, List.nil_append,
            Option.toList_some, List.append_assoc]
          exact List.perm_append_comm.append_left _
      · intro j hj
        obtain rfl := Option.some.inj hj
        simp [Connection.setProcessor]

/-- `BatchProcessor::process` of a processor with fewer calls posted. -/
theorem inv_process (h : Inv [] c) (hget : c.extantBatchProcessors i = some p) (n : Nat) :
    Inv [] (c.process i { p with calls := n }) := by
  obtain ⟨items, henq, hout, hdone, hkilled, hrun⟩ := h.running_of_get hget
  unfold Connection.process
  dsimp only
  rw [hdone, if_neg Bool.false_ne_true]
  by_cases hign : c.ignoreNewIncomingMessages = true
  · rw [if_pos hign]
    exact h.finish ((Quiet.refl c).aside i) henq (hrun.ended (by simp))
  rw [if_neg hign]
  by_cases hkill : p.killed = true
  · rw [if_pos hkill]
    refine h.finish
      ((aside_setProcessor c i _).trans (aside_onProcessJsonFailure _ i _ _ _)) henq ?_
    exact @Running.onProcessJsonFailure (c.setProcessor i _) _ _ _ _ _ _ _ _ _ _ hrun (by simp)
  rw [if_neg hkill]
  cases hitem : p.batch.items[p.batch.nextItem]? with
  | none =>
      dsimp only
      split_ifs with hcomplete
      · exact @inv_complete c i p _ h hget rfl (Bool.eq_false_of_not_eq_true hign)
          (Bool.eq_false_of_not_eq_true hkill) hcomplete
      · exact h.quiet (quiet_setProcessor hget (by simp [BatchProcessor.core, hdone]))
  | some item =>
      dsimp only
      split_ifs
      · exact h.quiet (quiet_setProcessor hget (by simp [BatchProcessor.core, hdone]))
      · refine (inv_processItem h hget hitem ?_).quiet (quiet_callAgain _ i)
        simp [BatchProcessor.core, hdone]
      · refine inv_processItem h hget hitem ?_
        simp [BatchProcessor.core, hdone]

theorem inv_inactivityTimeout (h : Inv [] c) (hget : c.extantBatchProcessors i = some p) :
    Inv [] (c.inactivityTimeout i p) := by
  obtain ⟨items, henq, hout, hdone, hkilled, hrun⟩ := h.running_of_get hget
  unfold Connection.inactivityTimeout Connection.sendTimedOut
  refine h.finish (((aside_setProcessor c i _).trans (aside_sendError _ i _ _ _ _)).trans
    (Quiet.aside (quiet_status _ (by simp)) i)) henq ?_
  exact @Running.sendError (c.setProcessor i _) _ _ _ _ _ _ _ _ _ _ _ hrun (by simp)

theorem inv_killForExceedngLimit (h : Inv [] c) (hget : c.extantBatchProcessors i = some p) :
    Inv [] (c.killForExceedngLimit i p) := by
  obtain ⟨items, henq, hout, hdone, hkilled, hrun⟩ := h.running_of_get hget
  unfold Connection.killForExceedngLimit
  split_ifs
  · exact h
  · intro j
    by_cases hj : j = i
    · subst hj
      refine .running items p.batch henq ?_ hout hrun
      simp [Connection.setProcessor, BatchProcessor.core, BatchProcessor.again, hdone]
    · refine ((aside_setProcessor c i _).stage j hj (h j)).same
        ⟨rfl, ?_, rfl, rfl, rfl, fun hg => hg, fun hi => hi, fun ho => ho, fun _ _ => .refl _⟩
      simp [Connection.setProcessor, Function.update_of_ne hj]

end Process

/-! ## Reading -/

section Read

variable {c : Connection}

theorem inv_enqueueNewBatch (h : Inv [] c) (items : List Item) (accepted : Bool) :
    Inv [] (c.enqueueNewBatch items accepted) := by
  unfold Connection.enqueueNewBatch
  split_ifs
  · exact h.quiet (quiet_onProcessJsonFailure_none c _ _ _)
  · exact h.quiet (quiet_onProcessJsonFailure_none c _ _ _)
  · intro j
    by_cases hj : j = c.enqueued.length
    · subst hj
      cases h c.enqueued.length with
      | running _ _ henq => simp at henq
      | ended _ _ henq => simp at henq
      | fresh _ _ hout hkilled hsent hopen =>
          refine .running items { items := items } ?_ ?_ hout (.start hsent hopen)
          · simp
          · simp [Connection.setProcessor, BatchProcessor.core, hkilled]
    · refine ((aside_setProcessor c _ _).stage j hj (h j)).same
        ⟨?_, rfl, rfl, rfl, rfl, fun hg => hg, fun hi => hi, fun ho => ho, fun _ _ => .refl _⟩
      have happend : (c.enqueued ++ [items])[j]? = c.enqueued[j]? := by
        rcases Nat.lt_or_gt_of_ne hj with hlt | hgt
        · exact List.getElem?_append_left hlt
        · rw [List.getElem?_eq_none (Nat.le_of_lt hgt), List.getElem?_eq_none]
          simp only [List.length_append, List.length_singleton]
          omega
      exact happend

theorem inv_processJson (h : Inv [] c) (line : Line) : Inv [] (c.processJson line) := by
  unfold Connection.processJson
  split_ifs
  · exact h
  · cases line with
    | failure code message id => exact h.quiet (quiet_onProcessJsonFailure_none c _ _ _)
    | request id handling =>
        have hhand : Inv [⟨none, id⟩] c := fun i => (h i).same
          ⟨rfl, rfl, rfl, rfl, rfl, fun hg => hg, fun hi => hi, fun ho => ho, fun _ _ => .refl _⟩
        exact inv_gotMessage hhand (fun i hi => by simp at hi)
    | errorMessage => exact h.quiet (quiet_sendError_none c _ _ _ _)
    | nothing => exact h
    | batch items accepted => exact inv_enqueueNewBatch h items accepted

theorem inv_readLines (lines : List Line) (h : Inv [] c) :
    Inv [] (Connection.readLines lines c) := by
  induction lines generalizing c with
  | nil => exact h.quiet (quiet_reading _ _ _ _)
  | cons line lines ih =>
      unfold Connection.readLines
      split_ifs
      · exact h.quiet (quiet_reading _ _ _ _)
      · exact h.quiet (quiet_reading _ _ _ _)
      · exact ih (inv_processJson h line)

end Read

/-! ## Runs -/

theorem inv_step {c c' : Connection} (h : Inv [] c) (hstep : PromptStep c c') : Inv [] c' := by
  cases hstep with
  | data lines => exact h.quiet (quiet_reading c _ _ _)
  | readyRead _ => exact inv_readLines _ (h.quiet (quiet_reading c _ _ _))
  | process hget _ => exact inv_process h hget _
  | inactivityTimeout hget _ => exact inv_inactivityTimeout h hget
  | kill hget => exact inv_killForExceedngLimit h hget
  | deferredDelete i =>
      exact h.quiet ⟨rfl, rfl, rfl, fun _ => rfl, rfl, fun _ => rfl, id, id⟩
  | respond a hk => exact inv_respond h hk
  | submit => exact h.quiet (quiet_submitRequest c)
  | bitcoindDone _ => exact h.quiet ⟨rfl, rfl, rfl, fun _ => rfl, rfl, fun _ => rfl, id, id⟩
  | decayTick => exact h.quiet (quiet_decayTick c)
  | setParams params => exact h.quiet ⟨rfl, rfl, rfl, fun _ => rfl, rfl, fun _ => rfl, id, id⟩
  | disconnect => exact h.quiet (quiet_doDisconnect c)
  | lost hstatus => exact h.quiet (quiet_status c hstatus)

theorem inv_of_reachable {c : Connection} (h : Reachable Connection.Start PromptStep c) :
    Inv [] c := by
  refine h.invariant (fun c hc i => ?_) (fun _ _ hi hs => inv_step hi hs)
  obtain ⟨errorPolicy, params, rfl⟩ := hc
  exact .fresh rfl rfl rfl rfl rfl rfl

/--
In every run in which no inactivity timer fires after its batch has finished: a
batch gets one reply at most.  Its normal reply has one response for every request
and every invalid item and none for the others.  If it was killed or timed out, then
only an error is sent for it, and when it has ended nothing more is sent: the answers
of handlers that come later are dropped.
-/
theorem batch_replies {c : Connection} {i : Nat} {items : List Item}
    (h : Reachable Connection.Start PromptStep c) (hbatch : c.enqueued[i]? = some items) :
    (c.sentFor i).length ≤ 1 ∧
    (∀ responses, .reply responses ∈ c.sentFor i →
      (responses.map Message.id).Perm (items.filterMap Item.answered)) ∧
    (c.killedBatches i = true ∨ c.outcomes i = some .timedOut →
      ∀ out ∈ c.sentFor i, ∃ m : Message, m.isError = true ∧ out = .message m) ∧
    (c.outcomes i ≠ none → ∀ (k : Nat) (req : Pending) (a : String ⊕ Int × String),
      c.pending[k]? = some req → req.batchId = some i → (c.respond k req a).sent = c.sent) := by
  cases inv_of_reachable h i with
  | fresh henq => simp [hbatch] at henq
  | running items' b henq hext hout hrun =>
      have herror : ∀ out ∈ c.sentFor i, ∃ m : Message, m.isError = true ∧ out = .message m := by
        rcases hrun.sent_of with hnil | ⟨_, _, m, hm, hsent⟩
        · simp [hnil]
        · intro out hmem
          rw [hsent] at hmem
          exact ⟨m, hm, List.mem_singleton.1 hmem⟩
      refine ⟨?_, ?_, fun _ => herror, fun hne => absurd hout hne⟩
      · rcases hrun.sent_of with hnil | ⟨_, _, m, _, hsent⟩
        · simp [hnil]
        · simp [hsent]
      · intro responses hmem
        obtain ⟨m, _, hm⟩ := herror _ hmem
        exact Outgoing.noConfusion hm
  | ended items' o henq hext hout hend =>
      obtain rfl : items = items' := Option.some.inj (hbatch.symm.trans henq)
      refine ⟨hend.length_le, ?_, ?_, ?_⟩
      · intro responses hmem
        by_cases ho : o = .completed
        · obtain ⟨responses', hperm, heq⟩ := hend.reply ho _ hmem
          obtain rfl := Outgoing.reply.inj heq
          exact hperm
        · obtain ⟨m, _, hm⟩ := hend.error ho _ hmem
          exact Outgoing.noConfusion hm
      · intro hwhy
        refine hend.error ?_
        rcases hwhy with hkill | htime
        · exact hend.killed_of hkill
        · rw [hout] at htime
          rw [Option.some.inj htime]
          simp
      · intro _ k req a hk hreq
        exact respond_sent hreq hext

/-- Run a posted call of `BatchProcessor::process`. -/
def Connection.runPosted (c : Connection) (i : Nat) : Connection :=
  match c.extantBatchProcessors i with
  | some p => if 0 < p.calls then c.process i { p with calls := p.calls - 1 } else c
  | none => c

theorem reachable_runPosted {c : Connection} (h : Reachable Connection.Start PromptStep c)
    (i : Nat) : Reachable Connection.Start PromptStep (c.runPosted i) := by
  unfold Connection.runPosted
  cases hget : c.extantBatchProcessors i with
  | none => exact h
  | some p =>
      dsimp only
      split_ifs with hcalls
      · exact h.next (.process hget hcalls)
      · exact h

/-- A batch with a request, an invalid item and a notification; the handler answers when
all items were handed over. -/
theorem batch_replies_mixed : ∃ c : Connection,
    c.sentFor 0 = [.reply [.error .null (-32600) "Invalid request", .response (.int 1) "ok"]] ∧
    (c.sentFor 0).length ≤ 1 ∧
    ∀ responses, .reply responses ∈ c.sentFor 0 →
      (responses.map Message.id).Perm [.int 1, .null] := by
  have h0 : Reachable Connection.Start PromptStep {} := .start ⟨{}, {}, rfl⟩
  have h1 := h0.next (.data [.batch [.request (.int 1) {}, .notObject, .nothing] true])
  have h2 := h1.next (.readyRead (by decide))
  have h3 := reachable_runPosted (reachable_runPosted (reachable_runPosted h2 0) 0) 0
  have h4 := (reachable_runPosted h3 0).next (.respond (p := ⟨some 0, .int 1⟩) (k := 0)
    (.inl "ok") (by decide +kernel))
  have h5 := reachable_runPosted h4 0
  have hreplies := @batch_replies _ 0 [.request (.int 1) {}, .notObject, .nothing] h5
    (by decide +kernel)
  exact ⟨_, by decide +kernel, hreplies.1, hreplies.2.1⟩

/--
A batch of one request waits for its handler, so that the timer is set.  The handler
answers and the reply is sent, and then the timer fires before the processor is deleted.
-/
theorem late_timeout_after_reply : ∃ c : Connection,
    Reachable Connection.Start ConnectionStep c ∧ c.outcomes 0 = some .completed ∧
    c.sentFor 0 = [.reply [.response (.int 1) "ok"],
      .message (.error .null codeInternalError "Batch request timed out")] := by
  have h0 : Reachable Connection.Start PromptStep {} := .start ⟨{}, {}, rfl⟩
  have h1 := h0.next (.data [.batch [.request (.int 1) {}] true])
  have h2 := h1.next (.readyRead (by decide))
  have h3 := reachable_runPosted (reachable_runPosted h2 0) 0
  have h4 := h3.next (.respond (p := ⟨some 0, .int 1⟩) (k := 0) (.inl "ok") (by decide +kernel))
  have h5 := (reachable_runPosted h4 0).mono fun _ _ => ConnectionStep.prompt
  have h6 := h5.next (.lateTimeout (i := 0)
    (p := { batch := { items := [.request (.int 1) {}], nextItem := 1 }, done := true,
            inactivityTimer := true })
    (by decide +kernel) rfl)
  exact ⟨_, h6, by decide +kernel, by decide +kernel⟩

end Rpc
end Shulcrum
