import Mathlib.Data.List.Perm.Basic
import Shulcrum.Rpc.Connection

/-!
# The stages of a batch

A batch is fresh, running or ended.  The invariant says of a running batch that its
responses, together with the requests whose handlers have not answered, are those of
the items that were handed over.  A message that is lost because the connection is
going down breaks this, but then the batch is never completed.

**Results.**
* `Stage.same`, `Inv.quiet`: steps that do not concern a batch.
* `inv_gotMessage`, `inv_respond`: answers of handlers.
-/

namespace Shulcrum
namespace Rpc

/-- The id of the response that an item gets. -/
def Item.answered : Item → Option MsgId
  | .notObject => some .null
  | .error _ _ id => some id
  | .request id _ => some id
  | .notif _ => none
  | .other id => some id
  | .nothing => none

/-- The requests of a batch among the open ones. -/
def openFor (ps : List Pending) (i : Nat) : List MsgId :=
  (ps.filter fun p => decide (p.batchId = some i)).map Pending.id

/-- What was sent for a batch. -/
def Connection.sentFor (c : Connection) (i : Nat) : List Outgoing :=
  (c.sent.filter fun e => decide (e.1 = some i)).map Prod.snd

/-! ## Steps that do not concern the batches -/

section Quiet

variable {c c' c'' : Connection} {i : Nat} {p : BatchProcessor}

/-- The part of a processor that the replies depend on. -/
def BatchProcessor.core (p : BatchProcessor) : Batch × Bool × Bool := (p.batch, p.done, p.killed)

/-- Nothing is sent for a batch and none makes progress. -/
structure Quiet (c c' : Connection) : Prop where
  enqueued : c'.enqueued = c.enqueued
  killedBatches : c'.killedBatches = c.killedBatches
  outcomes : c'.outcomes = c.outcomes
  sentFor : ∀ i, c'.sentFor i = c.sentFor i
  pending : c'.pending = c.pending
  core : ∀ i, (c'.extantBatchProcessors i).map BatchProcessor.core =
    (c.extantBatchProcessors i).map BatchProcessor.core
  good : c'.isGood = true → c.isGood = true
  ignoring : c.ignoreNewIncomingMessages = true → c'.ignoreNewIncomingMessages = true

theorem Quiet.refl (c : Connection) : Quiet c c :=
  ⟨rfl, rfl, rfl, fun _ => rfl, rfl, fun _ => rfl, id, id⟩

theorem Quiet.trans (h : Quiet c c') (h' : Quiet c' c'') : Quiet c c'' where
  enqueued := h'.enqueued.trans h.enqueued
  killedBatches := h'.killedBatches.trans h.killedBatches
  outcomes := h'.outcomes.trans h.outcomes
  sentFor i := (h'.sentFor i).trans (h.sentFor i)
  pending := h'.pending.trans h.pending
  core i := (h'.core i).trans (h.core i)
  good := h.good ∘ h'.good
  ignoring := h'.ignoring ∘ h.ignoring

theorem quiet_setProcessor (hget : c.extantBatchProcessors i = some p) {p' : BatchProcessor}
    (hcore : p'.core = p.core) : Quiet c (c.setProcessor i p') where
  enqueued := rfl
  killedBatches := rfl
  outcomes := rfl
  sentFor _ := rfl
  pending := rfl
  core j := by
    by_cases hj : j = i
    · subst hj
      simp [Connection.setProcessor, hget, hcore]
    · simp [Connection.setProcessor, Function.update_of_ne hj]
  good := id
  ignoring := id

theorem quiet_callAgain (c : Connection) (i : Nat) : Quiet c (c.callAgain i) where
  enqueued := rfl
  killedBatches := rfl
  outcomes := rfl
  sentFor _ := rfl
  pending := rfl
  core j := by
    by_cases hj : j = i
    · subst hj
      simp only [Connection.callAgain, Function.update_self, Option.map_map]
      rfl
    · simp [Connection.callAgain, Function.update_of_ne hj]
  good := id
  ignoring := id

theorem quiet_doDisconnect (c : Connection) : Quiet c c.doDisconnect where
  enqueued := rfl
  killedBatches := rfl
  outcomes := rfl
  sentFor _ := rfl
  pending := rfl
  core _ := rfl
  good h := by
    unfold Connection.doDisconnect Connection.isGood at h
    dsimp only at h
    split_ifs at h
    · simp at h
    · simp at h
  ignoring _ := rfl

theorem quiet_readPausedStateChanged (c : Connection) (b : Bool) :
    Quiet c (c.readPausedStateChanged b) where
  enqueued := rfl
  killedBatches := rfl
  outcomes := rfl
  sentFor _ := rfl
  pending := rfl
  core i := by
    simp only [Connection.readPausedStateChanged, Option.map_map]
    congr 1
    funext p
    simp only [Function.comp_apply]
    split_ifs
    · rfl
    · rfl
  good := id
  ignoring := id

theorem quiet_setReadPaused (c : Connection) (b : Bool) : Quiet c (c.setReadPaused b) := by
  unfold Connection.setReadPaused
  by_cases hb : b = c.readPaused
  · rw [if_pos hb]
    exact .refl c
  · rw [if_neg hb]
    refine Quiet.trans ?_ (quiet_readPausedStateChanged _ b)
    exact ⟨rfl, rfl, rfl, fun _ => rfl, rfl, fun _ => rfl, id, id⟩

theorem quiet_setDecayTimer (c : Connection) (timer : Option Nat) :
    Quiet c (c.setDecayTimer timer) :=
  ⟨rfl, rfl, rfl, fun _ => rfl, rfl, fun _ => rfl, id, id⟩

theorem quiet_countRequest (c : Connection) : Quiet c c.countRequest :=
  ⟨rfl, rfl, rfl, fun _ => rfl, rfl, fun _ => rfl, id, id⟩

theorem quiet_submitRequest (c : Connection) : Quiet c c.submitRequest := by
  unfold Connection.submitRequest
  split_ifs
  · exact ((quiet_countRequest c).trans (quiet_setReadPaused _ true)).trans
      (quiet_setDecayTimer _ _)
  · exact quiet_countRequest c

theorem quiet_submitRequests (n : Nat) (c : Connection) :
    Quiet c (Connection.submitRequest^[n] c) := by
  induction n generalizing c with
  | zero => exact .refl c
  | succ n ih => exact (quiet_submitRequest c).trans (ih _)

theorem quiet_decay (c : Connection) (iCtr : Nat) : Quiet c (c.decay iCtr) := by
  unfold Connection.decay
  split_ifs
  · exact ⟨rfl, rfl, rfl, fun _ => rfl, rfl, fun _ => rfl, id, id⟩
  · exact .refl c

theorem quiet_resume (c : Connection) : Quiet c c.resume := by
  unfold Connection.resume
  split_ifs
  · exact quiet_setReadPaused c false
  · exact .refl c

theorem quiet_decayTick (c : Connection) : Quiet c c.decayTick := by
  unfold Connection.decayTick
  cases c.decayTimer with
  | none => exact .refl c
  | some iCtr =>
      exact ((quiet_decay c _).trans (quiet_resume _)).trans (quiet_setDecayTimer _ _)

/-- The buffer and the bookkeeping of reads. -/
theorem quiet_reading (c : Connection) (lines : List Line) (readEvents : Nat) (skipped : Bool) :
    Quiet c { c with
      lines := lines
      readEvents := readEvents
      skippedOnReadyRead := skipped } :=
  ⟨rfl, rfl, rfl, fun _ => rfl, rfl, fun _ => rfl, id, id⟩

theorem quiet_status (c : Connection) {status : Status} (h : status ≠ .connected) :
    Quiet c { c with status := status } :=
  ⟨rfl, rfl, rfl, fun _ => rfl, rfl, fun _ => rfl,
    fun hgood => absurd (of_decide_eq_true hgood) h, id⟩

theorem quiet_write_none (c : Connection) (out : Outgoing) : Quiet c (c.write none out) where
  enqueued := rfl
  killedBatches := rfl
  outcomes := rfl
  sentFor i := by simp [Connection.sentFor, Connection.write]
  pending := rfl
  core _ := rfl
  good := id
  ignoring := id

theorem quiet_sendError_none (c : Connection) (disc : Bool) (code : Int) (message : String)
    (id : MsgId) : Quiet c (c.sendError none disc code message none id) := by
  unfold Connection.sendError
  split_ifs
  · exact (quiet_write_none c _).trans (quiet_doDisconnect _)
  · exact quiet_write_none c _
  · exact quiet_doDisconnect c

theorem quiet_bad (c : Connection) : Quiet c { c.doDisconnect with status := .bad } :=
  (quiet_doDisconnect c).trans (quiet_status _ (by simp))

theorem quiet_onProcessJsonFailure_none (c : Connection) (code : Int) (message : String)
    (id : MsgId) : Quiet c (c.onProcessJsonFailure none code message id) := by
  unfold Connection.onProcessJsonFailure
  split_ifs
  · exact quiet_sendError_none c _ _ _ _
  · exact quiet_bad c
  · exact .refl c

end Quiet

/-! ## The invariant -/

section Stage

variable {c c' : Connection} {hand hand' : List Pending} {i : Nat}

/-- The ids of the responses for the items that were handed over. -/
def Batch.handedOver (b : Batch) : List MsgId :=
  (b.items.take b.nextItem).filterMap Item.answered

/-- A batch that is processed, given what was sent for it and its open requests. -/
structure Running (good ignoring : Bool) (sent : List Outgoing) (opened : List MsgId)
    (items : List Item) (b : Batch) : Prop where
  items_eq : b.items = items
  nextItem_le : b.nextItem ≤ items.length
  sent_of : sent = [] ∨ good = false ∧ ignoring = true ∧
    ∃ m : Message, m.isError = true ∧ sent = [.message m]
  counted : ignoring = false → b.skippedCt + b.handedOver.length = b.nextItem
  balanced : ignoring = false → (b.responses.map Message.id ++ opened).Perm b.handedOver

theorem Running.start {good ignoring : Bool} {sent : List Outgoing} {opened : List MsgId}
    {items : List Item} (hsent : sent = []) (hopen : opened = []) :
    Running good ignoring sent opened items { items := items } where
  items_eq := rfl
  nextItem_le := Nat.zero_le _
  sent_of := .inl hsent
  counted _ := rfl
  balanced _ := by simp [hopen, Batch.handedOver]

theorem Running.sent_nil {good ignoring : Bool} {sent : List Outgoing} {opened : List MsgId}
    {items : List Item} {b : Batch} (h : Running good ignoring sent opened items b)
    (hgood : good = true) : sent = [] := by
  rcases h.sent_of with hnil | ⟨hbad, _⟩
  · exact hnil
  · rw [hgood] at hbad
    exact Bool.noConfusion hbad

/-- What was sent for a batch that has finished. -/
structure Ended (killed : Bool) (sent : List Outgoing) (items : List Item) (o : Outcome) :
    Prop where
  length_le : sent.length ≤ 1
  error : o ≠ .completed → ∀ out ∈ sent, ∃ m : Message, m.isError = true ∧ out = .message m
  reply : o = .completed → ∀ out ∈ sent, ∃ responses : List Message,
    (responses.map Message.id).Perm (items.filterMap Item.answered) ∧ out = .reply responses
  killed_of : killed = true → o ≠ .completed

theorem ended_error {killed : Bool} {m : Message} {items : List Item} {o : Outcome}
    (hm : m.isError = true) (ho : o ≠ .completed) : Ended killed [.message m] items o where
  length_le := by simp
  error _ out hout := ⟨m, hm, List.mem_singleton.1 hout⟩
  reply h := absurd h ho
  killed_of _ := ho

/--
The stages of a batch.  Requests in `hand` were handed over and are not open any more;
their answers are just being delivered.
-/
inductive Stage (hand : List Pending) (c : Connection) (i : Nat) : Prop
  | fresh :
      c.enqueued[i]? = none → c.extantBatchProcessors i = none → c.outcomes i = none →
      c.killedBatches i = false → c.sentFor i = [] → openFor (hand ++ c.pending) i = [] →
      Stage hand c i
  | running (items : List Item) (b : Batch) :
      c.enqueued[i]? = some items →
      (c.extantBatchProcessors i).map BatchProcessor.core = some (b, false, c.killedBatches i) →
      c.outcomes i = none →
      Running c.isGood c.ignoreNewIncomingMessages (c.sentFor i) (openFor (hand ++ c.pending) i)
        items b →
      Stage hand c i
  | ended (items : List Item) (o : Outcome) :
      c.enqueued[i]? = some items → c.extantBatchProcessors i = none → c.outcomes i = some o →
      Ended (c.killedBatches i) (c.sentFor i) items o → Stage hand c i

def Inv (hand : List Pending) (c : Connection) : Prop := ∀ i, Stage hand c i

/-- Nothing changes for a batch but that the connection may go down. -/
structure Same (hand hand' : List Pending) (c c' : Connection) (i : Nat) : Prop where
  enqueued : c'.enqueued[i]? = c.enqueued[i]?
  killedBatches : c'.killedBatches i = c.killedBatches i
  outcomes : c'.outcomes i = c.outcomes i
  sentFor : c'.sentFor i = c.sentFor i
  core : (c'.extantBatchProcessors i).map BatchProcessor.core =
    (c.extantBatchProcessors i).map BatchProcessor.core
  good : c'.isGood = true → c.isGood = true
  ignoring : c.ignoreNewIncomingMessages = true → c'.ignoreNewIncomingMessages = true
  closed : openFor (hand ++ c.pending) i = [] → openFor (hand' ++ c'.pending) i = []
  opened : c'.ignoreNewIncomingMessages = false → (c.extantBatchProcessors i).isSome →
    (openFor (hand' ++ c'.pending) i).Perm (openFor (hand ++ c.pending) i)

theorem Quiet.same (h : Quiet c c') (hand : List Pending) (i : Nat) : Same hand hand c c' i where
  enqueued := by rw [h.enqueued]
  killedBatches := by rw [h.killedBatches]
  outcomes := by rw [h.outcomes]
  sentFor := h.sentFor i
  core := h.core i
  good := h.good
  ignoring := h.ignoring
  closed hi := by rwa [h.pending]
  opened _ _ := by rw [h.pending]

theorem Stage.same (h : Stage hand c i) (hs : Same hand hand' c c' i) : Stage hand' c' i := by
  cases h with
  | fresh henq hext hout hkill hsent hopen =>
      refine .fresh (hs.enqueued.trans henq) ?_ (hs.outcomes.trans hout)
        (hs.killedBatches.trans hkill) (hs.sentFor.trans hsent) (hs.closed hopen)
      have hcore := hs.core
      rw [hext] at hcore
      exact Option.map_eq_none_iff.1 hcore
  | running items b henq hext hout hrun =>
      have hsome : (c.extantBatchProcessors i).isSome := by
        have := congrArg Option.isSome hext
        simpa using this
      refine .running items b (hs.enqueued.trans henq) ?_ (hs.outcomes.trans hout)
        ⟨hrun.items_eq, hrun.nextItem_le, ?_, ?_, ?_⟩
      · rw [hs.core, hext, hs.killedBatches]
      · rw [hs.sentFor]
        rcases hrun.sent_of with hnil | ⟨hgood, hign, m, hm, hsent⟩
        · exact .inl hnil
        · refine .inr ⟨?_, hs.ignoring hign, m, hm, hsent⟩
          by_contra hne
          rw [hs.good (Bool.eq_true_of_not_eq_false hne)] at hgood
          exact Bool.noConfusion hgood
      · intro hign
        refine hrun.counted (Bool.eq_false_of_not_eq_true fun h => ?_)
        rw [hs.ignoring h] at hign
        exact Bool.noConfusion hign
      · intro hign
        refine ((hs.opened hign hsome).append_left _).trans
          (hrun.balanced (Bool.eq_false_of_not_eq_true fun h => ?_))
        rw [hs.ignoring h] at hign
        exact Bool.noConfusion hign
  | ended items o henq hext hout hend =>
      refine .ended items o (hs.enqueued.trans henq) ?_ (hs.outcomes.trans hout) ?_
      · have hcore := hs.core
        rw [hext] at hcore
        exact Option.map_eq_none_iff.1 hcore
      · rw [hs.killedBatches, hs.sentFor]
        exact hend

theorem Inv.quiet (h : Inv hand c) (hq : Quiet c c') : Inv hand c' :=
  fun i => (h i).same (hq.same hand i)

end Stage

/-! ## Delivering answers -/

section Deliver

variable {c c' : Connection} {hand hand' : List Pending} {b : Option Nat} {i : Nat} {id : MsgId}
  {p p' : BatchProcessor}

@[simp]
theorem openFor_append (ps qs : List Pending) (i : Nat) :
    openFor (ps ++ qs) i = openFor ps i ++ openFor qs i := by
  simp [openFor]

@[simp]
theorem openFor_nil (i : Nat) : openFor [] i = [] := rfl

@[simp]
theorem openFor_self (i : Nat) (id : MsgId) : openFor [⟨some i, id⟩] i = [id] := by
  simp [openFor]

theorem openFor_other (hb : b ≠ some i) (id : MsgId) : openFor [⟨b, id⟩] i = [] := by
  simp [openFor, hb]

theorem openFor_perm {ps qs : List Pending} (h : ps.Perm qs) (i : Nat) :
    (openFor ps i).Perm (openFor qs i) :=
  (h.filter _).map _

@[simp]
theorem doDisconnect_isGood (c : Connection) : c.doDisconnect.isGood = false := by
  unfold Connection.doDisconnect Connection.isGood
  split_ifs
  · rfl
  · rfl

@[simp]
theorem sentFor_doDisconnect (c : Connection) (i : Nat) :
    c.doDisconnect.sentFor i = c.sentFor i := rfl

theorem sentFor_write_self (c : Connection) (i : Nat) (out : Outgoing) :
    (c.write (some i) out).sentFor i = c.sentFor i ++ [out] := by
  simp [Connection.sentFor, Connection.write]

theorem same_write {out : Outgoing} (hb : b ≠ some i) : Same hand hand c (c.write b out) i where
  enqueued := rfl
  killedBatches := rfl
  outcomes := rfl
  sentFor := by simp [Connection.sentFor, Connection.write, hb]
  core := rfl
  good := fun h => h
  ignoring := fun h => h
  closed := fun h => h
  opened _ _ := .refl _

/-- A connection that goes down may lose what is being delivered. -/
theorem Inv.dropped (h : Inv hand c) (hign : c.ignoreNewIncomingMessages = true) : Inv [] c := by
  intro i
  refine (h i).same ⟨rfl, rfl, rfl, rfl, rfl, fun hg => hg, fun hi => hi, ?_, ?_⟩
  · intro hopen
    rw [openFor_append] at hopen
    simpa using (List.append_eq_nil_iff.1 hopen).2
  · intro hign'
    rw [hign] at hign'
    exact Bool.noConfusion hign'

/-- An answer that belongs to no batch that is processed is nobody's response. -/
theorem Inv.unclaimed (h : Inv [⟨b, id⟩] c)
    (hb : ∀ i, b = some i → c.extantBatchProcessors i = none) : Inv [] c := by
  intro i
  refine (h i).same ⟨rfl, rfl, rfl, rfl, rfl, fun hg => hg, fun hi => hi, ?_, ?_⟩
  · intro hopen
    rw [openFor_append] at hopen
    simpa using (List.append_eq_nil_iff.1 hopen).2
  · intro _ hsome
    have hne : b ≠ some i := by
      intro hbi
      rw [hb i hbi] at hsome
      exact Bool.noConfusion hsome
    rw [openFor_append, openFor_append, openFor_other hne, openFor_nil]

theorem Inv.running_of_get (h : Inv hand c) (hget : c.extantBatchProcessors i = some p) :
    ∃ items, c.enqueued[i]? = some items ∧ c.outcomes i = none ∧ p.done = false ∧
      p.killed = c.killedBatches i ∧
      Running c.isGood c.ignoreNewIncomingMessages (c.sentFor i) (openFor (hand ++ c.pending) i)
        items p.batch := by
  cases h i with
  | fresh _ hext => simp [hget] at hext
  | ended _ _ _ hext => simp [hget] at hext
  | running items b henq hext hout hrun =>
      rw [hget] at hext
      obtain ⟨rfl, hdone, hkilled⟩ :
          p.batch = b ∧ p.done = false ∧ p.killed = c.killedBatches i := by
        simpa [BatchProcessor.core] using hext
      exact ⟨items, henq, hout, hdone, hkilled, hrun⟩

/-- A processor that is put back with another batch. -/
theorem Inv.set (h : Inv hand c) (hget : c.extantBatchProcessors i = some p)
    (hdone : p'.done = p.done) (hkilled : p'.killed = p.killed)
    (hother : ∀ j, j ≠ i → openFor hand' j = openFor hand j)
    (hrun : ∀ good ignoring sent items,
      Running good ignoring sent (openFor (hand ++ c.pending) i) items p.batch →
      Running good ignoring sent (openFor (hand' ++ c.pending) i) items p'.batch) :
    Inv hand' (c.setProcessor i p') := by
  intro j
  by_cases hj : j = i
  · subst hj
    obtain ⟨items, henq, hout, hfalse, hk, hrunning⟩ := h.running_of_get hget
    refine .running items p'.batch henq ?_ hout (hrun _ _ _ _ hrunning)
    simp [Connection.setProcessor, BatchProcessor.core, hdone, hkilled, hfalse, hk]
  · refine (h j).same ⟨rfl, rfl, rfl, rfl, ?_, fun hg => hg, fun hi => hi, ?_, ?_⟩
    · simp [Connection.setProcessor, Function.update_of_ne hj]
    · intro hopen
      simpa [hother j hj, Connection.setProcessor] using hopen
    · intro _ _
      simp [hother j hj, Connection.setProcessor]

theorem Running.gotResponse {good ignoring : Bool} {sent : List Outgoing} {opened : List MsgId}
    {items : List Item} (m : Message)
    (h : Running good ignoring sent (m.id :: opened) items p.batch) :
    Running good ignoring sent opened items (p.gotResponse m).batch := by
  have hbatch : (p.gotResponse m).batch =
      { p.batch with
        unansweredRequests := p.batch.unansweredRequests - 1
        responses := p.batch.responses ++ [m] } := by
    unfold BatchProcessor.gotResponse
    dsimp only
    split_ifs
    · rfl
    · rfl
  rw [hbatch]
  refine ⟨h.items_eq, h.nextItem_le, h.sent_of, h.counted, fun hign => ?_⟩
  refine List.Perm.trans ?_ (h.balanced hign)
  simp only [List.map_append, List.map_cons, List.map_nil, List.append_assoc, List.singleton_append]
  exact .refl _

@[simp]
theorem BatchProcessor.gotResponse_done (p : BatchProcessor) (m : Message) :
    (p.gotResponse m).done = p.done := by
  unfold BatchProcessor.gotResponse
  dsimp only
  split_ifs
  · rfl
  · rfl

@[simp]
theorem BatchProcessor.gotResponse_killed (p : BatchProcessor) (m : Message) :
    (p.gotResponse m).killed = p.killed := by
  unfold BatchProcessor.gotResponse
  dsimp only
  split_ifs
  · rfl
  · rfl

/-- The filter keeps the responses for a batch, whether or not it still exists. -/
theorem inv_filtered {m : Message} (h : Inv [⟨b, m.id⟩] c) :
    Inv [] (if (c.batchResponseFilter b m).1 then (c.batchResponseFilter b m).2
      else (c.batchResponseFilter b m).2.write b (.message m)) := by
  cases b with
  | none =>
      have hgone : Inv [] c := h.unclaimed fun i hi => by simp at hi
      exact hgone.quiet (quiet_write_none c _)
  | some i =>
      cases hget : c.extantBatchProcessors i with
      | none =>
          simp only [Connection.batchResponseFilter, hget, if_true]
          refine h.unclaimed fun j hj => ?_
          obtain rfl := Option.some.inj hj
          exact hget
      | some p =>
          simp only [Connection.batchResponseFilter, hget, if_true]
          refine h.set hget (p.gotResponse_done m) (p.gotResponse_killed m) ?_ ?_
          · intro j hj
            exact (openFor_other (fun hij => hj (Option.some.inj hij).symm) _).symm
          · intro good ignoring sent items hrun
            rw [openFor_append, openFor_self] at hrun
            exact hrun.gotResponse m

theorem inv_sendResult {result : String} (h : Inv [⟨b, id⟩] c) :
    Inv [] (c.sendResult b id result) := by
  unfold Connection.sendResult
  split_ifs with hgood
  · exact inv_filtered h
  · exact (h.quiet (quiet_doDisconnect c)).dropped rfl

theorem inv_sendError {code : Int} {message : String} (h : Inv [⟨b, id⟩] c) :
    Inv [] (c.sendError b false code message b id) := by
  unfold Connection.sendError
  rw [if_neg Bool.false_ne_true]
  split_ifs with hgood
  · exact @inv_filtered c b (.error id code message) h
  · exact (h.quiet (quiet_doDisconnect c)).dropped rfl

/-- A handler that disconnects its client. -/
theorem inv_sendError_disc {code : Int} {message : String} (h : Inv [⟨b, id⟩] c)
    (hlive : ∀ i, b = some i → (c.extantBatchProcessors i).isSome) :
    Inv [] (c.sendError b true code message b id) := by
  unfold Connection.sendError
  rw [if_pos rfl]
  split_ifs with hgood
  · have hlost : Inv [⟨b, id⟩]
        (c.write b (.message (.error id code message))).doDisconnect := by
      intro j
      by_cases hb : b = some j
      · subst hb
        obtain ⟨p, hget⟩ := Option.isSome_iff_exists.1 (hlive j rfl)
        obtain ⟨items, henq, hout, hdone, hkilled, hrun⟩ := h.running_of_get hget
        refine .running items p.batch henq ?_ hout
          ⟨hrun.items_eq, hrun.nextItem_le, .inr ⟨doDisconnect_isGood _, rfl,
            .error id code message, rfl, ?_⟩,
            fun hign => Bool.noConfusion hign, fun hign => Bool.noConfusion hign⟩
        · simp [Connection.doDisconnect, Connection.write, hget, BatchProcessor.core, hdone,
            hkilled]
        · rw [sentFor_doDisconnect, sentFor_write_self, hrun.sent_nil hgood, List.nil_append]
      · exact ((h j).same (same_write hb)).same ((quiet_doDisconnect _).same _ j)
    exact hlost.dropped rfl
  · exact (h.quiet (quiet_doDisconnect c)).dropped rfl

theorem inv_answer (h : Inv [⟨b, id⟩] c)
    (hlive : ∀ i, b = some i → (c.extantBatchProcessors i).isSome) (a : Answer) :
    Inv [] (c.answer b id a) := by
  cases a with
  | result result => exact inv_sendResult h
  | error disconnect code message =>
      cases disconnect with
      | false => exact inv_sendError h
      | true => exact inv_sendError_disc h hlive

theorem Inv.pending (h : Inv hand c) {ps : List Pending}
    (hperm : (hand' ++ ps).Perm (hand ++ c.pending)) : Inv hand' { c with pending := ps } := by
  intro i
  refine (h i).same ⟨rfl, rfl, rfl, rfl, rfl, fun hg => hg, fun hi => hi, ?_, ?_⟩
  · intro hopen
    have hsame := openFor_perm hperm i
    rw [hopen] at hsame
    exact hsame.eq_nil
  · intro _ _
    exact openFor_perm hperm i

theorem inv_gotMessage {handling : Handling} (h : Inv [⟨b, id⟩] c)
    (hlive : ∀ i, b = some i → (c.extantBatchProcessors i).isSome) :
    Inv [] (c.gotMessage b id handling) := by
  have hquiet := quiet_submitRequests handling.bitcoindRequests c
  unfold Connection.gotMessage
  cases handling.answer with
  | none =>
      refine (h.quiet hquiet).pending ?_
      rw [List.nil_append]
      exact List.perm_append_comm
  | some a =>
      refine inv_answer (h.quiet hquiet) (fun i hi => ?_) a
      have hcore := congrArg Option.isSome (hquiet.core i)
      rw [Option.isSome_map, Option.isSome_map] at hcore
      rw [hcore]
      exact hlive i hi

/-- A handler that answers later. -/
theorem inv_respond {k : Nat} {req : Pending} {a : String ⊕ Int × String} (h : Inv [] c)
    (hk : c.pending[k]? = some req) : Inv [] (c.respond k req a) := by
  obtain ⟨hlt, hreq⟩ := List.getElem?_eq_some_iff.1 hk
  have hhand : Inv [⟨req.batchId, req.id⟩] { c with pending := c.pending.eraseIdx k } := by
    refine h.pending ?_
    have hpick := List.getElem_cons_eraseIdx_perm hlt
    rw [hreq] at hpick
    exact hpick
  unfold Connection.respond
  cases a with
  | inl result => exact inv_sendResult hhand
  | inr e => exact inv_sendError hhand

/-- The answer for a batch that does not exist any more. -/
theorem respond_sent {k : Nat} {req : Pending} {a : String ⊕ Int × String}
    (hreq : req.batchId = some i) (hext : c.extantBatchProcessors i = none) :
    (c.respond k req a).sent = c.sent := by
  unfold Connection.respond
  rw [hreq]
  cases a with
  | inl result =>
      simp only [Connection.answer, Connection.sendResult, Connection.batchResponseFilter, hext]
      split_ifs
      · rfl
      · rfl
  | inr e =>
      simp only [Connection.answer, Connection.sendError, Connection.batchResponseFilter, hext,
        Bool.false_eq_true, if_false]
      split_ifs
      · rfl
      · rfl

end Deliver

end Rpc
end Shulcrum
