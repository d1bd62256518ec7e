import Shulcrum.Controller.DownloadBlocks
import Shulcrum.Controller.Model
import Shulcrum.Lib.Invariant
import Shulcrum.Lib.TreeMap
import Shulcrum.Storage.History

/-!
# Putting a download together

The results of the download tasks reach the controller in any order.  They wait
in a map by height until it is their turn, and the storage gets them in the
order of their heights.

**Results.**
* `DLInv.put`: what one result does, whoever sent it.
* `block_download_reassembled`: every height of the range is asked for once and
  given to `addBlock` once, in ascending order, in every run of the tasks and the
  controller.
-/

namespace Shulcrum
namespace Controller

open Invariant Storage TreeMap

/-- The calls of `addBlock` for `n` heights from `base` on. -/
def addBlocks (base n : Nat) : List Action := (List.range' base n).map Action.addBlock

/-- What a complete download of the heights from `base` to `ht` does. -/
def completeDL (base ht : Nat) : List Action := addBlocks base (ht + 1 - base) ++ [.finishedDL]

theorem addBlocks_succ (base n : Nat) :
    addBlocks base (n + 1) = addBlocks base n ++ [.addBlock (base + n)] := by
  simp [addBlocks, List.range'_concat]

theorem addBlocks_prefix {base ht n : Nat} (hn : n ≤ ht + 1 - base) :
    addBlocks base n <+: completeDL base ht := by
  obtain ⟨k, hk⟩ := Nat.exists_eq_add_of_le hn
  refine ⟨addBlocks (base + n) k ++ [.finishedDL], ?_⟩
  rw [completeDL, hk, addBlocks, addBlocks, addBlocks, ← List.append_assoc, ← List.map_append,
    List.range'_append_1]

/-- The state machine waits for blocks. -/
structure Downloading (base ht : Nat) (sm : StateMachine) (trace : List Action) : Prop where
  state : sm.state = .downloadingBlocks
  endHeight : sm.endHeight = ht
  base_le : base ≤ sm.dlResultsHtNext
  le_ht : sm.dlResultsHtNext ≤ ht
  trace : trace = addBlocks base (sm.dlResultsHtNext - base)
  /-- A result waits under its height. -/
  results : ∀ (h : Nat) (r : VarDLTaskResult), sm.dlResults[h]? = some r →
    ∃ b : PreProcessedBlock, r = .ppb b ∧ b.height = h

/-- Where a download can be between two events of the controller. -/
inductive DLInv (base ht : Nat) (sm : StateMachine) (trace : List Action) : Prop
  | downloading : Downloading base ht sm trace → sm.dlResults[sm.dlResultsHtNext]? = none →
      DLInv base ht sm trace
  | finished : sm.state = .finishedDL → trace = completeDL base ht → DLInv base ht sm trace
  | aborted : sm.state = .retry ∨ sm.state = .failure → trace <+: completeDL base ht →
      DLInv base ht sm trace

section Loop

variable {cfg : Config} {base ht : Nat} {c c' : Sync} {trace acts : List Action}

/-- A height that was given to the storage or waits for it. -/
def Received (sm : StateMachine) (h : Nat) : Prop := h < sm.dlResultsHtNext ∨ h ∈ sm.dlResults

/-- The result whose turn it is leaves the map. -/
theorem Downloading.take {sm : StateMachine} (h : Downloading base ht sm trace)
    {r : VarDLTaskResult} (hget : sm.dlResults[sm.dlResultsHtNext]? = some r) :
    r.isRpa = false ∧ trace ++ [r.action] = addBlocks base (sm.dlResultsHtNext + 1 - base) := by
  obtain ⟨b, rfl, hb⟩ := h.results _ _ hget
  have hle := h.base_le
  have hsucc : sm.dlResultsHtNext + 1 - base = (sm.dlResultsHtNext - base) + 1 := by omega
  refine ⟨rfl, ?_⟩
  rw [hsucc, addBlocks_succ, ← h.trace, Nat.add_sub_cancel' hle, VarDLTaskResult.action, hb]

/-- The loop gives the results whose turn it is to the storage. -/
theorem Downloading.loop {fuel : Nat} (h : Downloading base ht c.sm trace)
    (hfuel : c.sm.dlResults.size ≤ fuel) (heq : downloadingLoop cfg fuel false c = (c', acts)) :
    DLInv base ht c'.sm (trace ++ acts) ∧
      (c'.sm.state = .downloadingBlocks → ∀ x, Received c.sm x → Received c'.sm x) := by
  induction fuel generalizing c c' trace acts with
  | zero =>
      cases heq
      have hempty : c.sm.dlResults = ∅ := Std.ExtTreeMap.eq_empty_iff_size_eq_zero.mpr (by omega)
      rw [List.append_nil]
      exact ⟨.downloading h (by simp [hempty]), fun _ x hx => hx⟩
  | succ fuel ih =>
      rw [downloadingLoop] at heq
      split at heq
      · next hnone =>
          cases heq
          rw [List.append_nil]
          exact ⟨.downloading h hnone, fun _ x hx => hx⟩
      · next r hget =>
          obtain ⟨hblock, htrace⟩ := h.take hget
          have hle := h.base_le
          have hht := h.le_ht
          simp only [hblock, Bool.or_false, Bool.false_eq_true, if_false] at heq
          split at heq
          · next c₁ hhandled =>
              cases heq
              rcases handleResult_sm hhandled with ⟨-, hok⟩ | ⟨-, st, hst, hsm⟩
              · cases hok
              · refine ⟨.aborted (by rw [hsm]; exact hst) ?_, ?_⟩
                · rw [htrace]
                  exact addBlocks_prefix (by omega)
                · intro hstate
                  rw [hsm] at hstate
                  rcases hst with rfl | rfl <;> cases hstate
          · next c₁ hhandled =>
              rcases handleResult_sm hhandled with ⟨hsm, -⟩ | ⟨hok, -⟩
              swap
              · cases hok
              simp only at hsm
              have hend : c₁.sm.endHeight = ht := by
                rw [hsm]
                exact h.endHeight
              have hnext : c₁.sm.dlResultsHtNext = c.sm.dlResultsHtNext + 1 := by rw [hsm]
              split at heq
              · next hlast =>
                  cases heq
                  have hall : c.sm.dlResultsHtNext = ht := by omega
                  refine ⟨.finished rfl ?_, fun hstate => absurd hstate (by simp)⟩
                  rw [List.append_cons, htrace, hall]
                  rfl
              · next hmore =>
                  have hdl : Downloading base ht c₁.sm (trace ++ [r.action]) := by
                    refine ⟨?_, hend, by omega, by omega, by rw [htrace, hnext], ?_⟩
                    · rw [hsm]
                      exact h.state
                    · intro x r' hx
                      rw [hsm, get_erase] at hx
                      split_ifs at hx
                      exact h.results x r' hx
                  have hsize : c₁.sm.dlResults.size ≤ fuel := by
                    have hmem : c.sm.dlResultsHtNext ∈ c.sm.dlResults :=
                      mem_iff_getElem?.mpr ⟨r, hget⟩
                    rw [hsm, Std.ExtTreeMap.size_erase,
                      if_pos (Std.ExtTreeMap.contains_iff_mem.mpr hmem)]
                    omega
                  obtain ⟨hinv, hkeep⟩ := ih hdl hsize rfl
                  cases heq
                  refine ⟨by rwa [List.append_cons], ?_⟩
                  intro hstate x hx
                  refine hkeep hstate x ?_
                  rcases hx with hlt | hmem
                  · exact .inl (by omega)
                  · by_cases hx : x = c.sm.dlResultsHtNext
                    · exact .inl (by omega)
                    · refine .inr ?_
                      rw [hsm, Std.ExtTreeMap.mem_erase]
                      exact ⟨by simpa using fun h => hx h.symm, hmem⟩

/-- A result for the running download, or one that is ignored. -/
theorem DLInv.put (cfg : Config) (c : Sync) (taskDeleted : Bool) (b : PreProcessedBlock)
    (h : DLInv base ht c.sm trace) :
    DLInv base ht (onPutBlock cfg c taskDeleted b).1.sm
        (trace ++ (onPutBlock cfg c taskDeleted b).2) ∧
      ((onPutBlock cfg c taskDeleted b).1.sm.state = .downloadingBlocks →
        c.sm.state = .downloadingBlocks ∧
        (∀ x, Received c.sm x → Received (onPutBlock cfg c taskDeleted b).1.sm x) ∧
        (taskDeleted = false → Received (onPutBlock cfg c taskDeleted b).1.sm b.height)) := by
  cases heq : onPutBlock cfg c taskDeleted b with
  | mk c' acts =>
  rw [onPutBlock, onPutCommon] at heq
  split_ifs at heq with hdead hstate
  · cases heq
    refine ⟨by rwa [List.append_nil], fun hst => ⟨hst, fun x hx => hx, fun hdel => ?_⟩⟩
    rcases hdead with hdead | hdead
    · exact absurd (hdel.symm.trans hdead) (by simp)
    · exact absurd (hst.symm.trans hdead) (by simp)
  · cases heq
    exact ⟨by rwa [List.append_nil], fun hst => absurd hst hstate⟩
  · rw [ne_eq, not_not] at hstate
    cases h with
    | finished hfin _ => exact absurd (hstate.symm.trans hfin) (by simp)
    | aborted habort _ => rcases habort with h | h <;> exact absurd (hstate.symm.trans h) (by simp)
    | downloading hdl hnone =>
        have hdl' : Downloading base ht { c.sm with
            dlResults := c.sm.dlResults.insert b.height (.ppb b) } trace := by
          refine ⟨hstate, hdl.endHeight, hdl.base_le, hdl.le_ht, hdl.trace, ?_⟩
          intro x r hx
          rw [get_insert] at hx
          split_ifs at hx with hkey
          · exact ⟨b, (Option.some.inj hx).symm, hkey⟩
          · exact hdl.results x r hx
        obtain ⟨hinv, hkeep⟩ := hdl'.loop le_rfl heq
        refine ⟨hinv, fun hst => ⟨hstate, fun x hx => hkeep hst x ?_,
          fun _ => hkeep hst _ (.inr ?_)⟩⟩
        · refine hx.imp_right fun hmem => ?_
          exact Std.ExtTreeMap.mem_insert.mpr (.inr hmem)
        · exact Std.ExtTreeMap.mem_insert_self

/-- A result of the other kind of download changes nothing. -/
theorem DLInv.putRpa (h : DLInv base ht c.sm trace) {taskDeleted : Bool} {romd : RpaOnlyModeData} :
    onPutRpaIndex cfg c taskDeleted romd = (c, []) := by
  have hne : c.sm.state ≠ .downloadingBlocksRPA := by
    cases h with
    | downloading hdl _ => simp [hdl.state]
    | finished hfin _ => simp [hfin]
    | aborted habort _ => rcases habort with h | h <;> simp [h]
  rw [onPutRpaIndex, onPutCommon]
  split_ifs <;> rfl

/-- A call of `process` while blocks are being downloaded finds nothing to do. -/
theorem DLInv.process (h : DLInv base ht c.sm trace) (hstate : c.sm.state = .downloadingBlocks) :
    processDownloadingBlocks cfg c = (c, []) := by
  cases h with
  | finished hfin _ => exact absurd (hstate.symm.trans hfin) (by simp)
  | aborted habort _ => rcases habort with h | h <;> exact absurd (hstate.symm.trans h) (by simp)
  | downloading hdl hnone =>
      rw [processDownloadingBlocks]
      cases c.sm.dlResults.size with
      | zero => rfl
      | succ n => rw [downloadingLoop, hnone]

end Loop

/-! ## The tasks and the controller -/

/-- The tasks of a download, the results on their way to the controller, and the controller. -/
structure World where
  tasks : List TaskRun
  /-- Signals `putBlock` that were not delivered yet, with the number of their task. -/
  inbox : List (Nat × PreProcessedBlock) := []
  /-- Tasks that were removed. -/
  deleted : List Nat := []
  storage : State
  /-- There is none once the download is over. -/
  sm : Option StateMachine
  /-- What the controller did. -/
  trace : List Action := []
  /-- The download was given up: a task or a call of `addBlock` failed. -/
  aborted : Bool := false

/-- `Controller::process` in the state `GetBlocks`, for the heights from `base` to `ht`. -/
def startDL (base ht dlConcurrency nClients : Nat) (s : State) : World :=
  let nTasks := min (ht + 1 - base) dlConcurrency
  { tasks := (List.range nTasks).map fun i =>
      { task := DownloadBlocksTask.make (base + i) ht nTasks nClients }
    storage := s
    sm := some
      { state := .downloadingBlocks
        ht := ht
        dlResultsHtNext := base
        startheight := base
        endHeight := ht } }

namespace World

/-- The controller after a handler ran. -/
def after (w : World) (res : Sync × List Action) : World :=
  { w with
    storage := res.1.storage
    sm := some res.1.sm
    trace := w.trace ++ res.2
    aborted := w.aborted || decide (res.1.sm.state = .retry ∨ res.1.sm.state = .failure) }

/-- A handler that needs a state machine. -/
def handle (w : World) (f : Sync → Sync × List Action) : World :=
  match w.sm with
  | none => w
  | some sm => w.after (f { storage := w.storage, sm := sm })

/-- `Controller::process` in the states of a download. -/
def process (cfg : Config) (w : World) : World :=
  match w.sm with
  | none => w
  | some sm =>
      if sm.state = .downloadingBlocks then
        w.after (processDownloadingBlocks cfg { storage := w.storage, sm := sm })
      else { w with sm := none }

end World

/-- The steps of a download.  Results from removed tasks, from tasks of an earlier download and
from downloads of the other kind arrive at any time, and a task may fail at any time. -/
inductive DLStep (cfg : Config) : World → World → Prop
  | task {w : World} {i : Nat} {t t' : TaskRun} {e : TaskRun.Event} :
      w.tasks[i]? = some t → t.apply e = some t' → (∀ bnum, e ≠ .answer bnum .block) →
      DLStep cfg w { w with tasks := w.tasks.set i t' }
  | block {w : World} {i bnum : Nat} {t t' : TaskRun} {b : PreProcessedBlock} :
      w.tasks[i]? = some t → t.apply (.answer bnum .block) = some t' → b.height = bnum →
      DLStep cfg w { w with tasks := w.tasks.set i t', inbox := (i, b) :: w.inbox }
  | deliver {w : World} {i : Nat} {b : PreProcessedBlock} {l₁ l₂ : List (Nat × PreProcessedBlock)} :
      w.inbox = l₁ ++ (i, b) :: l₂ →
      DLStep cfg w
        ({ w with inbox := l₁ ++ l₂ }.handle fun c => onPutBlock cfg c (decide (i ∈ w.deleted)) b)
  | stale {w : World} (taskDeleted : Bool) (b : PreProcessedBlock) :
      DLStep cfg w (w.handle fun c => onPutBlock cfg c taskDeleted b)
  | rpa {w : World} (taskDeleted : Bool) (romd : RpaOnlyModeData) :
      DLStep cfg w (w.handle fun c => onPutRpaIndex cfg c taskDeleted romd)
  | errored {w : World} : DLStep cfg w (w.handle fun c => (genericTaskErrored c, []))
  /-- The signals of a task are delivered before it is removed. -/
  | rmTask {w : World} {i : Nat} {t : TaskRun} :
      w.tasks[i]? = some t → t.status ≠ .running → (∀ b, (i, b) ∉ w.inbox) →
      DLStep cfg w { w with deleted := i :: w.deleted }
  | process {w : World} : DLStep cfg w (w.process cfg)

/-- Nothing is left to do for the tasks, and no result is on its way. -/
def World.Quiet (w : World) : Prop := (∀ t ∈ w.tasks, t.Quiet) ∧ w.inbox = []

/-- What every run of a download keeps. -/
structure WorldInv (base ht nTasks : Nat) (w : World) : Prop where
  length : w.tasks.length = nTasks
  accounted : ∀ i t, w.tasks[i]? = some t → Accounted (base + i) ht nTasks [] t
  /-- A removed task sends nothing any more. -/
  removed : ∀ i ∈ w.deleted, (∀ b, (i, b) ∉ w.inbox) ∧
    ∀ t, w.tasks[i]? = some t → t.status ≠ .running
  trace : w.trace <+: completeDL base ht
  sm : ∀ sm, w.sm = some sm → DLInv base ht sm w.trace
  alive : w.aborted = false →
    (∀ sm, w.sm = some sm → sm.state ≠ .retry ∧ sm.state ≠ .failure) ∧
      (w.sm = none → w.trace = completeDL base ht)
  /-- No answer is lost. -/
  answered : ∀ sm, w.sm = some sm → sm.state = .downloadingBlocks → ∀ i t, w.tasks[i]? = some t →
    ∀ h ∈ t.answered, Received sm h ∨ ∃ b, (i, b) ∈ w.inbox ∧ b.height = h

section Run

variable {cfg : Config} {base ht nTasks : Nat} {w w' : World}

theorem DLInv.trace_prefix {sm : StateMachine} {trace : List Action} (h : DLInv base ht sm trace) :
    trace <+: completeDL base ht := by
  cases h with
  | downloading hdl _ =>
      have hle := hdl.base_le
      have hht := hdl.le_ht
      rw [hdl.trace]
      exact addBlocks_prefix (by omega)
  | finished _ htrace =>
      rw [htrace]
  | aborted _ hprefix => exact hprefix

/-- A handler that keeps the invariant of the state machine and loses no result. -/
theorem WorldInv.after (h : WorldInv base ht nTasks w) {inbox : List (Nat × PreProcessedBlock)}
    (hsub : ∀ e ∈ inbox, e ∈ w.inbox) {res : Sync × List Action}
    (hdl : DLInv base ht res.1.sm (w.trace ++ res.2))
    (hanswered : res.1.sm.state = .downloadingBlocks → ∀ i t, w.tasks[i]? = some t →
      ∀ x ∈ t.answered, Received res.1.sm x ∨ ∃ b, (i, b) ∈ inbox ∧ b.height = x) :
    WorldInv base ht nTasks ({ w with inbox := inbox }.after res) := by
  refine ⟨h.length, h.accounted, ?_, hdl.trace_prefix, ?_, ?_, ?_⟩
  · intro i hi
    exact ⟨fun b hb => (h.removed i hi).1 b (hsub _ hb), (h.removed i hi).2⟩
  · intro sm' hsm'
    cases hsm'
    exact hdl
  · intro halive
    rw [World.after, Bool.or_eq_false_iff, decide_eq_false_iff_not, not_or] at halive
    refine ⟨?_, fun hnone => absurd hnone (by simp [World.after])⟩
    intro sm' hsm'
    cases hsm'
    exact halive.2
  · intro sm' hsm' hstate
    cases hsm'
    exact hanswered hstate

theorem WorldInv.handle (h : WorldInv base ht nTasks w) {f : Sync → Sync × List Action}
    (hf : ∀ c : Sync, DLInv base ht c.sm w.trace → DLInv base ht (f c).1.sm (w.trace ++ (f c).2) ∧
      ((f c).1.sm.state = .downloadingBlocks →
        c.sm.state = .downloadingBlocks ∧ ∀ x, Received c.sm x → Received (f c).1.sm x)) :
    WorldInv base ht nTasks (w.handle f) := by
  rw [World.handle]
  split
  · exact h
  · next sm hsm =>
      obtain ⟨hdl, hkeep⟩ := hf { storage := w.storage, sm := sm } (h.sm sm hsm)
      refine h.after (fun e he => he) hdl ?_
      intro hstate i t hget x hx
      obtain ⟨hold, hrec⟩ := hkeep hstate
      exact (h.answered sm hsm hold i t hget x hx).imp_left (hrec x)

/-- An event of a task that sends no block. -/
theorem WorldInv.task (h : WorldInv base ht nTasks w) {i : Nat} {t t' : TaskRun}
    (hget : w.tasks[i]? = some t) (hacc : Accounted (base + i) ht nTasks [] t')
    (hrun : t.status = .running) (hanswered : t'.answered = t.answered) :
    WorldInv base ht nTasks { w with tasks := w.tasks.set i t' } := by
  have hlt := (List.getElem?_eq_some_iff.mp hget).1
  refine ⟨by rw [List.length_set]; exact h.length, ?_, ?_, h.trace, h.sm, h.alive, ?_⟩
  · intro j u hu
    rw [List.getElem?_set] at hu
    split_ifs at hu with hij
    · cases hu
      exact hij ▸ hacc
    · exact h.accounted j u hu
  · intro j hj
    refine ⟨(h.removed j hj).1, fun u hu => ?_⟩
    rw [List.getElem?_set] at hu
    split_ifs at hu with hij
    · subst hij
      exact absurd hrun ((h.removed i hj).2 t hget)
    · exact (h.removed j hj).2 u hu
  · intro sm hsm hstate j u hu x hx
    rw [List.getElem?_set] at hu
    split_ifs at hu with hij
    · cases hu
      subst hij
      rw [hanswered] at hx
      exact h.answered sm hsm hstate i t hget x hx
    · exact h.answered sm hsm hstate j u hu x hx

/-- A block that arrives is on its way to the controller. -/
theorem WorldInv.block (h : WorldInv base ht nTasks w) {i : Nat} {t t' : TaskRun}
    {b : PreProcessedBlock} (hget : w.tasks[i]? = some t)
    (hacc : Accounted (base + i) ht nTasks [] t') (hrun : t.status = .running)
    (hanswered : t'.answered = b.height :: t.answered) :
    WorldInv base ht nTasks
      { w with tasks := w.tasks.set i t', inbox := (i, b) :: w.inbox } := by
  have hlt := (List.getElem?_eq_some_iff.mp hget).1
  have hlive : i ∉ w.deleted := fun hi => (h.removed i hi).2 t hget hrun
  refine ⟨by rw [List.length_set]; exact h.length, ?_, ?_, h.trace, h.sm, h.alive, ?_⟩
  · intro j u hu
    rw [List.getElem?_set] at hu
    split_ifs at hu with hij
    · cases hu
      exact hij ▸ hacc
    · exact h.accounted j u hu
  · intro j hj
    have hij : i ≠ j := fun hij => hlive (hij ▸ hj)
    refine ⟨fun b' hb' => ?_, fun u hu => ?_⟩
    · rcases List.mem_cons.mp hb' with heq | hmem
      · exact hij (congrArg Prod.fst heq).symm
      · exact (h.removed j hj).1 b' hmem
    · rw [List.getElem?_set_ne hij] at hu
      exact (h.removed j hj).2 u hu
  · intro sm hsm hstate j u hu x hx
    rw [List.getElem?_set] at hu
    split_ifs at hu with hij
    · cases hu
      subst hij
      rw [hanswered] at hx
      rcases List.mem_cons.mp hx with rfl | hx
      · exact .inr ⟨b, List.mem_cons_self, rfl⟩
      · exact (h.answered sm hsm hstate i t hget x hx).imp_right
          fun ⟨b', hb', heq⟩ => ⟨b', List.mem_cons_of_mem _ hb', heq⟩
    · exact (h.answered sm hsm hstate j u hu x hx).imp_right
        fun ⟨b', hb', heq⟩ => ⟨b', List.mem_cons_of_mem _ hb', heq⟩

/-- A delivered block is in the map or was given to the storage. -/
theorem WorldInv.deliver (h : WorldInv base ht nTasks w) {i : Nat} {b : PreProcessedBlock}
    {l₁ l₂ : List (Nat × PreProcessedBlock)} (hinbox : w.inbox = l₁ ++ (i, b) :: l₂) :
    WorldInv base ht nTasks ({ w with inbox := l₁ ++ l₂ }.handle fun c =>
      onPutBlock cfg c (decide (i ∈ w.deleted)) b) := by
  have hmem : (i, b) ∈ w.inbox := by simp [hinbox]
  have hlive : i ∉ w.deleted := fun hi => (h.removed i hi).1 b hmem
  have hsub : ∀ e ∈ l₁ ++ l₂, e ∈ w.inbox := by
    intro e he
    rw [hinbox]
    simp only [List.mem_append, List.mem_cons] at he ⊢
    exact he.imp_right .inr
  rw [World.handle]
  split
  · next hsm =>
      exact ⟨h.length, h.accounted,
        fun j hj => ⟨fun b' hb' => (h.removed j hj).1 b' (hsub _ hb'), (h.removed j hj).2⟩,
        h.trace, h.sm, h.alive, fun sm hsm' => absurd (hsm.symm.trans hsm') (by simp)⟩
  · next sm hsm =>
      obtain ⟨hdl, hkeep⟩ := DLInv.put cfg { storage := w.storage, sm := sm } false b (h.sm sm hsm)
      rw [decide_eq_false hlive]
      refine h.after hsub hdl ?_
      intro hstate j u hu x hx
      obtain ⟨hold, hrec, hnew⟩ := hkeep hstate
      rcases h.answered sm hsm hold j u hu x hx with hx | ⟨b', hb', rfl⟩
      · exact .inl (hrec x hx)
      · rw [hinbox, List.mem_append, List.mem_cons] at hb'
        rcases hb' with hb' | heq | hb'
        · exact .inr ⟨b', List.mem_append_left _ hb', rfl⟩
        · cases heq
          exact .inl (hnew rfl)
        · exact .inr ⟨b', List.mem_append_right _ hb', rfl⟩

theorem WorldInv.process (h : WorldInv base ht nTasks w) :
    WorldInv base ht nTasks (w.process cfg) := by
  rw [World.process]
  split
  · exact h
  · next sm hsm =>
      have hdl := h.sm sm hsm
      split_ifs with hstate
      · have hnothing : processDownloadingBlocks cfg { storage := w.storage, sm := sm } =
            ({ storage := w.storage, sm := sm }, []) := hdl.process hstate
        rw [hnothing]
        refine h.after (fun e he => he) (by rwa [List.append_nil]) ?_
        exact fun _ => h.answered sm hsm hstate
      · have hgone : ∀ {P : StateMachine → Prop} (sm' : StateMachine), none = some sm' → P sm' := by
          intro P sm' hsm'
          cases hsm'
        refine ⟨h.length, h.accounted, h.removed, h.trace, hgone, ?_, hgone⟩
        intro halive
        refine ⟨hgone, fun _ => ?_⟩
        obtain ⟨hretry, hfailure⟩ := (h.alive halive).1 sm hsm
        cases hdl with
        | downloading hdown _ => exact absurd hdown.state hstate
        | finished _ htrace => exact htrace
        | aborted habort _ => exact absurd habort (not_or.mpr ⟨hretry, hfailure⟩)

/-- What an event does to the answered heights. -/
theorem apply_answered {t t' : TaskRun} {e : TaskRun.Event} (heq : t.apply e = some t') :
    t.status = .running ∧
      ((∀ bnum, e ≠ .answer bnum .block) → t'.answered = t.answered) ∧
      ∀ bnum, e = .answer bnum .block → t'.answered = bnum :: t.answered := by
  cases e with
  | process throttle =>
      rw [TaskRun.apply] at heq
      split_ifs at heq with hcond
      cases heq
      refine ⟨hcond.1, fun _ => ?_, fun bnum he => by cases he⟩
      rw [TaskRun.process]
      split_ifs
      · rfl
      · rfl
      · rfl
      · cases throttle <;> rfl
  | timer bnum throttle =>
      rw [TaskRun.apply] at heq
      split_ifs at heq with hcond
      cases heq
      refine ⟨hcond.1, fun _ => ?_, fun bnum he => by cases he⟩
      cases throttle <;> rfl
  | answer bnum reply =>
      rw [TaskRun.apply] at heq
      split_ifs at heq with hcond
      cases heq
      refine ⟨hcond.1, fun hno => ?_, ?_⟩
      · cases reply with
        | block => exact absurd rfl (hno bnum)
        | invalidHash => rfl
        | badSize => rfl
        | hashMismatch => rfl
      · rintro _ he
        cases he
        rw [TaskRun.answer, TaskRun.gotBlock]
        split_ifs <;> rfl

theorem WorldInv.step (h : WorldInv base ht nTasks w) (hpos : 0 < nTasks)
    (hnum : base + nTasks ≤ ht + 1) (hfit : ht ≤ intMax) (hstep : DLStep cfg w w') :
    WorldInv base ht nTasks w' := by
  have haccounted : ∀ {i : Nat} {t t' : TaskRun} {e : TaskRun.Event}, w.tasks[i]? = some t →
      t.apply e = some t' → Accounted (base + i) ht nTasks [] t' := by
    intro i t t' e hget heq
    have hlt := (List.getElem?_eq_some_iff.mp hget).1
    have hlen := h.length
    simp only [intMax] at hfit
    exact (h.accounted i t hget).apply hpos (by omega) (by omega) heq
  cases hstep with
  | task hget heq hno =>
      obtain ⟨hrun, hsame, -⟩ := apply_answered heq
      exact h.task hget (haccounted hget heq) hrun (hsame hno)
  | block hget heq hheight =>
      obtain ⟨hrun, -, hnew⟩ := apply_answered heq
      exact h.block hget (haccounted hget heq) hrun (by rw [hnew _ rfl, hheight])
  | deliver hinbox => exact h.deliver hinbox
  | stale taskDeleted b =>
      refine h.handle fun c hc => ?_
      obtain ⟨hdl, hkeep⟩ := DLInv.put cfg c taskDeleted b hc
      exact ⟨hdl, fun hstate => ⟨(hkeep hstate).1, (hkeep hstate).2.1⟩⟩
  | rpa taskDeleted romd =>
      refine h.handle fun c hc => ?_
      have hsame : onPutRpaIndex cfg c taskDeleted romd = (c, []) := hc.putRpa
      simp only [hsame, List.append_nil]
      exact ⟨hc, fun hstate => ⟨hstate, fun x hx => hx⟩⟩
  | errored =>
      refine h.handle fun c hc => ?_
      rw [List.append_nil]
      exact ⟨.aborted (.inr rfl) hc.trace_prefix, fun hstate => absurd hstate (by
        simp [genericTaskErrored])⟩
  | rmTask hget hstatus hinbox =>
      refine ⟨h.length, h.accounted, ?_, h.trace, h.sm, h.alive, h.answered⟩
      intro j hj
      rcases List.mem_cons.mp hj with rfl | hj
      · refine ⟨hinbox, fun u hu => ?_⟩
        rw [hget] at hu
        cases hu
        exact hstatus
      · exact h.removed j hj
  | process => exact h.process

theorem worldInv_start (hle : base ≤ ht) (hht : ht ≤ intMax)
    (dlConcurrency nClients : Nat) (s : State) :
    WorldInv base ht (min (ht + 1 - base) dlConcurrency)
      (startDL base ht dlConcurrency nClients s) := by
  simp only [intMax] at hht
  refine ⟨by simp [startDL], ?_, by simp [startDL], List.nil_prefix, ?_, ?_, ?_⟩
  · intro i t hget
    simp only [startDL, List.getElem?_map] at hget
    obtain ⟨j, hj, rfl⟩ := Option.map_eq_some_iff.mp hget
    have hlt := (List.getElem?_eq_some_iff.mp hj).1
    rw [List.length_range] at hlt
    rw [List.getElem?_range hlt] at hj
    cases hj
    exact accounted_make (by omega) (by omega) nClients
  · intro sm hsm
    cases hsm
    refine .downloading ⟨rfl, rfl, le_rfl, hle, ?_, fun h r hget => ?_⟩ (by simp)
    · simp [startDL, addBlocks]
    · simp at hget
  · intro _
    refine ⟨fun sm hsm => ?_, fun hnone => by cases hnone⟩
    cases hsm
    exact ⟨by simp, by simp⟩
  · intro sm _ _ i t hget x hx
    simp only [startDL, List.getElem?_map] at hget
    obtain ⟨j, -, rfl⟩ := Option.map_eq_some_iff.mp hget
    cases hx

/-- Lists that are related one by one are related when they are put together. -/
theorem flatMap_rel {R : List Nat → List Nat → Prop} (hnil : R [] [])
    (happend : ∀ {a b c d}, R a b → R c d → R (a ++ c) (b ++ d)) {f : Nat → List Nat} (k : Nat)
    (l : List TaskRun) (g : TaskRun → List Nat)
    (h : ∀ i t, l[i]? = some t → R (g t) (f (k + i))) :
    R (l.flatMap g) ((List.range' k l.length).flatMap f) := by
  induction l generalizing k with
  | nil => exact hnil
  | cons t l ih =>
      rw [List.length_cons, List.range'_succ, List.flatMap_cons, List.flatMap_cons]
      refine happend (h 0 t rfl) (ih (k + 1) fun i u hu => ?_)
      have hi := h (i + 1) u hu
      rwa [Nat.add_comm i 1, ← Nat.add_assoc] at hi

/-- Task `i` owns its strided heights. -/
theorem WorldInv.owned_perm (h : WorldInv base ht nTasks w) (hnum : base + nTasks ≤ ht + 1)
    {i : Nat} {t : TaskRun} (hget : w.tasks[i]? = some t) :
    (strided (base + i) nTasks (strideCount (base + i) ht nTasks)).Perm
      (owned base (ht + 1 - base) nTasks i) := by
  have hlt := (List.getElem?_eq_some_iff.mp hget).1
  have hlen := h.length
  have hlast : base + (ht + 1 - base) - 1 = ht := by omega
  have hperm : (strided (base + i) nTasks
      (strideCount (base + i) (base + (ht + 1 - base) - 1) nTasks)).Perm
      (owned base (ht + 1 - base) nTasks i) := strided_perm_owned (by omega) (by omega)
  rwa [hlast] at hperm

/-- All requests together, and the heights of the range. -/
theorem WorldInv.requested_subperm (h : WorldInv base ht nTasks w) (hpos : 0 < nTasks)
    (hnum : base + nTasks ≤ ht + 1) :
    (w.tasks.flatMap TaskRun.requested).Subperm (List.range' base (ht + 1 - base)) := by
  have hsub := flatMap_rel (R := List.Subperm) (.refl []) List.Subperm.append 0 w.tasks
    TaskRun.requested (f := owned base (ht + 1 - base) nTasks) fun i t hget => by
      rw [Nat.zero_add]
      exact (h.accounted i t hget).requested_subperm.trans (h.owned_perm hnum hget).subperm
  rw [h.length, ← List.range_eq_range'] at hsub
  exact hsub.trans (flatMap_owned_perm hpos).subperm

/-- A download that is not given up and has nothing left to do is complete. -/
theorem WorldInv.of_quiet (h : WorldInv base ht nTasks w) (hpos : 0 < nTasks)
    (hnum : base + nTasks ≤ ht + 1) (hquiet : w.Quiet)
    (hok : ∀ t ∈ w.tasks, ∀ msg, t.status ≠ .errored msg) (halive : w.aborted = false) :
    (w.tasks.flatMap TaskRun.requested).Perm (List.range' base (ht + 1 - base)) ∧
      w.trace = completeDL base ht := by
  obtain ⟨htasks, hinbox⟩ := hquiet
  have hall : ∀ (i : Nat) (t : TaskRun), w.tasks[i]? = some t →
      t.requested.Perm (owned base (ht + 1 - base) nTasks i) ∧
        t.answered.Perm (owned base (ht + 1 - base) nTasks i) := by
    intro i t hget
    have hmem := List.mem_of_getElem? hget
    obtain ⟨hreq, hans⟩ := (h.accounted i t hget).of_quiet (htasks t hmem) (hok t hmem)
    exact ⟨hreq.trans (h.owned_perm hnum hget), hans.trans (h.owned_perm hnum hget)⟩
  constructor
  · have hperm := flatMap_rel (R := List.Perm) .nil List.Perm.append 0 w.tasks TaskRun.requested
      (f := owned base (ht + 1 - base) nTasks) fun i t hget => by
        rw [Nat.zero_add]
        exact (hall i t hget).1
    rw [h.length, ← List.range_eq_range'] at hperm
    exact hperm.trans (flatMap_owned_perm hpos)
  · obtain ⟨hstates, hnone⟩ := h.alive halive
    cases hsm : w.sm with
    | none => exact hnone hsm
    | some sm =>
        cases h.sm sm hsm with
        | finished _ htrace => exact htrace
        | aborted habort _ => exact absurd habort (not_or.mpr (hstates sm hsm))
        | downloading hdl hmiss =>
            -- the height whose turn it is was answered, and nothing is on its way
            exfalso
            have hbase := hdl.base_le
            have hle := hdl.le_ht
            have hi : (sm.dlResultsHtNext - base) % nTasks < w.tasks.length := by
              rw [h.length]
              exact Nat.mod_lt _ hpos
            obtain ⟨t, hget⟩ : ∃ t, w.tasks[(sm.dlResultsHtNext - base) % nTasks]? = some t :=
              ⟨_, List.getElem?_eq_getElem hi⟩
            have hown := (hall _ t hget).2.mem_iff.mpr
              (mem_owned.mpr ⟨hbase, by omega, rfl⟩)
            rcases h.answered sm hsm hdl.state _ t hget _ hown with (hlt | hin) | ⟨b, hb, -⟩
            · omega
            · exact not_mem_iff_getElem?.mpr hmiss hin
            · rw [hinbox] at hb
              cases hb

/--
The heights from `base` to `ht` are downloaded by any number of tasks.  In
every run of the tasks and the controller, with stale results and failures at
any time: a task expects as many blocks as it owns heights, no height is asked
for twice, and the controller gives the heights to `addBlock` one after another
in ascending order, each once, and then enters `FinishedDL`.  A run that nobody
gives up does all of this once nothing is left to do.
-/
theorem block_download_reassembled {dlConcurrency nClients : Nat} {s : State} (hle : base ≤ ht)
    (hht : ht ≤ intMax) (hconc : 0 < dlConcurrency)
    (h : Reachable (fun w => w = startDL base ht dlConcurrency nClients s) (DLStep cfg) w) :
    (∀ i t, w.tasks[i]? = some t → t.task.expectedCt =
      (owned base (ht + 1 - base) (min (ht + 1 - base) dlConcurrency) i).length) ∧
    (w.tasks.flatMap TaskRun.requested).Nodup ∧
    (∀ x ∈ w.tasks.flatMap TaskRun.requested, base ≤ x ∧ x ≤ ht) ∧
    w.trace <+: completeDL base ht ∧
    (∀ sm, w.sm = some sm → sm.state = .finishedDL → w.trace = completeDL base ht) ∧
    (w.Quiet → (∀ t ∈ w.tasks, ∀ msg, t.status ≠ .errored msg) → w.aborted = false →
      (w.tasks.flatMap TaskRun.requested).Perm (List.range' base (ht + 1 - base)) ∧
        w.trace = completeDL base ht) := by
  have hpos : 0 < min (ht + 1 - base) dlConcurrency := by omega
  have hnum : base + min (ht + 1 - base) dlConcurrency ≤ ht + 1 := by omega
  have hinv : WorldInv base ht (min (ht + 1 - base) dlConcurrency) w := by
    refine Reachable.invariant ?_ (fun _ _ hw hstep => hw.step hpos hnum hht hstep) h
    rintro _ rfl
    exact worldInv_start hle hht dlConcurrency nClients s
  have hsub := hinv.requested_subperm hpos hnum
  refine ⟨?_, ?_, ?_, hinv.trace, ?_, ?_⟩
  · intro i t hget
    rw [(hinv.accounted i t hget).expectedCt, ← (hinv.owned_perm hnum hget).length_eq, strided,
      List.length_map, List.length_range]
  · obtain ⟨l, hperm, hle⟩ := hsub
    exact hperm.nodup_iff.mp (hle.nodup List.nodup_range')
  · intro x hx
    have hmem := List.mem_range'_1.mp (hsub.subset hx)
    omega
  · intro sm hsm hstate
    cases hinv.sm sm hsm with
    | downloading hdl _ => exact absurd (hdl.state.symm.trans hstate) (by simp)
    | finished _ htrace => exact htrace
    | aborted habort _ =>
        rcases habort with h | h <;> exact absurd (h.symm.trans hstate) (by simp)
  · exact fun hquiet hok halive => hinv.of_quiet hpos hnum hquiet hok halive

end Run

section TwoBlocks

open ChainIndex Mempool PreProcessedBlock

/-- A controller that tells nobody. -/
def quietConfig : Config :=
  { H := opTrueHashers, opts := {}, masterNotifySubsFlag := false, zmqAllowHashTx := false }

/-- Two tasks download two blocks.  The second block comes first and waits for the other one. -/
theorem block_download_reassembled_two : ∃ w : World,
    Reachable (fun w => w = startDL 0 1 2 1 {}) (DLStep quietConfig) w ∧ w.Quiet ∧
      w.aborted = false ∧ w.trace = [.addBlock 0, .addBlock 1, .finishedDL] := by
  have h0 : Reachable (fun w => w = startDL 0 1 2 1 {}) (DLStep quietConfig)
      (startDL 0 1 2 1 {}) := .start rfl
  -- each task asks for its height
  have h1 := h0.next (.task (i := 0) (e := .process false) rfl rfl (fun _ h => by cases h))
  have h2 := h1.next (.task (i := 1) (e := .process false) rfl rfl (fun _ h => by cases h))
  have h3 := h2.next (.block (i := 1) (b := prepared 1 (secondBlock 0)) rfl rfl rfl)
  have h4 := h3.next (.block (i := 0) (b := prepared 0 firstBlock) rfl rfl rfl)
  have h5 := h4.next (@DLStep.deliver _ _ _ _ [(0, prepared 0 firstBlock)] [] rfl)
  have h6 := h5.next (@DLStep.deliver _ _ _ _ [] [] rfl)
  have h7 := h6.next (.task (i := 0) (e := .process false) rfl rfl (fun _ h => by cases h))
  have h8 := h7.next (.task (i := 1) (e := .process false) rfl rfl (fun _ h => by cases h))
  obtain ⟨w, hw, hquiet, hok, halive⟩ : ∃ w : World,
      Reachable (fun w => w = startDL 0 1 2 1 {}) (DLStep quietConfig) w ∧ w.Quiet ∧
        (∀ t ∈ w.tasks, ∀ msg, t.status ≠ .errored msg) ∧ w.aborted = false := by
    refine ⟨_, h8, ⟨?_, rfl⟩, ?_, rfl⟩
    · intro t ht
      rcases List.mem_pair.mp ht with rfl | rfl <;> exact ⟨rfl, rfl, rfl⟩
    · intro t ht msg
      rcases List.mem_pair.mp ht with rfl | rfl <;> exact fun h => by cases h
  have hall := (block_download_reassembled (by decide) (by decide) (by decide) hw).2.2.2.2.2
  exact ⟨w, hw, hquiet, halive, (hall hquiet hok halive).2⟩

end TwoBlocks

end Controller
end Shulcrum
