import Mathlib.Algebra.BigOperators.Group.List.Basic
import Mathlib.Algebra.Ring.Int.Defs
import Mathlib.Algebra.Ring.Nat
import Shulcrum.Lib.Invariant

/-!
# The limits on batches

The clients of one address share a record with two counters for their batches: the
number of items and the memory the batches take.  Handlers that are attached to a
batch processor when it is checked add its costs and take both parts away again when
it is destroyed.  They hold weak references, so that they do nothing when the record
is gone.

Clients of one address may live in several threads, so that the atomic parts of the
checks and of the destructors interleave.  A step is one access to the counters.

**Results.**
* `Counted`, `counted_of_reachable`: the counters are the sums over the processors whose
  handlers are attached.
* `batch_limits_exact`: the sums over the processors that are alive, and what a refused
  batch leaves behind.
-/

namespace Shulcrum
namespace BatchLimits

open Invariant

/-- The part of `Client::PerIPData` that is about batches. -/
structure PerIPData where
  nExtantBatchRequests : UInt64 := 0
  extantBatchRequestCosts : Int64 := 0
  isWhitelisted : Bool
  deriving DecidableEq, Repr

/-- How far a batch processor has come. -/
inductive Phase where
  | constructed
  /-- The size check is done. -/
  | sized
  | accepted
  | refused
  /-- The own part of the destructor is done. -/
  | destructing
  deriving DecidableEq, Repr

/-- The part of `RPC::BatchProcessor` that is about its limits, with the handlers that
`canAcceptBatch` attaches and the record they refer to. -/
structure BatchProcessor where
  perIP : Nat
  size : Nat
  cumCost : Int
  destroyedHandler : Bool := false
  costDeltaHandler : Bool := false
  killed : Bool := false
  phase : Phase := .constructed
  deriving DecidableEq, Repr

/-- The size check of `Client::canAcceptBatch`. -/
def sizeCheck (maxBatch : Nat) (d : PerIPData) (p : BatchProcessor) : PerIPData × BatchProcessor :=
  let newVal := d.nExtantBatchRequests + UInt64.ofNat p.size
  ({ d with nExtantBatchRequests := newVal },
    { p with
      destroyedHandler := true
      phase := if ¬ d.isWhitelisted ∧ maxBatch < newVal.toNat then .refused else .sized })

/-- The cost check of `Client::canAcceptBatch`. -/
def costCheck (maxBuffer : Int) (d : PerIPData) (p : BatchProcessor) : PerIPData × BatchProcessor :=
  let newVal := d.extantBatchRequestCosts + Int64.ofInt p.cumCost
  ({ d with extantBatchRequestCosts := newVal },
    { p with
      costDeltaHandler := true
      phase := if ¬ d.isWhitelisted ∧ 0 < maxBuffer ∧ maxBuffer < newVal.toInt then .refused
        else .accepted })

/-- The handler of `costDelta`. -/
def costDelta (maxBuffer : Int) (d : PerIPData) (p : BatchProcessor) (delta : Int) :
    PerIPData × BatchProcessor :=
  let newVal := d.extantBatchRequestCosts + Int64.ofInt delta
  ({ d with extantBatchRequestCosts := newVal },
    { p with killed := p.killed ||
        (! d.isWhitelisted && decide (0 < maxBuffer ∧ maxBuffer < newVal.toInt)) })

/-- `BatchProcessor::addCost`; its handler has the record if that still exists. -/
def addCost (maxBuffer : Int) (d : Option PerIPData) (p : BatchProcessor) (cost : Int) :
    Option PerIPData × BatchProcessor :=
  let p := { p with cumCost := p.cumCost + cost }
  if p.costDeltaHandler then
    match d with
    | some d => (some (costDelta maxBuffer d p cost).1, (costDelta maxBuffer d p cost).2)
    | none => (none, p)
  else (d, p)

/-- The destructor of the processor itself, which takes back its cost. -/
def destruct (maxBuffer : Int) (d : Option PerIPData) (p : BatchProcessor) :
    Option PerIPData × BatchProcessor :=
  let (d, p) := addCost maxBuffer d p (- p.cumCost)
  (d, { p with phase := .destructing })

/-- The handler of `destroyed`. -/
def destroyed (d : PerIPData) (p : BatchProcessor) : PerIPData :=
  if p.destroyedHandler then
    { d with nExtantBatchRequests := d.nExtantBatchRequests - UInt64.ofNat p.size }
  else d

/-- A processor is deleted. -/
def delete (maxBuffer : Int) (d : PerIPData) (p : BatchProcessor) : Option PerIPData :=
  let (d, p) := destruct maxBuffer (some d) p
  d.map (destroyed · p)

/-- `ConnectionBase::enqueueNewBatch` when no other thread comes between: a processor that
is refused is deleted. -/
def enqueueNewBatch (maxBatch : Nat) (maxBuffer : Int) (d : PerIPData) (p : BatchProcessor) :
    Option PerIPData × Option BatchProcessor :=
  let (d, p) := sizeCheck maxBatch d p
  if p.phase = .refused then (delete maxBuffer d p, none)
  else
    let (d, p) := costCheck maxBuffer d p
    if p.phase = .refused then (delete maxBuffer d p, none) else (some d, some p)

/-! ## Runs -/

/-- All processors of clients of one address.  The record of the address is created for its
first client and deleted with its last one; `created` counts them. -/
structure State where
  clients : Nat := 0
  created : Nat := 0
  perIPData : Option PerIPData := none
  processors : List BatchProcessor := []

namespace State

/-- `weakp.lock()`. -/
def lock (s : State) (perIP : Nat) : Option PerIPData :=
  if perIP = s.created then s.perIPData else none

/-- Put back what `lock` has given, and the processors. -/
def store (s : State) (perIP : Nat) (d : Option PerIPData) (processors : List BatchProcessor) :
    State :=
  { s with
    perIPData := if perIP = s.created then d else s.perIPData
    processors := processors }

/-- `getOrCreatePerIPData` for a new client. -/
def connect (s : State) (isWhitelisted : Bool) : State :=
  match s.perIPData with
  | some _ => { s with clients := s.clients + 1 }
  | none =>
      { s with
        clients := s.clients + 1
        created := s.created + 1
        perIPData := some { isWhitelisted := isWhitelisted } }

/-- A client is deleted; its processors are destroyed after that. -/
def disconnect (s : State) : State :=
  { s with
    clients := s.clients - 1
    perIPData := if s.clients ≤ 1 then none else s.perIPData }

/-- A new processor of a client. -/
def construct (s : State) (size : Nat) (cost : Int) : State :=
  { s with processors := { perIP := s.created, size := size, cumCost := cost } :: s.processors }

end State

/-- One access to the counters, in the thread of one of the clients. -/
inductive BatchStep : State → State → Prop
  | connect {s : State} (isWhitelisted : Bool) : BatchStep s (s.connect isWhitelisted)
  | disconnect {s : State} : 0 < s.clients → BatchStep s s.disconnect
  | construct {s : State} {d : PerIPData} (size : Nat) (cost : Int) :
      s.perIPData = some d → BatchStep s (s.construct size cost)
  | sizeCheck {s : State} {l r : List BatchProcessor} {p : BatchProcessor} {d : PerIPData}
      (maxBatch : Nat) :
      s.processors = l ++ p :: r → p.phase = .constructed → s.lock p.perIP = some d →
      BatchStep s
        (s.store p.perIP (sizeCheck maxBatch d p).1 (l ++ (sizeCheck maxBatch d p).2 :: r))
  | costCheck {s : State} {l r : List BatchProcessor} {p : BatchProcessor} {d : PerIPData}
      (maxBuffer : Int) :
      s.processors = l ++ p :: r → p.phase = .sized → s.lock p.perIP = some d →
      BatchStep s (s.store p.perIP (costCheck maxBuffer d p).1
        (l ++ (costCheck maxBuffer d p).2 :: r))
  /-- A response is pushed, and the processor may be killed for its cost. -/
  | pushResponse {s : State} {l r : List BatchProcessor} {p : BatchProcessor}
      (maxBuffer cost : Int) :
      s.processors = l ++ p :: r → p.phase = .accepted →
      BatchStep s (s.store p.perIP (addCost maxBuffer (s.lock p.perIP) p cost).1
        (l ++ (addCost maxBuffer (s.lock p.perIP) p cost).2 :: r))
  /-- A processor is destroyed: it was refused, has finished or goes with its client. -/
  | destruct {s : State} {l r : List BatchProcessor} {p : BatchProcessor} (maxBuffer : Int) :
      s.processors = l ++ p :: r → p.phase = .accepted ∨ p.phase = .refused →
      BatchStep s (s.store p.perIP (destruct maxBuffer (s.lock p.perIP) p).1
        (l ++ (destruct maxBuffer (s.lock p.perIP) p).2 :: r))
  | destroyed {s : State} {l r : List BatchProcessor} {p : BatchProcessor} :
      s.processors = l ++ p :: r → p.phase = .destructing →
      BatchStep s (s.store p.perIP ((s.lock p.perIP).map (destroyed · p)) (l ++ r))

def Start (s : State) : Prop := s = {}

/-! ## The sums -/

/-- The items of a processor that are counted in the record `perIP`. -/
def BatchProcessor.requestsIn (perIP : Nat) (p : BatchProcessor) : Nat :=
  if p.perIP = perIP ∧ p.destroyedHandler then p.size else 0

/-- The cost of a processor that is counted in the record `perIP`. -/
def BatchProcessor.costIn (perIP : Nat) (p : BatchProcessor) : Int :=
  if p.perIP = perIP ∧ p.costDeltaHandler then p.cumCost else 0

def requests (perIP : Nat) (ps : List BatchProcessor) : Nat := (ps.map (·.requestsIn perIP)).sum

def costs (perIP : Nat) (ps : List BatchProcessor) : Int := (ps.map (·.costIn perIP)).sum

/-- The handlers that are attached in a phase. -/
def BatchProcessor.Handled (p : BatchProcessor) : Prop :=
  match p.phase with
  | .constructed => p.destroyedHandler = false ∧ p.costDeltaHandler = false
  | .sized => p.destroyedHandler = true ∧ p.costDeltaHandler = false
  | .accepted => p.destroyedHandler = true ∧ p.costDeltaHandler = true
  | .refused => p.destroyedHandler = true
  | .destructing => p.destroyedHandler = true ∧ p.cumCost = 0

/-- The counters are the sums of what was counted in them. -/
structure Counted (s : State) : Prop where
  exact : ∀ d, s.perIPData = some d →
    d.nExtantBatchRequests = UInt64.ofNat (requests s.created s.processors) ∧
    d.extantBatchRequestCosts = Int64.ofInt (costs s.created s.processors)
  created : ∀ p ∈ s.processors, p.perIP ≤ s.created
  handled : ∀ p ∈ s.processors, p.Handled

section Sums

variable {s : State} {l r ps qs : List BatchProcessor} {p : BatchProcessor} {d d' : PerIPData}
  {w : Nat}

theorem requests_append (w : Nat) (ps qs : List BatchProcessor) :
    requests w (ps ++ qs) = requests w ps + requests w qs := by
  simp [requests]

theorem requests_cons (w : Nat) (p : BatchProcessor) (ps : List BatchProcessor) :
    requests w (p :: ps) = p.requestsIn w + requests w ps := by
  simp [requests]

theorem costs_append (w : Nat) (ps qs : List BatchProcessor) :
    costs w (ps ++ qs) = costs w ps + costs w qs := by
  simp [costs]

theorem costs_cons (w : Nat) (p : BatchProcessor) (ps : List BatchProcessor) :
    costs w (p :: ps) = p.costIn w + costs w ps := by
  simp [costs]

/-- Processors with another record do not count. -/
theorem requests_of_other (h : ∀ p ∈ ps, p.perIP ≠ w) : requests w ps = 0 := by
  refine List.sum_eq_zero fun x hx => ?_
  obtain ⟨p, hp, rfl⟩ := List.mem_map.1 hx
  simp [BatchProcessor.requestsIn, h p hp]

theorem costs_of_other (h : ∀ p ∈ ps, p.perIP ≠ w) : costs w ps = 0 := by
  refine List.sum_eq_zero fun x hx => ?_
  obtain ⟨p, hp, rfl⟩ := List.mem_map.1 hx
  simp [BatchProcessor.costIn, h p hp]

/-- What a step on a processor does to the counters: they change as the processor does. -/
structure Moves (d d' : PerIPData) (p : BatchProcessor) (ps : List BatchProcessor) : Prop where
  requests : d'.nExtantBatchRequests + UInt64.ofNat (p.requestsIn p.perIP) =
    d.nExtantBatchRequests + UInt64.ofNat (requests p.perIP ps)
  costs : d'.extantBatchRequestCosts + Int64.ofInt (p.costIn p.perIP) =
    d.extantBatchRequestCosts + Int64.ofInt (costs p.perIP ps)

/-- A step on a processor that becomes `ps`, which is empty when it is gone. -/
theorem Counted.move (h : Counted s) (hsplit : s.processors = l ++ p :: r)
    {stored : Option PerIPData} (hsame : ∀ q ∈ ps, q.perIP = p.perIP ∧ q.Handled)
    (hmoves : ∀ d', stored = some d' → ∃ d, s.lock p.perIP = some d ∧ Moves d d' p ps) :
    Counted (s.store p.perIP stored (l ++ (ps ++ r))) := by
  have hle : p.perIP ≤ s.created := h.created p (by simp [hsplit])
  have hmem : ∀ q ∈ l ++ (ps ++ r), q ∈ ps ∨ q ∈ s.processors := by
    intro q hq
    rw [hsplit]
    simp only [List.mem_append, List.mem_cons] at hq ⊢
    rcases hq with hl | hps | hr
    · exact .inr (.inl hl)
    · exact .inl hps
    · exact .inr (.inr (.inr hr))
  refine ⟨fun d' hd' => ?_, fun q hq => ?_, fun q hq => ?_⟩
  · by_cases hcur : p.perIP = s.created
    · simp only [State.store, if_pos hcur] at hd'
      obtain ⟨d, hlock, hmove⟩ := hmoves d' hd'
      simp only [State.lock, if_pos hcur] at hlock
      obtain ⟨hreq, hcost⟩ := h.exact d hlock
      rw [hsplit, requests_append, requests_cons] at hreq
      rw [hsplit, costs_append, costs_cons] at hcost
      have hmreq := hmove.requests
      have hmcost := hmove.costs
      rw [hcur] at hmreq hmcost
      simp only [State.store, if_pos hcur, requests_append, costs_append]
      rw [hreq] at hmreq
      rw [hcost] at hmcost
      simp only [UInt64.ofNat_add, Int64.ofInt_add] at hmreq hmcost ⊢
      constructor
      · grind
      · grind
    · simp only [State.store, if_neg hcur] at hd' ⊢
      obtain ⟨hreq, hcost⟩ := h.exact d' hd'
      have hother : ∀ q ∈ ps, q.perIP ≠ s.created := fun q hq => (hsame q hq).1 ▸ hcur
      have hself : ∀ q ∈ [p], q.perIP ≠ s.created := by
        intro q hq
        rw [List.mem_singleton.1 hq]
        exact hcur
      have hpreq := requests_of_other hself
      have hpcost := costs_of_other hself
      rw [hsplit, ← List.singleton_append, requests_append, requests_append, hpreq] at hreq
      rw [hsplit, ← List.singleton_append, costs_append, costs_append, hpcost] at hcost
      rw [requests_append, requests_append, requests_of_other hother, costs_append, costs_append,
        costs_of_other hother]
      exact ⟨hreq, hcost⟩
  · rcases hmem q hq with hps | hold
    · rw [(hsame q hps).1]
      exact hle
    · exact h.created q hold
  · rcases hmem q hq with hps | hold
    · exact (hsame q hps).2
    · exact h.handled q hold

theorem Counted.move_one (h : Counted s) (hsplit : s.processors = l ++ p :: r)
    {stored : Option PerIPData} {p' : BatchProcessor} (hper : p'.perIP = p.perIP)
    (hhandled : p'.Handled)
    (hmoves : ∀ d', stored = some d' → ∃ d, s.lock p.perIP = some d ∧ Moves d d' p [p']) :
    Counted (s.store p.perIP stored (l ++ p' :: r)) := by
  refine h.move hsplit (fun q hq => ?_) hmoves
  rw [List.mem_singleton.1 hq]
  exact ⟨hper, hhandled⟩

theorem Counted.handled_of (h : Counted s) (hsplit : s.processors = l ++ p :: r) : p.Handled :=
  h.handled p (by simp [hsplit])

@[simp]
theorem requests_singleton (w : Nat) (p : BatchProcessor) : requests w [p] = p.requestsIn w := by
  simp [requests]

@[simp]
theorem costs_singleton (w : Nat) (p : BatchProcessor) : costs w [p] = p.costIn w := by
  simp [costs]

/-! ## Steps -/

theorem moves_sizeCheck (maxBatch : Nat) (d : PerIPData) (hp : p.Handled)
    (hphase : p.phase = .constructed) :
    Moves d (sizeCheck maxBatch d p).1 p [(sizeCheck maxBatch d p).2] := by
  simp only [BatchProcessor.Handled, hphase] at hp
  constructor
  · simp [sizeCheck, BatchProcessor.requestsIn, hp.1]
  · simp [sizeCheck, BatchProcessor.costIn, hp.2]

theorem handled_sizeCheck (maxBatch : Nat) (d : PerIPData) (hp : p.Handled)
    (hphase : p.phase = .constructed) : (sizeCheck maxBatch d p).2.Handled := by
  simp only [BatchProcessor.Handled, hphase] at hp
  unfold sizeCheck BatchProcessor.Handled
  dsimp only
  split_ifs
  · rfl
  · exact ⟨rfl, hp.2⟩

theorem moves_costCheck (maxBuffer : Int) (d : PerIPData) (hp : p.Handled)
    (hphase : p.phase = .sized) :
    Moves d (costCheck maxBuffer d p).1 p [(costCheck maxBuffer d p).2] := by
  simp only [BatchProcessor.Handled, hphase] at hp
  constructor
  · simp [costCheck, BatchProcessor.requestsIn, hp.1]
  · simp [costCheck, BatchProcessor.costIn, hp.2]

theorem handled_costCheck (maxBuffer : Int) (d : PerIPData) (hp : p.Handled)
    (hphase : p.phase = .sized) : (costCheck maxBuffer d p).2.Handled := by
  simp only [BatchProcessor.Handled, hphase] at hp
  unfold costCheck BatchProcessor.Handled
  dsimp only
  split_ifs
  · exact hp.1
  · exact ⟨hp.1, rfl⟩

theorem addCost_snd (maxBuffer : Int) (o : Option PerIPData) (p : BatchProcessor) (cost : Int) :
    ∃ killed, (addCost maxBuffer o p cost).2 =
      { p with cumCost := p.cumCost + cost, killed := killed } := by
  unfold addCost
  dsimp only
  split_ifs
  · cases o with
    | none => exact ⟨p.killed, rfl⟩
    | some d => exact ⟨_, rfl⟩
  · exact ⟨p.killed, rfl⟩

theorem addCost_none (maxBuffer : Int) (p : BatchProcessor) (cost : Int) :
    (addCost maxBuffer none p cost).1 = none := by
  unfold addCost
  dsimp only
  split_ifs
  · rfl
  · rfl

theorem addCost_some (maxBuffer : Int) (d : PerIPData) (p : BatchProcessor) (cost : Int) :
    (addCost maxBuffer (some d) p cost).1 = some { d with
      extantBatchRequestCosts := d.extantBatchRequestCosts +
        Int64.ofInt (if p.costDeltaHandler then cost else 0) } := by
  unfold addCost
  dsimp only
  split_ifs
  · rfl
  · simp

/-- The cost changes by the same amount in the processor and, by its handler, in the record. -/
theorem moves_addCost (maxBuffer : Int) {o : Option PerIPData} (p : BatchProcessor) (cost : Int)
    (hd' : (addCost maxBuffer o p cost).1 = some d') :
    ∃ d, o = some d ∧ Moves d d' p [(addCost maxBuffer o p cost).2] := by
  cases o with
  | none => simp [addCost_none] at hd'
  | some d =>
      obtain ⟨killed, hsnd⟩ := addCost_snd maxBuffer (some d) p cost
      rw [addCost_some, Option.some.injEq] at hd'
      refine ⟨d, rfl, ?_, ?_⟩
      · rw [hsnd, ← hd']
        simp [BatchProcessor.requestsIn]
      · rw [hsnd, ← hd']
        simp only [costs_singleton, BatchProcessor.costIn, true_and]
        split_ifs
        · rw [Int64.ofInt_add]
          grind
        · simp

theorem handled_addCost (maxBuffer : Int) (o : Option PerIPData) (cost : Int) (hp : p.Handled)
    (hphase : p.phase = .accepted) : (addCost maxBuffer o p cost).2.Handled := by
  obtain ⟨killed, hsnd⟩ := addCost_snd maxBuffer o p cost
  rw [hsnd]
  simp only [BatchProcessor.Handled, hphase] at hp ⊢
  exact hp

theorem destruct_snd (maxBuffer : Int) (o : Option PerIPData) (p : BatchProcessor) :
    ∃ killed, (destruct maxBuffer o p).2 =
      { p with cumCost := 0, killed := killed, phase := .destructing } := by
  obtain ⟨killed, hsnd⟩ := addCost_snd maxBuffer o p (- p.cumCost)
  refine ⟨killed, ?_⟩
  unfold destruct
  dsimp only
  rw [hsnd]
  simp

/-- The destructor takes back what the processor has in the sums. -/
theorem moves_destruct (maxBuffer : Int) {o : Option PerIPData} (p : BatchProcessor)
    (hd' : (destruct maxBuffer o p).1 = some d') :
    ∃ d, o = some d ∧ Moves d d' p [(destruct maxBuffer o p).2] := by
  obtain ⟨d, ho, hmoves⟩ := moves_addCost maxBuffer p (- p.cumCost) hd'
  refine ⟨d, ho, hmoves.requests, ?_⟩
  exact hmoves.costs

theorem handled_destruct (maxBuffer : Int) (o : Option PerIPData) (hp : p.Handled)
    (hphase : p.phase = .accepted ∨ p.phase = .refused) : (destruct maxBuffer o p).2.Handled := by
  obtain ⟨killed, hsnd⟩ := destruct_snd maxBuffer o p
  rw [hsnd]
  have hattached : p.destroyedHandler = true := by
    rcases hphase with hacc | href
    · simp only [BatchProcessor.Handled, hacc] at hp
      exact hp.1
    · simp only [BatchProcessor.Handled, href] at hp
      exact hp
  exact ⟨hattached, rfl⟩

theorem moves_destroyed (d : PerIPData) (hp : p.Handled) (hphase : p.phase = .destructing) :
    Moves d (destroyed d p) p [] := by
  simp only [BatchProcessor.Handled, hphase] at hp
  constructor
  · simp only [destroyed, hp.1, if_true, BatchProcessor.requestsIn, and_self, requests,
      List.map_nil, List.sum_nil]
    grind
  · simp [destroyed, hp.1, BatchProcessor.costIn, hp.2, costs]

end Sums

/-! ## The invariant -/

/-- A new record starts with nothing in it, and no processor refers to it. -/
theorem counted_connect {s : State} (h : Counted s) (isWhitelisted : Bool) :
    Counted (s.connect isWhitelisted) := by
  unfold State.connect
  cases hd : s.perIPData with
  | some d =>
      refine ⟨fun d' hd' => ?_, h.created, h.handled⟩
      exact h.exact d' (hd.trans hd')
  | none =>
      have hother : ∀ p ∈ s.processors, p.perIP ≠ s.created + 1 := by
        intro p hp
        have hle := h.created p hp
        omega
      refine ⟨fun d' hd' => ?_, fun p hp => Nat.le_succ_of_le (h.created p hp), h.handled⟩
      rw [← Option.some.inj hd']
      dsimp only
      rw [requests_of_other hother, costs_of_other hother]
      exact ⟨rfl, rfl⟩

theorem counted_disconnect {s : State} (h : Counted s) : Counted s.disconnect := by
  refine ⟨fun d hd => ?_, h.created, h.handled⟩
  unfold State.disconnect at hd
  dsimp only at hd
  split_ifs at hd
  exact h.exact d hd

theorem counted_construct {s : State} (h : Counted s) (size : Nat) (cost : Int) :
    Counted (s.construct size cost) := by
  refine ⟨fun d hd => ?_, fun p hp => ?_, fun p hp => ?_⟩
  · unfold State.construct
    dsimp only
    rw [requests_cons, costs_cons]
    simpa [BatchProcessor.requestsIn, BatchProcessor.costIn] using h.exact d hd
  · rcases List.mem_cons.1 hp with rfl | hold
    · exact Nat.le_refl _
    · exact h.created p hold
  · rcases List.mem_cons.1 hp with rfl | hold
    · exact ⟨rfl, rfl⟩
    · exact h.handled p hold

theorem counted_step {s t : State} (h : Counted s) (hstep : BatchStep s t) : Counted t := by
  cases hstep with
  | connect isWhitelisted => exact counted_connect h isWhitelisted
  | disconnect _ => exact counted_disconnect h
  | construct size cost _ => exact counted_construct h size cost
  | sizeCheck maxBatch hsplit hphase hlock =>
      have hp := h.handled_of hsplit
      refine h.move_one hsplit rfl (handled_sizeCheck _ _ hp hphase) fun d' hd' => ⟨_, hlock, ?_⟩
      rw [← Option.some.inj hd']
      exact moves_sizeCheck _ _ hp hphase
  | costCheck maxBuffer hsplit hphase hlock =>
      have hp := h.handled_of hsplit
      refine h.move_one hsplit rfl (handled_costCheck _ _ hp hphase) fun d' hd' => ⟨_, hlock, ?_⟩
      rw [← Option.some.inj hd']
      exact moves_costCheck _ _ hp hphase
  | @pushResponse l r p maxBuffer cost hsplit hphase =>
      have hp := h.handled_of hsplit
      obtain ⟨killed, hsnd⟩ := addCost_snd maxBuffer (s.lock p.perIP) p cost
      refine h.move_one hsplit (by rw [hsnd]) (handled_addCost _ _ _ hp hphase) fun d' hd' => ?_
      exact moves_addCost _ _ _ hd'
  | @destruct l r p maxBuffer hsplit hphase =>
      have hp := h.handled_of hsplit
      obtain ⟨killed, hsnd⟩ := destruct_snd maxBuffer (s.lock p.perIP) p
      refine h.move_one hsplit (by rw [hsnd]) (handled_destruct _ _ hp hphase) fun d' hd' => ?_
      exact moves_destruct _ _ hd'
  | destroyed hsplit hphase =>
      have hp := h.handled_of hsplit
      refine @Counted.move _ _ _ [] _ h hsplit _ (fun q hq => by simp at hq) fun d' hd' => ?_
      obtain ⟨d, hlock, rfl⟩ := Option.map_eq_some_iff.1 hd'
      exact ⟨d, hlock, moves_destroyed d hp hphase⟩

theorem counted_of_reachable {s : State} (h : Reachable Start BatchStep s) : Counted s := by
  refine h.invariant (fun s hs => ?_) (fun _ _ hi hstep => counted_step hi hstep)
  rw [hs]
  exact ⟨by simp, by simp, by simp⟩

/-! ## Refusals -/

section Refused

variable {maxBatch : Nat} {maxBuffer : Int} {d : PerIPData} {p : BatchProcessor} {s : State}

/-- Deleting a processor takes back its size, and its cost if that was counted. -/
theorem delete_eq (hattached : p.destroyedHandler = true) :
    delete maxBuffer d p = some { d with
      nExtantBatchRequests := d.nExtantBatchRequests - UInt64.ofNat p.size
      extantBatchRequestCosts := d.extantBatchRequestCosts +
        Int64.ofInt (if p.costDeltaHandler then - p.cumCost else 0) } := by
  obtain ⟨killed, hsnd⟩ := destruct_snd maxBuffer (some d) p
  unfold delete
  dsimp only
  rw [hsnd]
  simp [destruct, addCost_some, destroyed, hattached]

/-- A batch that is refused leaves the counters as they were. -/
theorem refused_restores (hdelta : p.costDeltaHandler = false)
    (href : (enqueueNewBatch maxBatch maxBuffer d p).2 = none) :
    (enqueueNewBatch maxBatch maxBuffer d p).1 = some d := by
  unfold enqueueNewBatch at href ⊢
  dsimp only at href ⊢
  by_cases hsize : (sizeCheck maxBatch d p).2.phase = .refused
  · -- the cost was not counted, and its handler is not attached
    rw [if_pos hsize, delete_eq rfl]
    simp [sizeCheck, hdelta]
  · rw [if_neg hsize] at href ⊢
    by_cases hcost : (costCheck maxBuffer (sizeCheck maxBatch d p).1
        (sizeCheck maxBatch d p).2).2.phase = .refused
    · rw [if_pos hcost, delete_eq rfl]
      simp only [costCheck, sizeCheck, if_true, Int64.ofInt_neg]
      congr 1
      cases d with
      | mk n c w =>
          simp only [PerIPData.mk.injEq, and_true]
          constructor
          · grind
          · grind
    · rw [if_neg hcost] at href
      simp at href

theorem store_current {o : Option PerIPData} (hcur : p.perIP = s.created)
    (ps : List BatchProcessor) :
    s.store p.perIP o ps = { s with perIPData := o, processors := ps } := by
  simp [State.store, hcur]

/-- Without interruption, deleting the newest processor is a run of steps. -/
theorem reachable_delete (maxBuffer : Int) (hcur : p.perIP = s.created)
    {ps : List BatchProcessor} (hphase : p.phase = .refused)
    (h : Reachable Start BatchStep { s with perIPData := some d, processors := p :: ps }) :
    Reachable Start BatchStep { s with perIPData := delete maxBuffer d p, processors := ps } := by
  obtain ⟨killed, hsnd⟩ := destruct_snd maxBuffer (some d) p
  have hlock : ({ s with perIPData := some d, processors := p :: ps } : State).lock p.perIP =
      some d := if_pos hcur
  have h1 := h.next (.destruct (l := []) maxBuffer rfl (.inr hphase))
  rw [hlock] at h1
  have h2 := h1.next (.destroyed (l := []) rfl (by rw [hsnd]))
  have hper : (destruct maxBuffer (some d) p).2.perIP = s.created := by
    rw [hsnd]
    exact hcur
  simpa [State.store, State.lock, hcur, hper, delete] using h2

/-- Without interruption, offering a batch is a run of steps. -/
theorem reachable_enqueueNewBatch (h : Reachable Start BatchStep s) (hd : s.perIPData = some d)
    (maxBatch : Nat) (maxBuffer : Int)
    (hnew : p = { perIP := s.created, size := p.size, cumCost := p.cumCost }) :
    Reachable Start BatchStep { s with
      perIPData := (enqueueNewBatch maxBatch maxBuffer d p).1
      processors := (enqueueNewBatch maxBatch maxBuffer d p).2.toList ++ s.processors } := by
  have hcur : p.perIP = s.created := by rw [hnew]
  have h1 := h.next (.construct p.size p.cumCost hd)
  have h2 := h1.next (.sizeCheck (l := []) (d := d) (p := p) maxBatch
    (by rw [hnew]; rfl) (by rw [hnew]) (by simp [State.lock, State.construct, hd, hcur]))
  rw [store_current (s := s.construct p.size p.cumCost) hcur] at h2
  unfold enqueueNewBatch
  dsimp only
  by_cases hsize : (sizeCheck maxBatch d p).2.phase = .refused
  · rw [if_pos hsize]
    exact reachable_delete (s := s) (p := (sizeCheck maxBatch d p).2) maxBuffer hcur hsize h2
  rw [if_neg hsize]
  have hsized : (sizeCheck maxBatch d p).2.phase = .sized := by
    unfold sizeCheck at hsize ⊢
    dsimp only at hsize ⊢
    split_ifs at hsize ⊢
    · exact absurd rfl hsize
    · rfl
  have h3 := h2.next (.costCheck (l := []) (d := (sizeCheck maxBatch d p).1)
    (p := (sizeCheck maxBatch d p).2) maxBuffer rfl hsized (if_pos hcur))
  by_cases hcost : (costCheck maxBuffer (sizeCheck maxBatch d p).1
      (sizeCheck maxBatch d p).2).2.phase = .refused
  · rw [if_pos hcost]
    refine reachable_delete (s := s) (p := (costCheck maxBuffer (sizeCheck maxBatch d p).1
      (sizeCheck maxBatch d p).2).2) maxBuffer hcur hcost ?_
    simpa [State.store, State.construct, sizeCheck, hcur] using h3
  · rw [if_neg hcost]
    simpa [State.store, State.construct, sizeCheck, hcur] using h3

end Refused

/-! ## The counters -/

/-- The processors of the clients that share the present record. -/
def State.alive (s : State) : List BatchProcessor :=
  s.processors.filter fun p => decide (p.perIP = s.created)

/-- When no check and no destructor is under way, all processors count. -/
theorem sums_of_accepted {w : Nat} (ps : List BatchProcessor) (hhandled : ∀ p ∈ ps, p.Handled)
    (hacc : ∀ p ∈ ps, p.perIP = w → p.phase = .accepted) :
    requests w ps = ((ps.filter fun p => decide (p.perIP = w)).map BatchProcessor.size).sum ∧
    costs w ps = ((ps.filter fun p => decide (p.perIP = w)).map BatchProcessor.cumCost).sum := by
  induction ps with
  | nil => exact ⟨rfl, rfl⟩
  | cons p ps ih =>
      obtain ⟨hreq, hcost⟩ := ih (fun q hq => hhandled q (List.mem_cons_of_mem p hq))
        (fun q hq => hacc q (List.mem_cons_of_mem p hq))
      rw [requests_cons, costs_cons, hreq, hcost]
      by_cases hp : p.perIP = w
      · have hattached := hhandled p (List.mem_cons_self ..)
        simp only [BatchProcessor.Handled, hacc p (List.mem_cons_self ..) hp] at hattached
        simp [BatchProcessor.requestsIn, BatchProcessor.costIn, hp, hattached.1, hattached.2]
      · simp [BatchProcessor.requestsIn, BatchProcessor.costIn, hp]

/--
In every state the counters are the sums over the processors whose handlers are attached.
When no processor is just being checked or deleted, these are all that are alive.  A batch
that is refused leaves both counters as they were.
-/
theorem batch_limits_exact {s : State} {d : PerIPData} (h : Reachable Start BatchStep s)
    (hd : s.perIPData = some d) :
    (d.nExtantBatchRequests = UInt64.ofNat (requests s.created s.processors) ∧
      d.extantBatchRequestCosts = Int64.ofInt (costs s.created s.processors)) ∧
    ((∀ p ∈ s.alive, p.phase = .accepted) →
      d.nExtantBatchRequests = UInt64.ofNat (s.alive.map BatchProcessor.size).sum ∧
      d.extantBatchRequestCosts = Int64.ofInt (s.alive.map BatchProcessor.cumCost).sum) ∧
    ∀ (maxBatch : Nat) (maxBuffer : Int) (size : Nat) (cost : Int),
      let r := enqueueNewBatch maxBatch maxBuffer d
        { perIP := s.created, size := size, cumCost := cost }
      r.2 = none → r.1 = some d := by
  have hcounted := counted_of_reachable h
  have hexact := hcounted.exact d hd
  refine ⟨hexact, fun hacc => ?_, fun maxBatch maxBuffer size cost href => ?_⟩
  · obtain ⟨hreq, hcost⟩ := sums_of_accepted (w := s.created) s.processors hcounted.handled
      fun p hp hcur => hacc p (List.mem_filter.2 ⟨hp, decide_eq_true hcur⟩)
    rw [hreq, hcost] at hexact
    exact hexact
  · exact refused_restores rfl href

/-- Two clients of one address: a batch of three items is accepted, one of nine is not. -/
theorem batch_limits_exact_two : ∃ (s : State) (d : PerIPData), s.clients = 2 ∧
    d = { nExtantBatchRequests := 3, extantBatchRequestCosts := 120, isWhitelisted := false } ∧
    (d.nExtantBatchRequests = UInt64.ofNat (s.alive.map BatchProcessor.size).sum ∧
      d.extantBatchRequestCosts = Int64.ofInt (s.alive.map BatchProcessor.cumCost).sum) ∧
    enqueueNewBatch 10 1000 d { perIP := s.created, size := 9, cumCost := 500 } =
      (some d, none) := by
  have h0 : Reachable Start BatchStep {} := .start rfl
  have h1 := (h0.next (.connect false)).next (.connect false)
  have h2 := reachable_enqueueNewBatch (p := { perIP := 1, size := 3, cumCost := 120 }) h1 rfl
    10 1000 rfl
  have hexact := batch_limits_exact h2 rfl
  refine ⟨_, _, rfl, rfl, hexact.2.1 (by decide), ?_⟩
  exact Prod.ext (hexact.2.2 10 1000 9 500 (by decide)) (by decide)

end BatchLimits
end Shulcrum
