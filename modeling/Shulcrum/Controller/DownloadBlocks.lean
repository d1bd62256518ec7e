import Mathlib.Data.List.Nodup
import Mathlib.Data.List.Range
import Mathlib.Tactic

/-!
# The tasks that download blocks

A download is shared by several tasks.  Task `i` asks for the heights
`base + i`, `base + i + stride`, ... up to the last one.  It keeps a few
requests under way: every answer schedules as many further calls of `process`
as the queue has room for, and each of these calls asks for one height.

**Results.**
* `nToDL_eq`: the expected count is the number of heights the task owns.
* `TaskRun.Accounted`: what is scheduled, put off, asked for and answered.
* `requested_of_quiet`: a task with nothing left to do has asked for all its heights.
-/

namespace Shulcrum
namespace Controller

/-- `DownloadBlocksTask`.  All counters are unsigned 32-bit integers. -/
structure DownloadBlocksTask where
  fromHeight : Nat
  toHeight : Nat
  stride : Nat
  expectedCt : Nat
  /-- `max_q`: how many requests are queued at once. -/
  maxQ : Nat
  next : Nat
  goodCt : Nat := 0
  qCt : Nat := 0
  maybeDone : Bool := false

/-- `DownloadBlocksTask::nToDL`. -/
def DownloadBlocksTask.nToDL (fromHeight toHeight stride : Nat) : Nat :=
  ((toHeight - fromHeight) + 1 + stride - 1) % 4294967296 / max stride 1

/-- The constructor of `DownloadBlocksTask`. -/
def DownloadBlocksTask.make (fromHeight toHeight stride nClients : Nat) : DownloadBlocksTask :=
  { fromHeight := fromHeight
    toHeight := toHeight
    stride := stride
    expectedCt := DownloadBlocksTask.nToDL fromHeight toHeight stride
    maxQ := nClients + 1
    next := fromHeight }

inductive TaskStatus where
  | running
  | succeeded
  | errored (errorMessage : String)
  deriving DecidableEq

/-- A task and what its event loop and the node still have to do for it. -/
structure TaskRun where
  task : DownloadBlocksTask
  status : TaskStatus := .running
  /-- Scheduled calls of `process`; the first one starts the task. -/
  scheduled : Nat := 1
  /-- Heights whose request is put off because the controller is backlogged. -/
  delayed : List Nat := []
  /-- Heights asked for and not answered yet. -/
  requests : List Nat := []
  /-- All heights asked for so far. -/
  requested : List Nat := []
  /-- The heights whose block arrived. -/
  answered : List Nat := []

/-- The answers of the node to the two requests for a block. -/
inductive Reply where
  | block
  | invalidHash
  | badSize
  | hashMismatch
  deriving DecidableEq

namespace TaskRun

/-- `DownloadBlocksTask::do_get`; `throttle` is what the controller recommends. -/
def doGet (r : TaskRun) (bnum : Nat) (throttle : Bool) : TaskRun :=
  if throttle then { r with delayed := bnum :: r.delayed }
  else { r with requests := bnum :: r.requests, requested := bnum :: r.requested }

/-- `DownloadBlocksTask::process`. -/
def process (r : TaskRun) (throttle : Bool) : TaskRun :=
  if r.task.next > r.task.toHeight then
    if r.task.maybeDone then
      if r.task.goodCt ≥ r.task.expectedCt then { r with status := .succeeded }
      else
        { r with
          status := .errored ("missing " ++ toString (r.task.expectedCt - r.task.goodCt) ++
            " blocks") }
    else r
  else
    let r := r.doGet r.task.next throttle
    { r with task := { r.task with next := (r.task.next + r.task.stride) % 4294967296 } }

/-- The loop after an answer: `AGAIN` for every free place in the queue. -/
def queueMore (expectedCt goodCt maxQ : Nat) : Nat → Nat → Nat → Nat × Nat
  | 0, qCt, scheduled => (qCt, scheduled)
  | fuel + 1, qCt, scheduled =>
      if goodCt + qCt < expectedCt ∧ qCt < maxQ then
        queueMore expectedCt goodCt maxQ fuel (qCt + 1) (scheduled + 1)
      else (qCt, scheduled)

/-- The handler of a block that arrived. -/
def gotBlock (r : TaskRun) : TaskRun :=
  let goodCt := r.task.goodCt + 1
  let qCt := r.task.qCt - 1
  if goodCt ≥ r.task.expectedCt then
    { r with
      task := { r.task with goodCt := goodCt, qCt := qCt, maybeDone := true }
      scheduled := r.scheduled + 1 }
  else
    let (qCt, scheduled) :=
      queueMore r.task.expectedCt goodCt r.task.maxQ r.task.maxQ qCt r.scheduled
    { r with task := { r.task with goodCt := goodCt, qCt := qCt }, scheduled := scheduled }

/-- The answer for height `bnum`. -/
def answer (r : TaskRun) (bnum : Nat) : Reply → TaskRun
  | .block =>
      { r with requests := r.requests.erase bnum, answered := bnum :: r.answered }.gotBlock
  | .invalidHash => { r with status := .errored ("invalid hash for height " ++ toString bnum) }
  | .badSize => { r with status := .errored ("bad size for height " ++ toString bnum) }
  | .hashMismatch => { r with status := .errored ("hash mismatch for height " ++ toString bnum) }

/-- What the thread of a task does next. -/
inductive Event where
  | process (throttle : Bool)
  | timer (bnum : Nat) (throttle : Bool)
  | answer (bnum : Nat) (reply : Reply)

/-- One event of a task.  A task that has succeeded or failed is stopped. -/
def apply (r : TaskRun) : Event → Option TaskRun
  | .process throttle =>
      if r.status = .running ∧ 0 < r.scheduled then
        some ({ r with scheduled := r.scheduled - 1 }.process throttle)
      else none
  | .timer bnum throttle =>
      if r.status = .running ∧ bnum ∈ r.delayed then
        some ({ r with delayed := r.delayed.erase bnum }.doGet bnum throttle)
      else none
  | .answer bnum reply =>
      if r.status = .running ∧ bnum ∈ r.requests then some (r.answer bnum reply) else none

/-- Nothing is left to do for the task. -/
def Quiet (r : TaskRun) : Prop := r.scheduled = 0 ∧ r.delayed = [] ∧ r.requests = []

end TaskRun

/-! ## The heights of a task -/

/-- How many heights there are from `f` to `t` in steps of `s`. -/
def strideCount (f t s : Nat) : Nat := (t - f) / s + 1

/-- The first `m` heights of a task. -/
def strided (f s m : Nat) : List Nat := (List.range m).map fun k => f + k * s

/-- The heights of `num` heights from `base` on that task `i` of `nTasks` owns. -/
def owned (base num nTasks i : Nat) : List Nat :=
  (List.range' base num).filter fun h => decide ((h - base) % nTasks = i)

section Heights

variable {f t s m base num nTasks i h : Nat}

theorem nToDL_eq (hs : 0 < s) (hfit : t + s < 4294967296) :
    DownloadBlocksTask.nToDL f t s = strideCount f t s := by
  have hsum : t - f + 1 + s - 1 = t - f + s := by omega
  rw [DownloadBlocksTask.nToDL, strideCount, hsum, Nat.mod_eq_of_lt (by omega),
    max_eq_left (by omega), Nat.add_div_right _ hs]

theorem lt_strideCount_iff (hs : 0 < s) (hft : f ≤ t) : m < strideCount f t s ↔ f + m * s ≤ t := by
  rw [strideCount, Nat.lt_succ_iff, Nat.le_div_iff_mul_le hs]
  omega

theorem strided_succ : strided f s (m + 1) = strided f s m ++ [f + m * s] := by
  simp [strided, List.range_succ]

theorem strided_nodup (hs : 0 < s) : (strided f s m).Nodup := by
  refine List.Nodup.map ?_ List.nodup_range
  intro a b hab
  have hmul : a * s = b * s := by simpa using hab
  exact Nat.eq_of_mul_eq_mul_right hs hmul

theorem mem_owned : h ∈ owned base num nTasks i ↔
    base ≤ h ∧ h < base + num ∧ (h - base) % nTasks = i := by
  simp [owned, List.mem_range'_1, and_assoc]

theorem owned_nodup : (owned base num nTasks i).Nodup := List.Nodup.filter _ List.nodup_range'

/-- The heights in steps of the number of tasks are the heights with one remainder. -/
theorem strided_perm_owned (hi : i < nTasks) (hnum : nTasks ≤ num) :
    (strided (base + i) nTasks (strideCount (base + i) (base + num - 1) nTasks)).Perm
      (owned base num nTasks i) := by
  have hpos : 0 < nTasks := by omega
  refine (List.perm_ext_iff_of_nodup (strided_nodup hpos) owned_nodup).mpr ?_
  intro h
  rw [mem_owned, strided, List.mem_map]
  constructor
  · rintro ⟨k, hk, rfl⟩
    have hle := (lt_strideCount_iff hpos (by omega)).mp (List.mem_range.mp hk)
    refine ⟨by omega, by omega, ?_⟩
    have hsub : base + i + k * nTasks - base = i + k * nTasks := by omega
    rw [hsub, Nat.add_mul_mod_self_right, Nat.mod_eq_of_lt hi]
  · rintro ⟨hlo, hhi, hmod⟩
    have hdiv := Nat.mod_add_div' (h - base) nTasks
    refine ⟨(h - base) / nTasks, ?_, by omega⟩
    rw [List.mem_range, lt_strideCount_iff hpos (by omega)]
    omega

/-- The tasks share the heights. -/
theorem flatMap_owned_perm (hpos : 0 < nTasks) :
    ((List.range nTasks).flatMap (owned base num nTasks)).Perm (List.range' base num) := by
  refine (List.perm_ext_iff_of_nodup ?_ List.nodup_range').mpr ?_
  · rw [List.nodup_flatMap]
    refine ⟨fun i _ => owned_nodup, ?_⟩
    refine List.nodup_range.imp ?_
    intro a b hab h ha hb
    exact hab ((mem_owned.mp ha).2.2.symm.trans (mem_owned.mp hb).2.2)
  · intro h
    rw [List.mem_flatMap, List.mem_range'_1]
    constructor
    · rintro ⟨i, -, hmem⟩
      exact ⟨(mem_owned.mp hmem).1, (mem_owned.mp hmem).2.1⟩
    · rintro ⟨hlo, hhi⟩
      exact ⟨_, List.mem_range.mpr (Nat.mod_lt _ hpos), mem_owned.mpr ⟨hlo, hhi, rfl⟩⟩

end Heights

/-! ## The accounts of a task -/

/-- The scheduled calls of `process` and the heights that are not answered yet. -/
def TaskRun.waiting (hand : List Nat) (r : TaskRun) : Nat :=
  r.scheduled + (hand.length + r.delayed.length + r.requests.length)

/-- A task for the heights from `f` to `t` in steps of `s`.  The heights in `hand` are the one that
`do_get` is being called for, if it is. -/
structure Accounted (f t s : Nat) (hand : List Nat) (r : TaskRun) : Prop where
  toHeight : r.task.toHeight = t
  stride : r.task.stride = s
  expectedCt : r.task.expectedCt = strideCount f t s
  maxQ : 0 < r.task.maxQ
  /-- The heights it has come to are in hand, put off, asked for or answered. -/
  issued : ∃ m ≤ strideCount f t s, r.task.next = f + m * s ∧
    (hand ++ (r.delayed ++ (r.requests ++ r.answered))).Perm (strided f s m)
  requested : r.requested.Perm (r.requests ++ r.answered)
  goodCt : r.task.goodCt = r.answered.length
  /-- Before the first answer one height is waited for, later as many as are queued. -/
  running : r.status = .running → r.task.maybeDone = false →
    (r.task.goodCt = 0 ∧ r.task.qCt = 0 ∧ r.waiting hand = 1) ∨
      (0 < r.task.goodCt ∧ r.waiting hand = r.task.qCt ∧ 0 < r.task.qCt ∧
        r.task.goodCt + r.task.qCt ≤ strideCount f t s)
  /-- After the last answer one more call of `process` is scheduled. -/
  last : r.status = .running → r.task.maybeDone = true →
    r.task.goodCt = strideCount f t s ∧ r.waiting hand = 1 ∧ r.scheduled = 1
  succeeded : r.status = .succeeded →
    r.task.goodCt = strideCount f t s ∧ r.delayed = [] ∧ r.requests = []

section Accounts

variable {f t s : Nat} {hand : List Nat} {r r' : TaskRun}

theorem accounted_make (hs : 0 < s) (hfit : t + s < 4294967296) (nClients : Nat) :
    Accounted f t s [] { task := DownloadBlocksTask.make f t s nClients } := by
  refine ⟨rfl, rfl, nToDL_eq hs hfit, Nat.succ_pos _, ⟨0, Nat.zero_le _, ?_, ?_⟩, List.Perm.nil,
    rfl, ?_, ?_, ?_⟩
  · simp [DownloadBlocksTask.make]
  · simp [strided]
  · intro _ _
    exact .inl ⟨rfl, rfl, rfl⟩
  · intro _ hdone
    cases hdone
  · intro h
    cases h

/-- The number of heights a task has come to. -/
theorem Accounted.issued_length (h : Accounted f t s hand r) {m : Nat}
    (hperm : (hand ++ (r.delayed ++ (r.requests ++ r.answered))).Perm (strided f s m)) :
    hand.length + r.delayed.length + r.requests.length + r.task.goodCt = m := by
  have hlen := hperm.length_eq
  simp only [List.length_append, strided, List.length_map, List.length_range] at hlen
  rw [h.goodCt]
  omega

/-- The height in hand is put off or asked for. -/
theorem Accounted.doGet {bnum : Nat} (h : Accounted f t s [bnum] r) (hrun : r.status = .running)
    (throttle : Bool) : Accounted f t s [] (r.doGet bnum throttle) := by
  obtain ⟨m, hm, hnext, hperm⟩ := h.issued
  have hnot : ∀ {P : Prop}, r.status = .succeeded → P := by
    intro P hsucc
    rw [hrun] at hsucc
    cases hsucc
  cases throttle with
  | true =>
      have hwait : (r.doGet bnum true).waiting [] = r.waiting [bnum] := by
        simp only [TaskRun.waiting, TaskRun.doGet, if_true, List.length_cons, List.length_nil]
        omega
      refine ⟨h.toHeight, h.stride, h.expectedCt, h.maxQ, ⟨m, hm, hnext, hperm⟩, h.requested,
        h.goodCt, ?_, ?_, hnot⟩
      · rw [hwait]
        exact h.running
      · rw [hwait]
        exact h.last
  | false =>
      have hwait : (r.doGet bnum false).waiting [] = r.waiting [bnum] := by
        simp only [TaskRun.waiting, TaskRun.doGet, Bool.false_eq_true, if_false, List.length_cons,
          List.length_nil]
        omega
      have hmid : (r.delayed ++ (bnum :: (r.requests ++ r.answered))).Perm
          (bnum :: (r.delayed ++ (r.requests ++ r.answered))) := List.perm_middle
      refine ⟨h.toHeight, h.stride, h.expectedCt, h.maxQ, ⟨m, hm, hnext, hmid.trans hperm⟩,
        h.requested.cons bnum, h.goodCt, ?_, ?_, hnot⟩
      · rw [hwait]
        exact h.running
      · rw [hwait]
        exact h.last

/-- A call of `process` before the last answer takes the next height. -/
theorem Accounted.next (h : Accounted f t s [] r) (hs : 0 < s) (hft : f ≤ t)
    (hfit : t + s < 4294967296) (hrun : r.status = .running) (hpos : 0 < r.scheduled)
    (hdone : r.task.maybeDone = false) :
    ¬ r.task.next > r.task.toHeight ∧
      Accounted f t s [r.task.next]
        { r with
          scheduled := r.scheduled - 1
          task := { r.task with next := (r.task.next + r.task.stride) % 4294967296 } } := by
  obtain ⟨m, hm, hnext, hperm⟩ := h.issued
  have hcount := h.issued_length hperm
  have hcounters := h.running hrun hdone
  -- fewer heights were taken than are expected
  have hlt : m < strideCount f t s := by
    have hcard : 0 < strideCount f t s := Nat.succ_pos _
    simp only [TaskRun.waiting, List.length_nil] at hcounters hcount
    omega
  have hle := (lt_strideCount_iff hs hft).mp hlt
  refine ⟨by rw [hnext, h.toHeight]; omega, h.toHeight, h.stride, h.expectedCt, h.maxQ,
    ⟨m + 1, hlt, ?_, ?_⟩, h.requested, h.goodCt, fun _ _ => ?_, fun _ hlast => ?_, fun hsucc => ?_⟩
  · show (r.task.next + r.task.stride) % 4294967296 = f + (m + 1) * s
    rw [hnext, h.stride, Nat.mod_eq_of_lt (by omega), Nat.succ_mul]
    omega
  · rw [strided_succ, hnext]
    exact (hperm.cons _).trans (List.perm_append_singleton _ _).symm
  · simp only [TaskRun.waiting, List.length_cons, List.length_nil] at hcounters ⊢
    omega
  · exact absurd (hdone.symm.trans hlast) (by simp)
  · exact absurd (hrun.symm.trans hsucc) (by simp)

theorem Accounted.process (h : Accounted f t s [] r) (hs : 0 < s) (hft : f ≤ t)
    (hfit : t + s < 4294967296) (hrun : r.status = .running) (hpos : 0 < r.scheduled)
    (throttle : Bool) :
    Accounted f t s [] ({ r with scheduled := r.scheduled - 1 }.process throttle) := by
  cases hdone : r.task.maybeDone with
  | false =>
      obtain ⟨hnot, hnext⟩ := h.next hs hft hfit hrun hpos hdone
      have hget := hnext.doGet hrun throttle
      rw [TaskRun.process, if_neg hnot]
      cases throttle with
      | true => exact hget
      | false => exact hget
  | true =>
      obtain ⟨m, hm, hnext, hperm⟩ := h.issued
      have hcount := h.issued_length hperm
      obtain ⟨hgood, hwait, hsched⟩ := h.last hrun hdone
      simp only [TaskRun.waiting, List.length_nil] at hwait hcount
      have hend : r.task.next > r.task.toHeight := by
        have hge : ¬ m < strideCount f t s := by omega
        rw [lt_strideCount_iff hs hft] at hge
        rw [hnext, h.toHeight]
        omega
      have hexp : r.task.goodCt ≥ r.task.expectedCt := by
        rw [h.expectedCt, hgood]
      rw [TaskRun.process, if_pos hend, if_pos hdone, if_pos hexp]
      have hdelayed : r.delayed = [] := List.length_eq_zero_iff.mp (by omega)
      have hrequests : r.requests = [] := List.length_eq_zero_iff.mp (by omega)
      exact ⟨h.toHeight, h.stride, h.expectedCt, h.maxQ, ⟨m, hm, hnext, hperm⟩, h.requested,
        h.goodCt, fun hrun' => absurd hrun' (by simp), fun hrun' => absurd hrun' (by simp),
        fun _ => ⟨hgood, hdelayed, hrequests⟩⟩

/-- A height that was put off is taken in hand again. -/
theorem Accounted.timer {bnum : Nat} (h : Accounted f t s [] r) (hrun : r.status = .running)
    (hmem : bnum ∈ r.delayed) :
    Accounted f t s [bnum] { r with delayed := r.delayed.erase bnum } := by
  obtain ⟨m, hm, hnext, hperm⟩ := h.issued
  have htake := List.perm_cons_erase hmem
  have hwait : { r with delayed := r.delayed.erase bnum }.waiting [bnum] = r.waiting [] := by
    have hlen := htake.length_eq
    simp only [TaskRun.waiting, List.length_cons, List.length_nil] at hlen ⊢
    omega
  refine ⟨h.toHeight, h.stride, h.expectedCt, h.maxQ,
    ⟨m, hm, hnext, (htake.symm.append_right _).trans hperm⟩, h.requested, h.goodCt, ?_, ?_,
    fun hsucc => absurd (hrun.symm.trans hsucc) (by simp)⟩
  · rw [hwait]
    exact h.running
  · rw [hwait]
    exact h.last

/-- The queue is filled up, or as many heights are queued as are still expected. -/
theorem queueMore_spec {expectedCt goodCt maxQ : Nat} (fuel qCt scheduled : Nat)
    (hfuel : maxQ ≤ qCt + fuel) (hle : goodCt + qCt ≤ expectedCt) (hlt : goodCt < expectedCt)
    (hpos : 0 < maxQ) :
    ∃ k, TaskRun.queueMore expectedCt goodCt maxQ fuel qCt scheduled = (qCt + k, scheduled + k) ∧
      goodCt + (qCt + k) ≤ expectedCt ∧ 0 < qCt + k := by
  induction fuel generalizing qCt scheduled with
  | zero => exact ⟨0, rfl, hle, by omega⟩
  | succ fuel ih =>
      rw [TaskRun.queueMore]
      split_ifs with hmore
      · obtain ⟨k, heq, hle', hpos'⟩ := ih (qCt + 1) (scheduled + 1) (by omega) (by omega)
        exact ⟨k + 1, by rw [heq]; congr 1 <;> omega, by omega, by omega⟩
      · exact ⟨0, rfl, hle, by omega⟩

/-- A block that arrives. -/
theorem Accounted.gotBlock {bnum : Nat} (h : Accounted f t s [] r) (hrun : r.status = .running)
    (hmem : bnum ∈ r.requests) : Accounted f t s [] (r.answer bnum .block) := by
  obtain ⟨m, hm, hnext, hperm⟩ := h.issued
  have hcount := h.issued_length hperm
  have htake := List.perm_cons_erase hmem
  have hlen := htake.length_eq
  have hmove : (r.requests.erase bnum ++ (bnum :: r.answered)).Perm (r.requests ++ r.answered) :=
    List.perm_middle.trans (htake.symm.append_right _)
  have hperm' := (hmove.append_left r.delayed).trans hperm
  have hreq := h.requested.trans hmove.symm
  have hgood : r.task.goodCt + 1 = (bnum :: r.answered).length := by
    rw [List.length_cons, h.goodCt]
  simp only [List.length_cons, List.length_nil] at hlen hcount
  -- the last answer has been awaited before
  have hdone : r.task.maybeDone = false := by
    cases hdone : r.task.maybeDone with
    | false => rfl
    | true =>
        have hlast := h.last hrun hdone
        simp only [TaskRun.waiting, List.length_nil] at hlast
        omega
  have hcounters := h.running hrun hdone
  simp only [TaskRun.waiting, List.length_nil] at hcounters
  rw [TaskRun.answer, TaskRun.gotBlock]
  simp only [h.expectedCt]
  split_ifs with hend
  · refine ⟨h.toHeight, h.stride, rfl, h.maxQ, ⟨m, hm, hnext, hperm'⟩, hreq, hgood,
      fun _ hd => absurd hd (by simp), fun _ _ => ?_,
      fun hsucc => absurd (hrun.symm.trans hsucc) (by simp)⟩
    simp only [TaskRun.waiting, List.length_nil]
    omega
  · have hroom : r.task.goodCt + 1 + (r.task.qCt - 1) ≤ strideCount f t s := by omega
    obtain ⟨k, heq, hle, hpos⟩ := queueMore_spec r.task.maxQ (r.task.qCt - 1) r.scheduled
      (Nat.le_add_left _ _) hroom (by omega) h.maxQ
    rw [heq]
    refine ⟨h.toHeight, h.stride, rfl, h.maxQ, ⟨m, hm, hnext, hperm'⟩, hreq, hgood,
      fun _ _ => .inr ?_, fun _ hd => absurd (hdone.symm.trans hd) (by simp),
      fun hsucc => absurd (hrun.symm.trans hsucc) (by simp)⟩
    simp only [TaskRun.waiting, List.length_nil]
    omega

/-- A task that failed keeps its lists. -/
theorem Accounted.errored (h : Accounted f t s [] r) (errorMessage : String) :
    Accounted f t s [] { r with status := .errored errorMessage } :=
  ⟨h.toHeight, h.stride, h.expectedCt, h.maxQ, h.issued, h.requested, h.goodCt,
    fun hrun => absurd hrun (by simp), fun hrun => absurd hrun (by simp),
    fun hsucc => absurd hsucc (by simp)⟩

theorem Accounted.apply (h : Accounted f t s [] r) (hs : 0 < s) (hft : f ≤ t)
    (hfit : t + s < 4294967296) {e : TaskRun.Event} (heq : r.apply e = some r') :
    Accounted f t s [] r' := by
  cases e with
  | process throttle =>
      rw [TaskRun.apply] at heq
      split_ifs at heq with hcond
      cases heq
      exact h.process hs hft hfit hcond.1 hcond.2 throttle
  | timer bnum throttle =>
      rw [TaskRun.apply] at heq
      split_ifs at heq with hcond
      cases heq
      exact (h.timer hcond.1 hcond.2).doGet hcond.1 throttle
  | answer bnum reply =>
      rw [TaskRun.apply] at heq
      split_ifs at heq with hcond
      cases heq
      cases reply with
      | block => exact h.gotBlock hcond.1 hcond.2
      | invalidHash => exact h.errored _
      | badSize => exact h.errored _
      | hashMismatch => exact h.errored _

/-- No height is asked for twice, and only heights of the task are. -/
theorem Accounted.requested_subperm (h : Accounted f t s [] r) :
    r.requested.Subperm (strided f s (strideCount f t s)) := by
  obtain ⟨m, hm, -, hperm⟩ := h.issued
  have hsub : (strided f s m).Sublist (strided f s (strideCount f t s)) :=
    (List.range_sublist.mpr hm).map _
  have hpart : (r.requests ++ r.answered).Sublist
      ([] ++ (r.delayed ++ (r.requests ++ r.answered))) := List.sublist_append_right _ _
  exact ((h.requested.subperm.trans hpart.subperm).trans hperm.subperm).trans hsub.subperm

/-- A task that has not failed and has nothing left to do has asked for all its heights, and all
were answered. -/
theorem Accounted.of_quiet (h : Accounted f t s [] r) (hquiet : r.Quiet)
    (hok : ∀ msg, r.status ≠ .errored msg) :
    r.requested.Perm (strided f s (strideCount f t s)) ∧
      r.answered.Perm (strided f s (strideCount f t s)) := by
  obtain ⟨hsched, hdelayed, hrequests⟩ := hquiet
  obtain ⟨m, hm, -, hperm⟩ := h.issued
  have hcount := h.issued_length hperm
  have hall : m = strideCount f t s := by
    simp only [hdelayed, hrequests, List.length_nil] at hcount
    cases hstatus : r.status with
    | running =>
        cases hdone : r.task.maybeDone with
        | false =>
            have hrun := h.running hstatus hdone
            simp only [TaskRun.waiting, hsched, hdelayed, hrequests, List.length_nil] at hrun
            omega
        | true =>
            have hlast := h.last hstatus hdone
            omega
    | succeeded =>
        have hsucc := h.succeeded hstatus
        omega
    | errored msg => exact absurd hstatus (hok msg)
  have hreq := h.requested
  rw [hdelayed, hrequests] at hperm
  rw [hrequests] at hreq
  rw [← hall]
  exact ⟨hreq.trans hperm, hperm⟩

end Accounts

end Controller
end Shulcrum
