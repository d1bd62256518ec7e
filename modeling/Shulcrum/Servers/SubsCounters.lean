import Mathlib.Algebra.BigOperators.Group.Finset.Piecewise
import Mathlib.Data.Set.Card
import Mathlib.Tactic
import Shulcrum.Lib.Invariant
import Shulcrum.SubsMgr.Model

/-!
# The subscription counters of clients and addresses

The managers know which client is registered for which key.  The servers keep
two counters beside them: the number of subscriptions of every client, and for
every address the number of subscriptions of all its clients, which the limit
is about.  Clients of one address may live in several threads, so that the
atomic parts of their requests interleave.  A client lives in one thread: its
requests, the handlers of its signals and its destruction exclude each other.

A handler of `unsubscribeRequested` takes its client out of the DSProof manager
and leaves both counters as they are.

**Results.**
* `ClientStep`: what a step of a client does to the counters, `ClientStep.sum`
  and `ClientStep.count` what it keeps.
* `perIP_exact`: in every run the counter of an address is the sum of those of
  its clients.
* `counters_exact`: in the runs without a forced unsubscribe of a registered
  client, the counter of a client is the number of its subscriptions.
-/

namespace Shulcrum
namespace SubsMgr

open Invariant

abbrev Address := Nat

/-- The three managers. -/
inductive Kind where
  | scriptHash
  | dsProof
  | transaction
  deriving DecidableEq, Repr

/-- `useStatusCache`. -/
def Kind.useStatusCache : Kind → Bool
  | .dsProof => false
  | _ => true

/-- `options->maxSubsPerIP` and `PerIPData::isWhitelisted`. -/
structure Limits where
  maxSubsPerIP : Int
  isWhitelisted : Address → Bool

/-- Does `CheckSubsLimit` throw? -/
def Limits.exceeded (limits : Limits) (ip : Address) (nShSubs : Int) : Bool :=
  nShSubs > limits.maxSubsPerIP ∧ limits.isWhitelisted ip = false

/-- Where a request of a client is, between two of its atomic parts. -/
inductive SubsRequest where
  | none
  /-- The first check of the limit is done. -/
  | subscribing (kind : Kind) (key : HashX)
  /-- The client is registered; its own counter comes next, and then that of its address. -/
  | counting (kind : Kind) (key : HashX)
  | countingIP (kind : Kind) (key : HashX)
  /-- The second check failed. -/
  | refusing (kind : Kind) (key : HashX)
  /-- The client is unregistered; its own counter comes next, and then that of its address. -/
  | discounting
  | discountingIP
  deriving DecidableEq, Repr

/-- The managers, and what the servers keep of their clients. -/
structure Counters (σ : Type) where
  mgrs : Kind → Manager σ := fun _ => {}
  clients : Finset ClientId := ∅
  nextId : ClientId := 0
  ip : ClientId → Address := fun _ => 0
  nShSubs : ClientId → Int := fun _ => 0
  perIP : Address → Int := fun _ => 0
  request : ClientId → SubsRequest := fun _ => .none
  /-- The queued calls of the `unsubscribeRequested` handlers. -/
  forced : List (ClientId × HashX) := []

/-- The atomic steps. -/
inductive CountersOp where
  | newClient (ip : Address)
  | subscribe (c : ClientId) (kind : Kind) (key : HashX)
  | unsubscribe (c : ClientId) (kind : Kind) (key : HashX) (now : Int)
  /-- The next part of the request of the client.  The manager may be at its own limit. -/
  | proceed (c : ClientId) (limitReached : Bool) (now : Int)
  | unsubscribeClientsForKeys (keys : Finset HashX) (queued : List (ClientId × HashX))
  | unsubscribeRequested (k : Nat) (now : Int)
  | disconnect (c : ClientId) (held : Kind → List SubRef) (now : Int)

namespace Counters

variable {σ : Type}

def setRequest (s : Counters σ) (c : ClientId) (request : SubsRequest) : Counters σ :=
  { s with request := Function.update s.request c request }

def setMgr (s : Counters σ) (kind : Kind) (m : Manager σ) : Counters σ :=
  { s with mgrs := Function.update s.mgrs kind m }

/-- `c->nShSubs += n`. -/
def addSubs (s : Counters σ) (c : ClientId) (n : Int) : Counters σ :=
  { s with nShSubs := Function.update s.nShSubs c (s.nShSubs c + n) }

/-- `c->perIPData->nShSubs += n`. -/
def addPerIP (s : Counters σ) (c : ClientId) (n : Int) : Counters σ :=
  { s with perIP := Function.update s.perIP (s.ip c) (s.perIP (s.ip c) + n) }

def newClient (s : Counters σ) (ip : Address) : Counters σ :=
  { s with
    clients := insert s.nextId s.clients
    nextId := s.nextId + 1
    ip := Function.update s.ip s.nextId ip
    nShSubs := Function.update s.nShSubs s.nextId 0 }

/-- `impl_generic_subscribe`, up to the first check of the limit. -/
def subscribe (limits : Limits) (s : Counters σ) (c : ClientId) (kind : Kind) (key : HashX) :
    Counters σ :=
  if limits.exceeded (s.ip c) (s.perIP (s.ip c) + 1) then s
  else s.setRequest c (.subscribing kind key)

/-- The manager unregisters the client; the counters follow if it was registered. -/
def leave (s : Counters σ) (c : ClientId) (kind : Kind) (key : HashX) (now : Int) : Counters σ :=
  let result := (s.mgrs kind).unsubscribe c key true now
  (s.setMgr kind result.2).setRequest c (if result.1 then .discounting else .none)

/-- The next part of a request. -/
def proceed (limits : Limits) (s : Counters σ) (c : ClientId) (limitReached : Bool) (now : Int) :
    Option (Counters σ) :=
  match s.request c with
  | .none => none
  | .subscribing kind key =>
      if limitReached then some (s.setRequest c .none)
      else
        let result := (s.mgrs kind).subscribe c key false kind.useStatusCache now
        some ((s.setMgr kind result.2).setRequest c
          (if result.1.1 then .counting kind key else .none))
  | .counting kind key => some ((s.addSubs c 1).setRequest c (.countingIP kind key))
  | .countingIP kind key =>
      let s' := s.addPerIP c 1
      some (s'.setRequest c
        (if limits.exceeded (s.ip c) (s'.perIP (s.ip c)) then .refusing kind key else .none))
  | .refusing kind key => some (s.leave c kind key now)
  | .discounting => some ((s.addSubs c (-1)).setRequest c .discountingIP)
  | .discountingIP => some ((s.addPerIP c (-1)).setRequest c .none)

/-- The handler of the `k`-th queued call. -/
def unsubscribeRequested (s : Counters σ) (c : ClientId) (k : Nat) (key : HashX) (now : Int) :
    Counters σ :=
  { s.setMgr .dsProof ((s.mgrs .dsProof).unsubscribe c key false now).2 with
    forced := s.forced.eraseIdx k }

/-- `on_destructing`, and the handlers of the `destroyed` signal in the managers. -/
def disconnect (s : Counters σ) (c : ClientId) (held : Kind → List SubRef) (now : Int) :
    Counters σ :=
  { s.addPerIP c (- s.nShSubs c) with
    mgrs := fun kind => (s.mgrs kind).destroyClient (held kind) c now
    clients := s.clients.erase c
    forced := s.forced.filter fun p => p.1 ≠ c }

end Counters

section Run

variable {σ : Type} (limits : Limits)

/-- One atomic step. -/
inductive CountersOp.Runs (s : Counters σ) : CountersOp → Counters σ → Prop
  | newClient (ip : Address) : Runs s (.newClient ip) (s.newClient ip)
  | subscribe (c : ClientId) (kind : Kind) (key : HashX) :
      c ∈ s.clients → s.request c = .none →
      Runs s (.subscribe c kind key) (s.subscribe limits c kind key)
  | unsubscribe (c : ClientId) (kind : Kind) (key : HashX) (now : Int) :
      c ∈ s.clients → s.request c = .none →
      Runs s (.unsubscribe c kind key now) (s.leave c kind key now)
  | proceed {t : Counters σ} (c : ClientId) (limitReached : Bool) (now : Int) :
      c ∈ s.clients → s.proceed limits c limitReached now = some t →
      Runs s (.proceed c limitReached now) t
  | unsubscribeClientsForKeys (keys : Finset HashX) (queued : List (ClientId × HashX)) :
      (∀ p, p ∈ queued ↔ p.2 ∈ keys ∧ p ∈ (s.mgrs .dsProof).registered) →
      Runs s (.unsubscribeClientsForKeys keys queued)
        { s.setMgr .dsProof ((s.mgrs .dsProof).unsubscribeClientsForKeys keys) with
          forced := s.forced ++ queued }
  | unsubscribeRequested {c : ClientId} {key : HashX} (k : Nat) (now : Int) :
      s.forced[k]? = some (c, key) → c ∈ s.clients → s.request c = .none →
      Runs s (.unsubscribeRequested k now) (s.unsubscribeRequested c k key now)
  | disconnect (c : ClientId) (held : Kind → List SubRef) (now : Int) :
      c ∈ s.clients → s.request c = .none →
      Runs s (.disconnect c held now) (s.disconnect c held now)

/-- A step of the operations that `P` allows in the state before it. -/
def CountersStep (P : Counters σ → CountersOp → Prop) (s t : Counters σ) : Prop :=
  ∃ op, P s op ∧ op.Runs limits s t

/-- No clients yet. -/
def CountersInit (s : Counters σ) : Prop :=
  (∀ kind, (s.mgrs kind).subs = fun _ => none) ∧ s.clients = ∅ ∧ (s.perIP = fun _ => 0) ∧
    s.request = fun _ => .none

/-- No client that is still registered for the key is unsubscribed by force. -/
def NoneForced (s : Counters σ) : CountersOp → Prop
  | .unsubscribeRequested k _ =>
      ∀ c key, s.forced[k]? = some (c, key) → (c, key) ∉ (s.mgrs .dsProof).registered
  | _ => True

/-- What a request still has to add to the counter of its client. -/
def SubsRequest.owed : SubsRequest → Int
  | .counting _ _ => 1
  | .discounting => -1
  | _ => 0

/-- What it still has to add to the counter of the address, once the client has it. -/
def SubsRequest.owedIP : SubsRequest → Int
  | .countingIP _ _ => 1
  | .discountingIP => -1
  | _ => 0

@[simp] theorem SubsRequest.owed_none : SubsRequest.none.owed = 0 := rfl

@[simp] theorem SubsRequest.owedIP_none : SubsRequest.none.owedIP = 0 := rfl

namespace Counters

/-- The subscriptions of a client in all managers. -/
def subscribedTo (s : Counters σ) (c : ClientId) : Set (Kind × HashX) :=
  {p | (c, p.2) ∈ (s.mgrs p.1).registered}

/-- The part of a client's counter that the counter of its address has. -/
def paid (s : Counters σ) (c : ClientId) : Int := s.nShSubs c - (s.request c).owedIP

/-- The counter of the client follows its subscriptions. -/
def Balanced (s : Counters σ) (c : ClientId) : Prop :=
  (s.subscribedTo c).Finite ∧
    s.nShSubs c + (s.request c).owed = (s.subscribedTo c).ncard

/-- What does not depend on the counters. -/
structure Sound (s : Counters σ) : Prop where
  wf : ∀ kind, (s.mgrs kind).WF
  lt : ∀ c ∈ s.clients, c < s.nextId
  gone : ∀ c, c ∉ s.clients → s.request c = .none ∧ s.subscribedTo c = ∅

/-- The clients of an address. -/
def clientsOf (s : Counters σ) (ip : Address) : Finset ClientId :=
  s.clients.filter fun c => s.ip c = ip

end Counters

/-- What a step of one client does: nothing to the others, and the counter of its address gets
what the client has paid. -/
structure ClientStep (c : ClientId) (s t : Counters σ) : Prop where
  mem : c ∈ s.clients
  clients : t.clients = s.clients
  nextId : t.nextId = s.nextId
  ip : t.ip = s.ip
  wf : ∀ kind, (t.mgrs kind).WF
  others : ∀ c', c' ≠ c → t.nShSubs c' = s.nShSubs c' ∧ t.request c' = s.request c' ∧
    t.subscribedTo c' = s.subscribedTo c'
  perIP : ∀ ip, t.perIP ip = s.perIP ip + if s.ip c = ip then t.paid c - s.paid c else 0

end Run

section Steps

variable {σ : Type} {limits : Limits} {s t : Counters σ} {c : ClientId}

open Counters

theorem mem_subscribedTo {p : Kind × HashX} :
    p ∈ s.subscribedTo c ↔ (c, p.2) ∈ (s.mgrs p.1).registered :=
  Iff.rfl

theorem subscribedTo_congr (h : ∀ kind key, (c, key) ∈ (t.mgrs kind).registered ↔
    (c, key) ∈ (s.mgrs kind).registered) : t.subscribedTo c = s.subscribedTo c := by
  ext p
  exact h p.1 p.2

/-- The subscriptions of a client after a change of one manager. -/
theorem mem_subscribedTo_setMgr {kind : Kind} {m : Manager σ} {p : Kind × HashX} :
    p ∈ (s.setMgr kind m).subscribedTo c ↔
      if p.1 = kind then (c, p.2) ∈ m.registered else p ∈ s.subscribedTo c := by
  simp only [mem_subscribedTo, Counters.setMgr, Function.update_apply]
  split_ifs <;> rfl

/-- A step that moves the request of a client and changes no other counter. -/
theorem ClientStep.setRequest (h : s.Sound) (hc : c ∈ s.clients) {request : SubsRequest}
    (howed : request.owedIP = (s.request c).owedIP) :
    ClientStep c s (s.setRequest c request) := by
  refine ⟨hc, rfl, rfl, rfl, h.wf, ?_, ?_⟩
  · intro c' hne
    exact ⟨rfl, Function.update_of_ne hne _ _, rfl⟩
  · intro ip
    simp [paid, Counters.setRequest, howed]

/-- A step in which a manager registers or unregisters the client. -/
theorem ClientStep.setMgr (h : s.Sound) (hc : c ∈ s.clients) {kind : Kind} {m : Manager σ}
    {request : ClientId → SubsRequest} {forced : List (ClientId × HashX)} (hwf : m.WF)
    (hreg : ∀ p, p.1 ≠ c → (p ∈ m.registered ↔ p ∈ (s.mgrs kind).registered))
    (hrequest : ∀ c', c' ≠ c → request c' = s.request c')
    (howed : (request c).owedIP = (s.request c).owedIP) :
    ClientStep c s { s.setMgr kind m with request := request, forced := forced } := by
  refine ⟨hc, rfl, rfl, rfl, ?_, ?_, ?_⟩
  · intro kind'
    simp only [Counters.setMgr, Function.update_apply]
    split_ifs
    · exact hwf
    · exact h.wf kind'
  · intro c' hne
    refine ⟨rfl, hrequest c' hne, ?_⟩
    ext p
    refine mem_subscribedTo_setMgr.trans ?_
    split_ifs with hkind
    · rw [hreg _ hne, mem_subscribedTo, hkind]
    · rfl
  · intro ip
    simp [paid, Counters.setMgr, howed]

/-- A step that changes the counter of the client, for the address to follow. -/
theorem ClientStep.addSubs (h : s.Sound) (hc : c ∈ s.clients) {n : Int} {request : SubsRequest}
    (howed : request.owedIP = (s.request c).owedIP + n) :
    ClientStep c s ((s.addSubs c n).setRequest c request) := by
  refine ⟨hc, rfl, rfl, rfl, h.wf, ?_, ?_⟩
  · intro c' hne
    exact ⟨Function.update_of_ne hne _ _, Function.update_of_ne hne _ _, rfl⟩
  · intro ip
    simp [paid, Counters.setRequest, Counters.addSubs, howed]

/-- A step that changes the counter of the address. -/
theorem ClientStep.addPerIP (h : s.Sound) (hc : c ∈ s.clients) {n : Int}
    {request : SubsRequest} (howed : request.owedIP + n = (s.request c).owedIP) :
    ClientStep c s ((s.addPerIP c n).setRequest c request) := by
  refine ⟨hc, rfl, rfl, rfl, h.wf, ?_, ?_⟩
  · intro c' hne
    exact ⟨rfl, Function.update_of_ne hne _ _, rfl⟩
  · intro ip
    simp only [paid, Counters.setRequest, Counters.addPerIP, Function.update_self,
      Function.update_apply, ← howed]
    split_ifs with h₁ h₂ h₂
    · rw [h₁]
      ring
    · exact absurd h₁.symm h₂
    · exact absurd h₂.symm h₁
    · ring

/-- Unregistering a client changes nothing for the others. -/
theorem registered_unsubscribe_of_ne (h : s.Sound) {kind : Kind} {key : HashX} {updateTS : Bool}
    {now : Int} (p : ClientId × HashX) (hne : p.1 ≠ c) :
    p ∈ ((s.mgrs kind).unsubscribe c key updateTS now).2.registered ↔
      p ∈ (s.mgrs kind).registered := by
  rw [Manager.registered_unsubscribe (h.wf kind)]
  exact ⟨And.left, fun hp => ⟨hp, fun hpair => hne (congrArg Prod.fst hpair)⟩⟩

theorem ClientStep.leave (h : s.Sound) (hc : c ∈ s.clients) {kind : Kind} {key : HashX}
    {now : Int} (howed : (s.request c).owedIP = 0) : ClientStep c s (s.leave c kind key now) := by
  refine ClientStep.setMgr h hc (h.wf kind).unsubscribe (registered_unsubscribe_of_ne h)
    (fun c' hne => Function.update_of_ne hne _ _) ?_
  rw [Function.update_self, howed]
  split_ifs <;> rfl

theorem ClientStep.unsubscribeRequested (h : s.Sound) (hc : c ∈ s.clients) {k : Nat}
    {key : HashX} {now : Int} : ClientStep c s (s.unsubscribeRequested c k key now) :=
  ClientStep.setMgr h hc (h.wf _).unsubscribe (registered_unsubscribe_of_ne h)
    (fun _ _ => rfl) rfl

theorem ClientStep.proceed (h : s.Sound) (hc : c ∈ s.clients) {limitReached : Bool} {now : Int}
    (ht : s.proceed limits c limitReached now = some t) : ClientStep c s t := by
  unfold Counters.proceed at ht
  cases hreq : s.request c with
  | none =>
      rw [hreq] at ht
      cases ht
  | subscribing kind key =>
      simp only [hreq] at ht
      cases limitReached with
      | true =>
          cases ht
          exact ClientStep.setRequest h hc (by rw [hreq]; rfl)
      | false =>
          cases ht
          refine ClientStep.setMgr h hc (h.wf kind).subscribe ?_
            (fun c' hne => Function.update_of_ne hne _ _) ?_
          · intro p hne
            rw [(Manager.registered_subscribe (h.wf kind)).2]
            exact ⟨fun hp => hp.resolve_left fun hpair => hne (congrArg Prod.fst hpair), .inr⟩
          · rw [Function.update_self, hreq]
            split_ifs <;> rfl
  | counting kind key =>
      simp only [hreq] at ht
      cases ht
      exact ClientStep.addSubs h hc (by rw [hreq]; rfl)
  | countingIP kind key =>
      simp only [hreq] at ht
      cases ht
      refine ClientStep.addPerIP h hc ?_
      rw [hreq]
      split_ifs <;> rfl
  | refusing kind key =>
      simp only [hreq] at ht
      cases ht
      exact ClientStep.leave h hc (by rw [hreq]; rfl)
  | discounting =>
      simp only [hreq] at ht
      cases ht
      exact ClientStep.addSubs h hc (by rw [hreq]; rfl)
  | discountingIP =>
      simp only [hreq] at ht
      cases ht
      exact ClientStep.addPerIP h hc (by rw [hreq]; rfl)

/-! ## What a step of a client keeps -/

theorem ClientStep.sound (h : s.Sound) (hst : ClientStep c s t) : t.Sound := by
  refine ⟨hst.wf, ?_, ?_⟩
  · rw [hst.clients, hst.nextId]
    exact h.lt
  · intro c' hc'
    rw [hst.clients] at hc'
    have hne : c' ≠ c := by
      rintro rfl
      exact hc' hst.mem
    obtain ⟨-, hreq, hsub⟩ := hst.others c' hne
    rw [hreq, hsub]
    exact h.gone c' hc'

/-- A sum in which one summand changes. -/
theorem sum_of_changed {clients : Finset ClientId} {f g : ClientId → Int} (hc : c ∈ clients)
    (heq : ∀ c', c' ≠ c → g c' = f c') :
    ∑ c' ∈ clients, g c' = ∑ c' ∈ clients, f c' + (g c - f c) := by
  have hf := Finset.add_sum_erase clients f hc
  have hg := Finset.add_sum_erase clients g hc
  have hrest : ∑ c' ∈ clients.erase c, g c' = ∑ c' ∈ clients.erase c, f c' :=
    Finset.sum_congr rfl fun c' hc' => heq c' (Finset.ne_of_mem_erase hc')
  linarith

theorem ClientStep.sum (hst : ClientStep c s t)
    (h : ∀ ip, s.perIP ip = ∑ c ∈ s.clientsOf ip, s.paid c) (ip : Address) :
    t.perIP ip = ∑ c ∈ t.clientsOf ip, t.paid c := by
  have hpaid : ∀ c', c' ≠ c → t.paid c' = s.paid c' := by
    intro c' hne
    obtain ⟨hsubs, hreq, -⟩ := hst.others c' hne
    rw [paid, paid, hsubs, hreq]
  have hclients : t.clientsOf ip = s.clientsOf ip := by
    rw [clientsOf, clientsOf, hst.clients, hst.ip]
  rw [hst.perIP, h, hclients]
  split_ifs with hip
  · exact (sum_of_changed (Finset.mem_filter.mpr ⟨hst.mem, hip⟩) hpaid).symm
  · rw [add_zero]
    refine Finset.sum_congr rfl fun c' hc' => (hpaid c' ?_).symm
    rintro rfl
    exact hip (Finset.mem_filter.mp hc').2

theorem ClientStep.balanced (hst : ClientStep c s t) (hc : s.Balanced c → t.Balanced c)
    (h : ∀ c ∈ s.clients, s.Balanced c) : ∀ c ∈ t.clients, t.Balanced c := by
  intro c' hc'
  rw [hst.clients] at hc'
  by_cases heq : c' = c
  · rw [heq]
    exact hc (h c hst.mem)
  · obtain ⟨hsubs, hreq, hsub⟩ := hst.others c' heq
    rw [Counters.Balanced, hsubs, hreq, hsub]
    exact h c' hc'

/-! ## The counter of a client -/

theorem subscribedTo_unsubscribe (h : s.Sound) {kind : Kind} {key : HashX} {updateTS : Bool}
    {now : Int} :
    (s.setMgr kind ((s.mgrs kind).unsubscribe c key updateTS now).2).subscribedTo c =
      s.subscribedTo c \ {(kind, key)} := by
  ext ⟨kind', key'⟩
  rw [mem_subscribedTo_setMgr, Set.mem_sdiff, Set.mem_singleton_iff]
  by_cases hkind : kind' = kind
  · subst hkind
    simp [Manager.registered_unsubscribe (h.wf kind'), mem_subscribedTo]
  · simp [hkind]

theorem subscribedTo_subscribe (h : s.Sound) {kind : Kind} {key : HashX} {useCache : Bool}
    {now : Int} :
    (s.setMgr kind ((s.mgrs kind).subscribe c key false useCache now).2).subscribedTo c =
      insert (kind, key) (s.subscribedTo c) := by
  ext ⟨kind', key'⟩
  rw [mem_subscribedTo_setMgr, Set.mem_insert_iff]
  by_cases hkind : kind' = kind
  · subst hkind
    simp [(Manager.registered_subscribe (h.wf kind')).2, mem_subscribedTo]
  · simp [hkind]

/-- The client leaves; its counter follows if it was registered. -/
theorem balanced_leave (h : s.Sound) {kind : Kind} {key : HashX} {now : Int}
    (howed : (s.request c).owed = 0) (hb : s.Balanced c) : (s.leave c kind key now).Balanced c := by
  obtain ⟨hfin, hcount⟩ := hb
  rw [howed, add_zero] at hcount
  have hset : (s.leave c kind key now).subscribedTo c = s.subscribedTo c \ {(kind, key)} :=
    subscribedTo_unsubscribe h
  refine ⟨hset ▸ hfin.sdiff, ?_⟩
  rw [hset]
  simp only [Counters.leave, Counters.setRequest, Counters.setMgr, Function.update_self]
  by_cases hmem : (kind, key) ∈ s.subscribedTo c
  · rw [if_pos (Manager.unsubscribe_fst.mpr hmem), hcount,
      ← Set.ncard_sdiff_singleton_add_one hmem hfin]
    simp [SubsRequest.owed]
  · rw [if_neg fun htrue => hmem (Manager.unsubscribe_fst.mp htrue), hcount,
      Set.sdiff_singleton_eq_self hmem]
    simp [SubsRequest.owed]

/-- Nothing but counters changes, and they change together. -/
theorem balanced_of_eq (hb : s.Balanced c) (hset : t.subscribedTo c = s.subscribedTo c)
    (hcount : t.nShSubs c + (t.request c).owed = s.nShSubs c + (s.request c).owed) :
    t.Balanced c := by
  rw [Counters.Balanced, hset, hcount]
  exact hb

/-- The manager registers the client; its counter follows if it was not registered. -/
theorem balanced_subscribe (h : s.Sound) {kind : Kind} {key : HashX} {useCache : Bool} {now : Int}
    (howed : (s.request c).owed = 0) (hb : s.Balanced c) :
    ((s.setMgr kind ((s.mgrs kind).subscribe c key false useCache now).2).setRequest c
      (if ((s.mgrs kind).subscribe c key false useCache now).1.1 then .counting kind key
        else .none)).Balanced c := by
  obtain ⟨hfin, hcount⟩ := hb
  rw [howed, add_zero] at hcount
  refine ⟨(subscribedTo_subscribe h).symm ▸ hfin.insert _, ?_⟩
  refine Eq.trans ?_ (congrArg (fun set => (Set.ncard set : Int)) (subscribedTo_subscribe h).symm)
  simp only [Counters.setRequest, Counters.setMgr, Function.update_self]
  by_cases hmem : (kind, key) ∈ s.subscribedTo c
  · rw [if_neg fun htrue => (Manager.registered_subscribe (h.wf kind)).1.mp htrue hmem, hcount,
      Set.insert_eq_of_mem hmem]
    simp [SubsRequest.owed]
  · rw [if_pos ((Manager.registered_subscribe (h.wf kind)).1.mpr hmem), hcount,
      Set.ncard_insert_of_notMem hmem hfin]
    simp [SubsRequest.owed]

theorem balanced_proceed (h : s.Sound) {limitReached : Bool} {now : Int}
    (ht : s.proceed limits c limitReached now = some t) (hb : s.Balanced c) : t.Balanced c := by
  unfold Counters.proceed at ht
  cases hreq : s.request c with
  | none =>
      rw [hreq] at ht
      cases ht
  | subscribing kind key =>
      simp only [hreq] at ht
      cases limitReached with
      | true =>
          cases ht
          exact balanced_of_eq hb rfl (by simp [Counters.setRequest, hreq, SubsRequest.owed])
      | false =>
          cases ht
          exact balanced_subscribe h (by rw [hreq]; rfl) hb
  | counting kind key =>
      simp only [hreq] at ht
      cases ht
      refine balanced_of_eq hb rfl ?_
      simp [Counters.setRequest, Counters.addSubs, hreq, SubsRequest.owed]
  | countingIP kind key =>
      simp only [hreq] at ht
      cases ht
      refine balanced_of_eq hb rfl ?_
      simp only [Counters.setRequest, Counters.addPerIP, Function.update_self, hreq]
      split_ifs <;> rfl
  | refusing kind key =>
      simp only [hreq] at ht
      cases ht
      exact balanced_leave h (by rw [hreq]; rfl) hb
  | discounting =>
      simp only [hreq] at ht
      cases ht
      refine balanced_of_eq hb rfl ?_
      simp [Counters.setRequest, Counters.addSubs, hreq, SubsRequest.owed]
  | discountingIP =>
      simp only [hreq] at ht
      cases ht
      refine balanced_of_eq hb rfl ?_
      simp [Counters.setRequest, Counters.addPerIP, hreq, SubsRequest.owed]

/-- The handler of a client that is no longer registered. -/
theorem balanced_unsubscribeRequested {k : Nat} {key : HashX} {now : Int}
    (hno : (c, key) ∉ (s.mgrs .dsProof).registered) (hb : s.Balanced c) :
    (s.unsubscribeRequested c k key now).Balanced c := by
  refine balanced_of_eq hb ?_ rfl
  rcases (s.mgrs .dsProof).unsubscribe_cases c key false now with ⟨-, heq⟩ | ⟨r, hr, hc, -⟩
  · refine subscribedTo_congr fun kind key' => ?_
    simp only [Counters.unsubscribeRequested, Counters.setMgr, heq, Function.update_eq_self]
  · exact absurd ⟨r, hr, hc⟩ hno

/-- The handler of a registered client breaks the balance. -/
theorem not_balanced_unsubscribeRequested (h : s.Sound) (k : Nat) (key : HashX) (now : Int)
    (hreg : (c, key) ∈ (s.mgrs .dsProof).registered) (hb : s.Balanced c) :
    ¬ (s.unsubscribeRequested c k key now).Balanced c := by
  rintro ⟨-, hcount⟩
  have hset : (s.unsubscribeRequested c k key now).subscribedTo c =
      s.subscribedTo c \ {(.dsProof, key)} := subscribedTo_unsubscribe h
  have hold : s.nShSubs c + (s.request c).owed =
      ((s.subscribedTo c \ {(.dsProof, key)}).ncard : Int) := hset ▸ hcount
  have hmem : (Kind.dsProof, key) ∈ s.subscribedTo c := hreg
  rw [hb.2, ← Set.ncard_sdiff_singleton_add_one hmem hb.1] at hold
  push_cast at hold
  linarith

/-! ## Clients come and go -/

theorem Counters.Sound.newClient (h : s.Sound) (ip : Address) : (s.newClient ip).Sound := by
  refine ⟨h.wf, ?_, ?_⟩
  · intro c hc
    rcases Finset.mem_insert.mp hc with rfl | hold
    · exact Nat.lt_succ_self _
    · exact Nat.lt_succ_of_lt (h.lt c hold)
  · intro c hc
    exact h.gone c fun hold => hc (Finset.mem_insert_of_mem hold)

theorem Counters.Sound.nextId_notMem (h : s.Sound) : s.nextId ∉ s.clients :=
  fun hmem => Nat.lt_irrefl _ (h.lt _ hmem)

theorem sum_newClient (h : s.Sound) (ip : Address)
    (hsum : ∀ i, s.perIP i = ∑ c ∈ s.clientsOf i, s.paid c) (i : Address) :
    (s.newClient ip).perIP i = ∑ c ∈ (s.newClient ip).clientsOf i, (s.newClient ip).paid c := by
  have hzero : (s.newClient ip).paid s.nextId = 0 := by
    simp [paid, Counters.newClient, (h.gone _ h.nextId_notMem).1, SubsRequest.owedIP]
  have hold : ∀ c ∈ s.clients, (s.newClient ip).ip c = s.ip c ∧
      (s.newClient ip).paid c = s.paid c := by
    intro c hc
    have hne : c ≠ s.nextId := (h.lt c hc).ne
    exact ⟨Function.update_of_ne hne _ _, by
      simp [paid, Counters.newClient, Function.update_of_ne hne]⟩
  have hpart : (s.newClient ip).perIP i = s.perIP i := rfl
  rw [hpart, hsum, clientsOf, clientsOf, Finset.sum_filter, Finset.sum_filter]
  have hinsert : (s.newClient ip).clients = insert s.nextId s.clients := rfl
  rw [hinsert, Finset.sum_insert h.nextId_notMem, hzero, ite_self, zero_add]
  refine Finset.sum_congr rfl fun c hc => ?_
  rw [(hold c hc).1, (hold c hc).2]

theorem balanced_newClient (h : s.Sound) (ip : Address) (hb : ∀ c ∈ s.clients, s.Balanced c) :
    ∀ c ∈ (s.newClient ip).clients, (s.newClient ip).Balanced c := by
  intro c hc
  by_cases heq : c = s.nextId
  · obtain ⟨hreq, hset⟩ := h.gone _ h.nextId_notMem
    have hempty : (s.newClient ip).subscribedTo c = ∅ := heq ▸ hset
    refine ⟨hempty ▸ Set.finite_empty, ?_⟩
    rw [hempty, heq]
    simp [Counters.newClient, hreq, SubsRequest.owed]
  · refine balanced_of_eq (hb c ((Finset.mem_insert.mp hc).resolve_left heq)) rfl ?_
    simp [Counters.newClient, Function.update_of_ne heq]

theorem subscribedTo_disconnect (h : s.Sound) {held : Kind → List SubRef} {now : Int}
    {c' : ClientId} :
    (s.disconnect c held now).subscribedTo c' = if c' = c then ∅ else s.subscribedTo c' := by
  ext p
  refine (Manager.registered_destroyClient (h.wf p.1) (held p.1) (c', p.2)).trans ?_
  split_ifs with heq
  · simp [heq]
  · simp [heq, mem_subscribedTo]

theorem Counters.Sound.disconnect (h : s.Sound) (hreq : s.request c = .none)
    (held : Kind → List SubRef) (now : Int) : (s.disconnect c held now).Sound := by
  refine ⟨fun kind => (h.wf kind).destroyClient _, ?_, ?_⟩
  · intro c' hc'
    exact h.lt c' (Finset.mem_of_mem_erase hc')
  · intro c' hc'
    rw [subscribedTo_disconnect h]
    by_cases heq : c' = c
    · exact ⟨heq ▸ hreq, if_pos heq⟩
    · rw [if_neg heq]
      exact h.gone c' fun hold => hc' (Finset.mem_erase.mpr ⟨heq, hold⟩)

theorem sum_disconnect (hc : c ∈ s.clients) (hreq : s.request c = .none)
    (held : Kind → List SubRef) (now : Int)
    (hsum : ∀ i, s.perIP i = ∑ c ∈ s.clientsOf i, s.paid c) (i : Address) :
    (s.disconnect c held now).perIP i =
      ∑ c' ∈ (s.disconnect c held now).clientsOf i, (s.disconnect c held now).paid c' := by
  have hpaid : s.paid c = s.nShSubs c := by
    simp [paid, hreq, SubsRequest.owedIP]
  have hperIP : (s.disconnect c held now).perIP i =
      s.perIP i - if s.ip c = i then s.paid c else 0 := by
    simp only [Counters.disconnect, Counters.addPerIP, Function.update_apply, hpaid]
    by_cases hip : s.ip c = i
    · rw [if_pos hip.symm, if_pos hip, hip, sub_eq_add_neg]
    · rw [if_neg fun heq => hip heq.symm, if_neg hip, sub_zero]
  have herase : ∑ c' ∈ (s.disconnect c held now).clientsOf i, s.paid c' =
      ∑ c' ∈ s.clients.erase c, if s.ip c' = i then s.paid c' else 0 :=
    Finset.sum_filter _ _
  have hall := Finset.add_sum_erase s.clients (fun c' => if s.ip c' = i then s.paid c' else 0) hc
  have hpart := hsum i
  rw [clientsOf, Finset.sum_filter] at hpart
  calc (s.disconnect c held now).perIP i
      = ∑ c' ∈ s.clients.erase c, (if s.ip c' = i then s.paid c' else 0) := by linarith
    _ = ∑ c' ∈ (s.disconnect c held now).clientsOf i, s.paid c' := herase.symm

theorem balanced_disconnect (h : s.Sound) (held : Kind → List SubRef) (now : Int)
    (hb : ∀ c ∈ s.clients, s.Balanced c) :
    ∀ c' ∈ (s.disconnect c held now).clients, (s.disconnect c held now).Balanced c' := by
  intro c' hc'
  obtain ⟨hne, hold⟩ := Finset.mem_erase.mp hc'
  exact balanced_of_eq (hb c' hold) ((subscribedTo_disconnect h).trans (if_neg hne)) rfl

/-- The signals of `unsubscribeClientsForKeys` change no subscription. -/
theorem subscribedTo_unsubscribeClientsForKeys (keys : Finset HashX) :
    (s.setMgr .dsProof ((s.mgrs .dsProof).unsubscribeClientsForKeys keys)).subscribedTo c =
      s.subscribedTo c := by
  have hreg : ((s.mgrs .dsProof).unsubscribeClientsForKeys keys).registered =
      (s.mgrs .dsProof).registered :=
    Manager.registered_congr rfl fun _ r _ =>
      Manager.subscribedClientIds_unsubscribeClientsForKeys keys r
  ext p
  rw [mem_subscribedTo_setMgr, hreg]
  split_ifs with hkind
  · rw [mem_subscribedTo, hkind]
  · rfl

theorem Counters.Sound.unsubscribeClientsForKeys (h : s.Sound) (keys : Finset HashX)
    (forced : List (ClientId × HashX)) :
    Counters.Sound
      { s.setMgr .dsProof ((s.mgrs .dsProof).unsubscribeClientsForKeys keys) with
        forced := forced } := by
  refine ⟨?_, h.lt, ?_⟩
  · intro kind
    simp only [Counters.setMgr, Function.update_apply]
    split_ifs
    · exact (h.wf _).unsubscribeClientsForKeys keys
    · exact h.wf kind
  · intro c hc
    obtain ⟨hreq, hset⟩ := h.gone c hc
    exact ⟨hreq, (subscribedTo_unsubscribeClientsForKeys keys).trans hset⟩

/-! ## Runs -/

/-- The first part of `subscribe` moves the request, or leaves it. -/
theorem subscribe_eq (limits : Limits) (kind : Kind) (key : HashX) (hreq : s.request c = .none) :
    ∃ request : SubsRequest, request.owed = 0 ∧ request.owedIP = 0 ∧
      s.subscribe limits c kind key = s.setRequest c request := by
  unfold Counters.subscribe
  split_ifs
  · refine ⟨.none, rfl, rfl, ?_⟩
    rw [Counters.setRequest, ← hreq, Function.update_eq_self]
  · exact ⟨.subscribing kind key, rfl, rfl, rfl⟩

/-- Every step is a step of one client, or a client comes or goes, or signals are queued. -/
theorem CountersOp.Runs.cases (h : s.Sound) {op : CountersOp} (ht : op.Runs limits s t) :
    (∃ c, ClientStep c s t ∧ (NoneForced s op → s.Balanced c → t.Balanced c)) ∨
      (∃ ip, t = s.newClient ip) ∨
      (∃ c held now, c ∈ s.clients ∧ s.request c = .none ∧ t = s.disconnect c held now) ∨
      ∃ keys forced, t =
        { s.setMgr .dsProof ((s.mgrs .dsProof).unsubscribeClientsForKeys keys) with
          forced := forced } := by
  cases ht with
  | newClient ip => exact .inr (.inl ⟨ip, rfl⟩)
  | subscribe c kind key hc hreq =>
      obtain ⟨request, howed, howedIP, heq⟩ := subscribe_eq limits kind key hreq
      rw [heq]
      refine .inl ⟨c, .setRequest h hc ?_, fun _ hb => balanced_of_eq hb rfl ?_⟩
      · rw [howedIP, hreq, SubsRequest.owedIP_none]
      · simp [Counters.setRequest, howed, hreq]
  | unsubscribe c kind key now hc hreq =>
      exact .inl ⟨c, .leave h hc (by rw [hreq]; rfl),
        fun _ => balanced_leave h (by rw [hreq]; rfl)⟩
  | proceed c limitReached now hc ht =>
      exact .inl ⟨c, .proceed h hc ht, fun _ => balanced_proceed h ht⟩
  | unsubscribeClientsForKeys keys queued _ => exact .inr (.inr (.inr ⟨keys, _, rfl⟩))
  | @unsubscribeRequested c key k now hk hc hreq =>
      exact .inl ⟨c, .unsubscribeRequested h hc,
        fun hnone => balanced_unsubscribeRequested (hnone c key hk)⟩
  | disconnect c held now hc hreq => exact .inr (.inr (.inl ⟨c, held, now, hc, hreq, rfl⟩))

theorem Counters.Sound.step (h : s.Sound) {op : CountersOp} (ht : op.Runs limits s t) :
    t.Sound := by
  rcases ht.cases h with
    ⟨c, hst, -⟩ | ⟨ip, rfl⟩ | ⟨c, held, now, -, hreq, rfl⟩ |
    ⟨keys, forced, rfl⟩
  · exact hst.sound h
  · exact h.newClient ip
  · exact h.disconnect hreq held now
  · exact h.unsubscribeClientsForKeys keys forced

theorem sum_step (h : s.Sound) {op : CountersOp} (ht : op.Runs limits s t)
    (hsum : ∀ ip, s.perIP ip = ∑ c ∈ s.clientsOf ip, s.paid c) :
    ∀ ip, t.perIP ip = ∑ c ∈ t.clientsOf ip, t.paid c := by
  rcases ht.cases h with
    ⟨c, hst, -⟩ | ⟨ip, rfl⟩ | ⟨c, held, now, hc, hreq, rfl⟩ |
    ⟨keys, forced, rfl⟩
  · exact hst.sum hsum
  · exact sum_newClient h ip hsum
  · exact sum_disconnect hc hreq held now hsum
  · exact hsum

theorem balanced_step (h : s.Sound) {op : CountersOp} (hnone : NoneForced s op)
    (ht : op.Runs limits s t) (hb : ∀ c ∈ s.clients, s.Balanced c) :
    ∀ c ∈ t.clients, t.Balanced c := by
  rcases ht.cases h with
    ⟨c, hst, hkeep⟩ | ⟨ip, rfl⟩ | ⟨c, held, now, -, -, rfl⟩ |
    ⟨keys, forced, rfl⟩
  · exact hst.balanced (hkeep hnone) hb
  · exact balanced_newClient h ip hb
  · exact balanced_disconnect h held now hb
  · intro c hc
    exact balanced_of_eq (hb c hc) (subscribedTo_unsubscribeClientsForKeys keys) rfl

theorem sound_of_init (h : CountersInit s) : s.Sound := by
  obtain ⟨hsubs, hclients, -, hrequest⟩ := h
  refine ⟨fun kind => ⟨?_, ?_⟩, ?_, ?_⟩
  · simp [hsubs]
  · simp [hsubs]
  · simp [hclients]
  · intro c _
    refine ⟨by rw [hrequest], ?_⟩
    ext p
    simp [mem_subscribedTo, Manager.mem_registered, hsubs]

theorem sum_of_init (h : CountersInit s) (ip : Address) :
    s.perIP ip = ∑ c ∈ s.clientsOf ip, s.paid c := by
  obtain ⟨-, hclients, hperIP, -⟩ := h
  simp [clientsOf, hclients, hperIP]

/-- In every run the counter of an address has what its clients have paid. -/
theorem perIP_exact {P : Counters σ → CountersOp → Prop}
    (hs : Reachable CountersInit (CountersStep limits P) s) :
    s.Sound ∧ ∀ ip, s.perIP ip = ∑ c ∈ s.clientsOf ip, s.paid c := by
  refine hs.invariant
    (I := fun s => s.Sound ∧ ∀ ip, s.perIP ip = ∑ c ∈ s.clientsOf ip, s.paid c)
    (fun s h => ⟨sound_of_init h, sum_of_init h⟩) ?_
  rintro s t ⟨hsound, hsum⟩ ⟨op, -, hop⟩
  exact ⟨hsound.step hop, sum_step hsound hop hsum⟩

/-- The counters of the clients are right in the runs without forced unsubscribes. -/
theorem balanced_of_reachable
    (hs : Reachable CountersInit (CountersStep limits NoneForced) s) :
    s.Sound ∧ ∀ c ∈ s.clients, s.Balanced c := by
  refine hs.invariant (I := fun s => s.Sound ∧ ∀ c ∈ s.clients, s.Balanced c)
    (fun s h => ⟨sound_of_init h, by simp [h.2.1]⟩) ?_
  rintro s t ⟨hsound, hb⟩ ⟨op, hnone, hop⟩
  exact ⟨hsound.step hop, balanced_step hsound hnone hop hb⟩

/--
In every run in which no registered client is unsubscribed by force: the
counter of a client without a request in flight is the number of its
subscriptions in the three managers, and the counter of an address none of whose
clients has a request in flight is the sum of theirs.
-/
theorem counters_exact (hs : Reachable CountersInit (CountersStep limits NoneForced) s) :
    (∀ c ∈ s.clients, s.request c = .none →
        (s.subscribedTo c).Finite ∧ s.nShSubs c = (s.subscribedTo c).ncard) ∧
      ∀ ip, (∀ c ∈ s.clients, s.ip c = ip → s.request c = .none) →
        s.perIP ip = ∑ c ∈ s.clients with s.ip c = ip, s.nShSubs c := by
  constructor
  · intro c hc hreq
    obtain ⟨hfin, hcount⟩ := (balanced_of_reachable hs).2 c hc
    rw [hreq, SubsRequest.owed_none, add_zero] at hcount
    exact ⟨hfin, hcount⟩
  · intro ip hidle
    rw [(perIP_exact hs).2 ip]
    refine Finset.sum_congr rfl fun c hc => ?_
    obtain ⟨hmem, hip⟩ := Finset.mem_filter.mp hc
    rw [paid, hidle c hmem hip, SubsRequest.owedIP_none, sub_zero]

end Steps

theorem countersInit_empty : CountersInit ({} : Counters Nat) :=
  ⟨fun _ => rfl, rfl, rfl, rfl⟩

/-- The default limit, and nobody on the white list. -/
def defaultLimits : Limits := { maxSubsPerIP := 75000, isWhitelisted := fun _ => false }

theorem wf_empty : ({} : Manager Nat).WF := ⟨by simp, by simp⟩

theorem registered_empty : ({} : Manager Nat).registered = ∅ := by
  ext p
  simp [Manager.mem_registered]

/-- The clients that are registered after the first one has subscribed. -/
theorem queued_first (p : ClientId × HashX) : p ∈ [((0 : ClientId), (7 : HashX))] ↔
    p.2 ∈ ({7} : Finset HashX) ∧
      p ∈ (({} : Manager Nat).subscribe 0 7 false false 0).2.registered := by
  rw [(Manager.registered_subscribe wf_empty).2 p, registered_empty, List.mem_singleton,
    Finset.mem_singleton]
  simp only [Set.mem_empty_iff_false, or_false]
  exact ⟨fun hp => ⟨by rw [hp], hp⟩, And.right⟩

/-- The first client leaves before it is unsubscribed by force, and the second one stays. -/
theorem counters_exact_forced :
    ∃ s : Counters Nat, s.clients = {0, 1} ∧ s.nShSubs 0 = 0 ∧ s.nShSubs 1 = 1 ∧
      (∀ c ∈ s.clients, s.request c = .none →
        (s.subscribedTo c).Finite ∧ s.nShSubs c = (s.subscribedTo c).ncard) ∧
      ∀ ip, (∀ c ∈ s.clients, s.ip c = ip → s.request c = .none) →
        s.perIP ip = ∑ c ∈ s.clients with s.ip c = ip, s.nShSubs c := by
  have hsubscribed : Reachable CountersInit (CountersStep defaultLimits NoneForced) _ :=
    .next (.next (.next (.next (.next (.next (.start countersInit_empty)
      ⟨.newClient 5, trivial, .newClient 5⟩)
      ⟨.newClient 5, trivial, .newClient 5⟩)
      ⟨.subscribe 0 .dsProof 7, trivial, .subscribe 0 .dsProof 7 (by decide) rfl⟩)
      ⟨.proceed 0 false 0, trivial, .proceed 0 false 0 (by decide) rfl⟩)
      ⟨.proceed 0 false 0, trivial, .proceed 0 false 0 (by decide) rfl⟩)
      ⟨.proceed 0 false 0, trivial, .proceed 0 false 0 (by decide) rfl⟩
  have hleft : Reachable CountersInit (CountersStep defaultLimits NoneForced) _ :=
    .next (.next (.next (.next hsubscribed
      ⟨.unsubscribeClientsForKeys {7} [(0, 7)], trivial,
        .unsubscribeClientsForKeys {7} [(0, 7)] queued_first⟩)
      ⟨.unsubscribe 0 .dsProof 7 0, trivial, .unsubscribe 0 .dsProof 7 0 (by decide) rfl⟩)
      ⟨.proceed 0 false 0, trivial, .proceed 0 false 0 (by decide) rfl⟩)
      ⟨.proceed 0 false 0, trivial, .proceed 0 false 0 (by decide) rfl⟩
  have hsecond : Reachable CountersInit (CountersStep defaultLimits NoneForced) _ :=
    .next (.next (.next (.next hleft
      ⟨.subscribe 1 .dsProof 7, trivial, .subscribe 1 .dsProof 7 (by decide) rfl⟩)
      ⟨.proceed 1 false 0, trivial, .proceed 1 false 0 (by decide) rfl⟩)
      ⟨.proceed 1 false 0, trivial, .proceed 1 false 0 (by decide) rfl⟩)
      ⟨.proceed 1 false 0, trivial, .proceed 1 false 0 (by decide) rfl⟩
  obtain ⟨s, hrun, hclients, hzero, hone⟩ : ∃ s : Counters Nat,
      Reachable CountersInit (CountersStep defaultLimits NoneForced) s ∧
        s.clients = {0, 1} ∧ s.nShSubs 0 = 0 ∧ s.nShSubs 1 = 1 := by
    refine ⟨_, hsecond.next ⟨.unsubscribeRequested 0 0, ?_,
      .unsubscribeRequested 0 0 rfl (by decide) rfl⟩, by decide, rfl, rfl⟩
    rintro c key hforced ⟨r, hr, hc⟩
    obtain ⟨rfl, rfl⟩ : (0, 7) = (c, key) := Option.some.inj hforced
    obtain rfl : 0 = r := Option.some.inj hr
    exact absurd hc (by decide)
  exact ⟨s, hclients, hzero, hone, counters_exact hrun⟩

/-- The transaction is gone before the client leaves, and its counter stays at one. -/
theorem forced_unsubscribe_keeps_counter :
    ¬ ∀ s : Counters Nat,
      Reachable CountersInit (CountersStep defaultLimits fun _ _ => True) s →
      (∀ c ∈ s.clients, s.request c = .none →
        (s.subscribedTo c).Finite ∧ s.nShSubs c = (s.subscribedTo c).ncard) ∧
      ∀ ip, (∀ c ∈ s.clients, s.ip c = ip → s.request c = .none) →
        s.perIP ip = ∑ c ∈ s.clients with s.ip c = ip, s.nShSubs c := by
  intro h
  have hsubscribed : Reachable CountersInit (CountersStep defaultLimits NoneForced) _ :=
    .next (.next (.next (.next (.next (.start countersInit_empty)
      ⟨.newClient 5, trivial, .newClient 5⟩)
      ⟨.subscribe 0 .dsProof 7, trivial, .subscribe 0 .dsProof 7 (by decide) rfl⟩)
      ⟨.proceed 0 false 0, trivial, .proceed 0 false 0 (by decide) rfl⟩)
      ⟨.proceed 0 false 0, trivial, .proceed 0 false 0 (by decide) rfl⟩)
      ⟨.proceed 0 false 0, trivial, .proceed 0 false 0 (by decide) rfl⟩
  have hsignalled : Reachable CountersInit (CountersStep defaultLimits NoneForced) _ :=
    .next hsubscribed ⟨.unsubscribeClientsForKeys {7} [(0, 7)], trivial,
      .unsubscribeClientsForKeys {7} [(0, 7)] queued_first⟩
  have hforced : Reachable CountersInit (CountersStep defaultLimits fun _ _ => True) _ :=
    .next (hsignalled.mono fun _ _ ⟨op, _, hop⟩ => ⟨op, trivial, hop⟩)
      ⟨_, trivial, .unsubscribeRequested 0 0 rfl (by decide) rfl⟩
  obtain ⟨hsound, hb⟩ := balanced_of_reachable hsignalled
  refine not_balanced_unsubscribeRequested hsound 0 7 0 ⟨0, rfl, by decide⟩ (hb 0 (by decide)) ?_
  obtain ⟨hfin, hcount⟩ := (h _ hforced).1 0 (by decide) rfl
  exact ⟨hfin, hcount⟩

end SubsMgr
end Shulcrum
