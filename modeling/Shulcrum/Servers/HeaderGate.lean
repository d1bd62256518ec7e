import Shulcrum.Servers.HeaderRun

/-!
# No header of the second layout for an old client

A client below protocol 1.8 takes every header for 80 bytes, so it must not be
sent a header of the second layout.  Notifications check the header in hand.
Requests check the chain when they arrive and read the headers later; the
check is out of date when the chain gets its first v2 header in between.

**Results.**
* `GateInv`: what has been checked stays true in the runs without such a block.
* `header_gate`: in these runs no old client is sent a v2 header.
-/

namespace Shulcrum
namespace Servers

open BTC Merkle Storage Storage.Activation Invariant ServerMisc

/-- The client can read v2 headers. -/
def Capable (s : Server) (i : Nat) : Prop :=
  maxProtocolVersionV2 ≤ (s.clients i).protocolVersion

/-- The chain has no v2 header. -/
def V2Free (headers : List Header) : Prop := ∀ hdr ∈ headers, isHeaderV2 hdr = false

/--
The first v2 header of the chain is not added while a header request of a
client below 1.8 is between its check and its read.
-/
def Settled (s : Server) : Op → Prop
  | .addBlock hdr => hdr.headerV2 = false ∨ ¬ V2Free s.headers ∨
      ∀ p ∈ s.accepted, p.2.sendsHeaders = true → Capable s p.1
  | _ => True

/-- The invariant of the runs with settled steps. -/
structure GateInv (s : Server) : Prop where
  atRest : AtRest s.chain
  fresh : ∀ i, (s.clients i).alreadySentVersion = false →
    (s.clients i).protocolVersion = minProtocolVersion
  accepted : ∀ p ∈ s.accepted, p.2.sendsHeaders = true → V2Free s.headers ∨ Capable s p.1
  fetched : ∀ p ∈ s.fetched, p.2.1.sendsHeaders = true →
    V2Free p.2.2.headers ∨ Capable s p.1
  sent : ∀ e ∈ s.sent, ∀ hdr ∈ e.reply.headers, isHeaderV2 hdr = true →
    maxProtocolVersionV2 ≤ e.version

theorem v2Free_iff {headers : List Header} : V2Free headers ↔ ∀ i, ¬ IsV2At headers i := by
  constructor
  · rintro h i ⟨hdr, hget, hv2⟩
    rw [h hdr (List.mem_of_getElem? hget)] at hv2
    cases hv2
  · intro h hdr hmem
    obtain ⟨i, hi⟩ := List.mem_iff_getElem?.mp hmem
    cases hv2 : isHeaderV2 hdr with
    | false => rfl
    | true => exact absurd ⟨hdr, hi, hv2⟩ (h i)

/-- A check that passes says that the chain has no v2 header or the client reads them. -/
theorem v2Free_or_capable {s : Activation.State} (h : AtRest s) {v : Version}
    (hserve : ProtocolV2.mayServeHeaders s.queryAnswer.isSome v = true) :
    V2Free s.headers ∨ maxProtocolVersionV2 ≤ v := by
  have hact := h.queryAnswer
  cases hans : s.queryAnswer with
  | none =>
      rw [hans] at hact
      exact .inl (v2Free_iff.mpr hact)
  | some a =>
      rw [hans] at hserve
      right
      simpa [ProtocolV2.mayServeHeaders] using hserve

section Steps

variable {headerPoWHash : Header → Hash} {hash : Hash → Hash → Hash} {s t : Server}

/-- Steps that leave the chain as it is and take no request further. -/
theorem GateInv.frame (h : GateInv s) (hchain : AtRest t.chain) (hheaders : t.headers = s.headers)
    (hfresh : ∀ i, (t.clients i).alreadySentVersion = false →
      (t.clients i).protocolVersion = minProtocolVersion)
    (hcap : ∀ i, Capable s i → Capable t i)
    (hacc : ∀ p ∈ t.accepted, p ∈ s.accepted) (hfet : ∀ p ∈ t.fetched, p ∈ s.fetched)
    (hsent : t.sent = s.sent) : GateInv t := by
  refine ⟨hchain, hfresh, ?_, ?_, ?_⟩
  · intro p hp hsends
    rw [hheaders]
    exact (h.accepted p (hacc p hp) hsends).imp_right (hcap _)
  · intro p hp hsends
    exact (h.fetched p (hfet p hp) hsends).imp_right (hcap _)
  · rw [hsent]
    exact h.sent

theorem GateInv.setClient (h : GateInv s) {i : Nat} {c : Client}
    (hver : c.protocolVersion = (s.clients i).protocolVersion)
    (hsent : c.alreadySentVersion = (s.clients i).alreadySentVersion) :
    GateInv (s.setClient i c) := by
  have hclient : ∀ j, ((s.setClient i c).clients j).protocolVersion =
      (s.clients j).protocolVersion ∧ ((s.setClient i c).clients j).alreadySentVersion =
      (s.clients j).alreadySentVersion := by
    intro j
    simp only [Server.setClient, Function.update_apply]
    split_ifs with hj
    · rw [hj]
      exact ⟨hver, hsent⟩
    · exact ⟨rfl, rfl⟩
  refine h.frame h.atRest rfl ?_ ?_ (fun p hp => hp) (fun p hp => hp) rfl
  · intro j hj
    rw [(hclient j).2] at hj
    rw [(hclient j).1]
    exact h.fresh j hj
  · intro j hj
    rw [Capable, (hclient j).1]
    exact hj

theorem GateInv.disconnect (h : GateInv s) (i : Nat) : GateInv (s.disconnect i) :=
  h.setClient rfl rfl

theorem GateInv.fail (h : GateInv s) (i : Nat) (e : RPCError) : GateInv (s.fail i e) := by
  unfold Server.fail
  split_ifs
  · exact h.disconnect i
  · exact h

/-- A reply may be sent when its headers are not v2 or the client reads them. -/
theorem GateInv.send (h : GateInv s) {i : Nat} {reply : Reply}
    (hreply : V2Free reply.headers ∨ Capable s i) : GateInv (s.send i reply) := by
  unfold Server.send
  split_ifs
  · refine ⟨h.atRest, h.fresh, h.accepted, h.fetched, ?_⟩
    intro e he hdr hmem hv2
    rcases List.mem_cons.mp he with rfl | he
    · rcases hreply with hfree | hcap
      · rw [hfree hdr hmem] at hv2
        cases hv2
      · exact hcap
    · exact h.sent e he hdr hmem hv2
  · exact h

theorem GateInv.query (h : GateInv s) : GateInv { s with chain := (query s.chain).2 } := by
  obtain ⟨hrest, hheaders⟩ := h.atRest.query
  exact h.frame hrest hheaders h.fresh (fun i hi => hi) (fun p hp => hp) (fun p hp => hp) rfl

theorem GateInv.version (h : GateInv s) (i : Nat) (arg : Option VersionArg) :
    GateInv (s.version i arg) := by
  have hq := h.query
  simp only [Server.version]
  cases hver : serverVersion (Servers.query s.chain).1.isSome (s.clients i) arg with
  | error e => exact hq.fail i e
  | ok c =>
      obtain ⟨hfirst, hsent, -⟩ := serverVersion_ok hver
      refine hq.frame hq.atRest rfl ?_ ?_ (fun p hp => hp) (fun p hp => hp) rfl
      · intro j hj
        simp only [Server.setClient, Function.update_apply] at hj ⊢
        split_ifs at hj ⊢ with heq
        · rw [hsent] at hj
          cases hj
        · exact h.fresh j hj
      · intro j hj
        simp only [Capable, Server.setClient, Function.update_apply] at hj ⊢
        split_ifs with heq
        · -- a client that has not negotiated is not capable
          rw [heq, h.fresh i hfirst] at hj
          exact absurd hj (by decide)
        · exact hj

theorem GateInv.request (h : GateInv s) (i : Nat) (r : Request) : GateInv (s.request i r) := by
  have hq := h.query
  simp only [Server.request]
  split
  · exact hq.fail i _
  · next job hjob =>
      refine ⟨hq.atRest, hq.fresh, ?_, hq.fetched, hq.sent⟩
      intro p hp hsends
      rcases List.mem_cons.mp hp with rfl | hp
      · have hserve := mayServe_of_accept hjob hsends
        have hcase := v2Free_or_capable h.atRest hserve
        rw [Server.headers, h.atRest.query.2]
        exact hcase
      · exact hq.accepted p hp hsends

theorem GateInv.read (h : GateInv s) {k : Nat} {lookup : Option Nat}
    (ht : s.read k lookup = some t) : GateInv t := by
  unfold Server.read at ht
  split at ht
  · cases ht
  · next i job hget =>
      have hrest : GateInv { s with accepted := s.accepted.eraseIdx k } :=
        h.frame h.atRest rfl h.fresh (fun j hj => hj)
          (fun p hp => List.mem_of_mem_eraseIdx hp) (fun p hp => hp) rfl
      simp only at ht
      split at ht
      · cases ht
        exact hrest.fail i _
      · next f hf =>
          cases ht
          refine ⟨hrest.atRest, hrest.fresh, hrest.accepted, ?_, hrest.sent⟩
          intro p hp hsends
          rcases List.mem_cons.mp hp with rfl | hp
          · refine (h.accepted _ (List.mem_of_getElem? hget) hsends).imp_left ?_
            intro hfree hdr hmem
            rcases mem_readHeaders hf hmem with hstored | rfl
            · exact hfree hdr hstored
            · rfl
          · exact h.fetched p hp hsends

/-- The headers of a reply are those read, if any are sent. -/
theorem headers_finish {job : Job} {headers : List Header} {cache cache' : Cache} {f : Fetched}
    {reply : Reply} (h : job.finish headerPoWHash hash headers cache f = (.ok reply, cache')) :
    reply.headers = if job.sendsHeaders then f.headers else [] := by
  have hreply : (job.reply headerPoWHash f).headers =
      if job.sendsHeaders then f.headers else [] := by
    cases job <;> rfl
  unfold Job.finish at h
  split at h
  · cases h
    exact hreply
  · split at h
    · cases h
    · cases h
      exact hreply

theorem GateInv.connectHeaders (h : GateInv s) (i : Nat) (job : Job) :
    GateInv (s.connectHeaders i job) ∧ ∀ j, Capable s j → Capable (s.connectHeaders i job) j := by
  unfold Server.connectHeaders
  split
  · refine ⟨h.setClient rfl rfl, ?_⟩
    intro j hj
    simp only [Capable, Server.setClient, Function.update_apply] at hj ⊢
    split_ifs with heq
    · rw [← heq]
      exact hj
    · exact hj
  · exact ⟨h, fun j hj => hj⟩

theorem GateInv.finish (h : GateInv s) {k : Nat}
    (ht : s.finish headerPoWHash hash k = some t) : GateInv t := by
  unfold Server.finish at ht
  split at ht
  · cases ht
  · next i job f hget =>
      rcases hfin : job.finish headerPoWHash hash s.headers s.merkleCache f with ⟨result, cache⟩
      rw [hfin] at ht
      have hrest : GateInv { s with fetched := s.fetched.eraseIdx k, merkleCache := cache } :=
        h.frame h.atRest rfl h.fresh (fun j hj => hj) (fun p hp => hp)
          (fun p hp => List.mem_of_mem_eraseIdx hp) rfl
      cases result with
      | error e =>
          cases ht
          exact hrest.fail i e
      | ok reply =>
          cases ht
          obtain ⟨hconn, hcap⟩ := hrest.connectHeaders i job
          refine hconn.send ?_
          rw [headers_finish hfin]
          split_ifs with hsends
          · exact (h.fetched _ (List.mem_of_getElem? hget) hsends).imp_right (hcap i)
          · exact .inl (fun hdr hmem => absurd hmem List.not_mem_nil)

theorem GateInv.notify (h : GateInv s) {i k : Nat} (ht : s.notify i k = some t) :
    GateInv t := by
  unfold Server.notify at ht
  split at ht
  · cases ht
  · next height header hget =>
      split_ifs at ht with hsub hold
      · cases ht
        exact h.disconnect i
      · cases ht
        refine h.send ?_
        cases hv2 : isHeaderV2 header with
        | false =>
            left
            intro hdr hmem
            rw [List.mem_singleton.mp hmem]
            exact hv2
        | true =>
            right
            have hserve : ProtocolV2.mayServeHeaders true (s.clients i).protocolVersion = true := by
              by_contra hno
              exact hold ⟨hv2, by simpa using hno⟩
            simpa [ProtocolV2.mayServeHeaders, Capable] using hserve

theorem GateInv.addBlock (h : GateInv s) {hdr : CBlockHeader} (hset : Settled s (.addBlock hdr))
    (ht : s.addBlock hdr = some t) : GateInv t := by
  unfold Server.addBlock at ht
  split_ifs at ht
  split at ht
  · cases ht
  · next chain hchain =>
      cases ht
      obtain ⟨hrest, hheaders⟩ := h.atRest.addBlock hchain
      refine ⟨hrest, h.fresh, ?_, h.fetched, h.sent⟩
      intro p hp hsends
      rcases h.accepted p hp hsends with hfree | hcap
      · rcases hset with hv1 | hv2 | hall
        · left
          intro hdr' hmem
          rw [Server.headers, hheaders, List.mem_append, List.mem_singleton] at hmem
          rcases hmem with hmem | rfl
          · exact hfree hdr' hmem
          · rw [isHeaderV2_serialize, hv1]
        · exact absurd hfree hv2
        · exact .inr (hall p hp hsends)
      · exact .inr hcap

theorem GateInv.undoLatestBlock (h : GateInv s) (ht : s.undoLatestBlock = some t) :
    GateInv t := by
  unfold Server.undoLatestBlock at ht
  split_ifs at ht
  split at ht
  · cases ht
  · split at ht
    · cases ht
    · next chain hchain =>
        cases ht
        obtain ⟨hrest, hheaders⟩ := h.atRest.deleteHeadersPastHeight hchain
        refine ⟨hrest, h.fresh, ?_, h.fetched, h.sent⟩
        intro p hp hsends
        refine (h.accepted p hp hsends).imp_left ?_
        intro hfree hdr hmem
        rw [Server.headers, hheaders] at hmem
        exact hfree hdr (List.mem_of_mem_take hmem)

theorem GateInv.apply (h : GateInv s) {op : Op} (hset : Settled s op)
    (ht : s.apply headerPoWHash hash op = some t) : GateInv t := by
  cases op with
  | version i arg =>
      cases ht
      exact h.version i arg
  | request i r =>
      cases ht
      exact h.request i r
  | read k lookup => exact h.read ht
  | finish k => exact h.finish ht
  | newHeader =>
      simp only [Server.apply, Server.newHeader] at ht
      split at ht
      · cases ht
      · cases ht
        exact h.frame h.atRest rfl h.fresh (fun i hi => hi) (fun p hp => hp) (fun p hp => hp) rfl
  | notify i k => exact h.notify ht
  | addBlock hdr => exact h.addBlock hset ht
  | undoLatestBlock => exact h.undoLatestBlock ht
  | updateMerkleCache =>
      simp only [Server.apply, Server.updateMerkleCache] at ht
      split_ifs at ht
      · cases ht
        exact h.frame h.atRest rfl h.fresh (fun i hi => hi) (fun p hp => hp) (fun p hp => hp) rfl
      · cases ht
        exact h

theorem gateInv_of_init (h : Init headerPoWHash hash s) : GateInv s := by
  refine ⟨atRest_of_init h.chain, ?_, ?_, ?_, ?_⟩
  · intro i _
    rw [h.clients i]
  · simp [h.accepted]
  · simp [h.fetched]
  · simp [h.sent]

/--
In every run in which the first v2 header is never added while a header
request of a client below 1.8 is between its check and its read: no v2 header
is sent to a client whose negotiated version is below 1.8.
-/
theorem header_gate
    (hs : Reachable (Init headerPoWHash hash) (StepIf headerPoWHash hash Settled) s) :
    ∀ e ∈ s.sent, ∀ hdr ∈ e.reply.headers, isHeaderV2 hdr = true →
      maxProtocolVersionV2 ≤ e.version := by
  have hinv : GateInv s := by
    refine hs.invariant (fun s h => gateInv_of_init h) ?_
    rintro s t hst ⟨op, hset, hop⟩
    exact hst.apply hset hop
  exact hinv.sent

end Steps

section Runs

variable (headerPoWHash : Header → Hash) (hash : Hash → Hash → Hash)

/-- Any step. -/
def AnyStep : Server → Server → Prop := StepIf headerPoWHash hash (fun _ _ => True)

theorem init_empty_server : Init headerPoWHash hash {} where
  chain := Activation.init_empty
  length_le := by simp [Server.headers]
  merkleCache := rfl
  clients := fun _ => rfl
  accepted := rfl
  fetched := rfl
  signals := rfl
  sent := rfl

/-- A client of version 1.8 asks for the tip, which is a v2 header. -/
theorem reachable_tip_for_new_client {a : CBlockHeader} (ha : a.headerV2 = true) :
    Reachable (Init headerPoWHash hash) (StepIf headerPoWHash hash Settled)
      { chain := { headers := [a.serialize], cache := 0 }
        clients := Function.update (fun _ => {}) 0
          { protocolVersion := ⟨1, 8, 0⟩, alreadySentVersion := true }
        sent := [⟨0, ⟨1, 8, 0⟩, { height := 0, headers := [a.serialize] }⟩] } := by
  have hsearch : search [a.serialize] = some 0 := by
    simp [search, isV2, ha, searchLoop]
  have hadd : StepIf headerPoWHash hash Settled {} { chain := { headers := [a.serialize] } } := by
    refine ⟨.addBlock a, .inr (.inr (by simp)), ?_⟩
    simp [Server.apply, Server.addBlock, Server.headers, State.addWrite, State.addCache,
      noHeightCached, ha]
  have hversion : StepIf headerPoWHash hash Settled { chain := { headers := [a.serialize] } }
      { chain := { headers := [a.serialize], cache := 0 }
        clients := Function.update (fun _ => {}) 0
          { protocolVersion := ⟨1, 8, 0⟩, alreadySentVersion := true } } := by
    refine ⟨.version 0 (some (.single ⟨1, 8, 0⟩)), trivial, ?_⟩
    have hquery : query { headers := [a.serialize] } =
        (some 0, { headers := [a.serialize], cache := 0 }) := by
      simp [query, State.queryAnswer, State.queryRead, State.queryStore, hsearch, encode]
    simp only [Server.apply, Server.version, hquery]
    rfl
  have hrequest : StepIf headerPoWHash hash Settled
      { chain := { headers := [a.serialize], cache := 0 }
        clients := Function.update (fun _ => {}) 0
          { protocolVersion := ⟨1, 8, 0⟩, alreadySentVersion := true } }
      { chain := { headers := [a.serialize], cache := 0 }
        clients := Function.update (fun _ => {}) 0
          { protocolVersion := ⟨1, 8, 0⟩, alreadySentVersion := true }
        accepted := [(0, .tip false)] } :=
    ⟨.request 0 .headersGetTip, trivial, rfl⟩
  refine .next (.next (.next (.next (.next (.start (init_empty_server _ _)) hadd) hversion)
    hrequest) ⟨.read 0 none, trivial, rfl⟩) ⟨.finish 0, trivial, rfl⟩

/-- The header of the second layout goes to the client that can read it. -/
theorem header_gate_new_client :
    ∃ s : Server, (∃ e ∈ s.sent, ∃ hdr ∈ e.reply.headers, isHeaderV2 hdr = true) ∧
      ∀ e ∈ s.sent, ∀ hdr ∈ e.reply.headers, isHeaderV2 hdr = true →
        maxProtocolVersionV2 ≤ e.version := by
  have ha : (sampleHeader true).headerV2 = true := rfl
  generalize sampleHeader true = a at ha
  refine ⟨_, ?_, header_gate (reachable_tip_for_new_client (fun _ => 0) (fun _ _ => 0) ha)⟩
  exact ⟨_, List.mem_singleton_self _, _, List.mem_singleton_self _, by
    rw [isHeaderV2_serialize, ha]⟩

/-- A client that negotiated nothing asks for the tip of a chain of one v1 header `a`; the v2
header `b` is added before the tip is read. -/
theorem reachable_late_tip {a b : CBlockHeader} (ha : a.headerV2 = false)
    (hb : b.headerV2 = true) :
    Reachable (Init headerPoWHash hash) (AnyStep headerPoWHash hash)
      { chain := { headers := [a.serialize, b.serialize], cache := 1 }
        sent := [⟨0, minProtocolVersion, { height := 1, headers := [b.serialize] }⟩] } := by
  have hsearch : search [a.serialize] = none := by
    simp [search, isV2, ha]
  have hfirst : AnyStep headerPoWHash hash {} { chain := { headers := [a.serialize] } } := by
    refine ⟨.addBlock a, trivial, ?_⟩
    simp [Server.apply, Server.addBlock, Server.headers, State.addWrite, State.addCache,
      noHeightCached, ha]
  have hrequest : AnyStep headerPoWHash hash { chain := { headers := [a.serialize] } }
      { chain := { headers := [a.serialize], cache := -1 }, accepted := [(0, .tip false)] } := by
    refine ⟨.request 0 .headersGetTip, trivial, ?_⟩
    have hquery : query { headers := [a.serialize] } =
        (none, { headers := [a.serialize], cache := -1 }) := by
      simp [query, State.queryAnswer, State.queryRead, State.queryStore, hsearch, encode]
    simp only [Server.apply, Server.request, hquery]
    rfl
  have hsecond : AnyStep headerPoWHash hash
      { chain := { headers := [a.serialize], cache := -1 }, accepted := [(0, .tip false)] }
      { chain := { headers := [a.serialize, b.serialize], cache := 1 }
        accepted := [(0, .tip false)] } := by
    refine ⟨.addBlock b, trivial, ?_⟩
    simp [Server.apply, Server.addBlock, Server.headers, State.addWrite, State.addCache, isV2,
      hb]
  refine .next (.next (.next (.next (.next (.start (init_empty_server _ _)) hfirst) hrequest)
    hsecond) ⟨.read 0 none, trivial, rfl⟩) ⟨.finish 0, trivial, rfl⟩

/-- The tip read after the check is a v2 header, and it is sent to a client that negotiated
nothing. -/
theorem late_tip_passes_gate :
    ¬ ∀ (headerPoWHash : Header → Hash) (hash : Hash → Hash → Hash) (s : Server),
      Reachable (Init headerPoWHash hash) (AnyStep headerPoWHash hash) s →
        ∀ e ∈ s.sent, ∀ hdr ∈ e.reply.headers, isHeaderV2 hdr = true →
          maxProtocolVersionV2 ≤ e.version := by
  intro h
  have ha : (sampleHeader false).headerV2 = false := rfl
  have hb : (sampleHeader true).headerV2 = true := rfl
  generalize sampleHeader false = a at ha
  generalize sampleHeader true = b at hb
  have hold : maxProtocolVersionV2 ≤ minProtocolVersion :=
    h _ _ _ (reachable_late_tip (fun _ => 0) (fun _ _ => 0) ha hb) _
      (List.mem_singleton_self _) b.serialize (List.mem_singleton_self _)
      (by rw [isHeaderV2_serialize, hb])
  exact absurd hold (by decide)

end Runs

end Servers
end Shulcrum
