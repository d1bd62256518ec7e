import Shulcrum.Servers.HeaderRun

/-!
# Headers with a proof of their place

A request with a checkpoint gets, with its headers, the branch from the last
of them to the root over the headers up to the checkpoint.  The headers are
read in one step, the branch comes from the merkle cache in a later one, so a
block undone in between can make them belong to different chains.

**Results.**
* `last_readHeaders`: what a complete read ends with.
* `ProofInv`: what a request has read is still stored, in the runs in which no
  such header is undone.
* `header_proofs_consistent`: in these runs every answer leads to its root.
-/

namespace Shulcrum
namespace Servers

open BTC Merkle PairTree Storage Storage.Activation Invariant Fallible

section Statements

variable (headerPoWHash : Header → Hash) (hash : Hash → Hash → Hash)

/-- The branch leads from the id of the last header, at its height, to the root. -/
def SelfConsistent (reply : Reply) : Prop :=
  ∀ branch root, reply.branchAndRoot = some (branch, root) →
    ∃ last, reply.headers.getLast? = some last ∧
      climb hash (headerPoWHash last) (reply.height + reply.headers.length - 1) branch = root

/--
A request with a checkpoint finds all the headers that it was accepted for, and
the last of them is not undone before the branch is computed.
-/
def Undisturbed (s : Server) : Op → Prop
  | .read k _ => ∀ p, s.accepted[k]? = some p →
      ∀ last cpHeight, p.2.proof = some (last, cpHeight) → last < s.headers.length
  | .undoLatestBlock => ∀ p ∈ s.fetched,
      ∀ last cpHeight, p.2.1.proof = some (last, cpHeight) → last + 1 < s.headers.length
  | _ => True

/-- The last header read is the one stored at its height. -/
def EndsAt (headers : List Header) (f : Fetched) (last : Nat) : Prop :=
  ∃ hdr, headers[last]? = some hdr ∧ f.headers.getLast? = some hdr ∧
    f.height + f.headers.length - 1 = last

/-- What holds of the chain and of the merkle cache in every run. -/
structure Stored (s : Server) : Prop where
  atRest : AtRest s.chain
  length_le : s.headers.length ≤ 2 ^ 31
  cache : s.merkleCache.Valid hash (s.headers.map headerPoWHash)

/-- The invariant of undisturbed runs. -/
structure ProofInv (s : Server) : Prop where
  atRest : AtRest s.chain
  length_le : s.headers.length ≤ 2 ^ 31
  cache : s.merkleCache.Valid hash (s.headers.map headerPoWHash)
  accepted : ∀ p ∈ s.accepted, p.2.Clamped
  fetched : ∀ p ∈ s.fetched, ∀ last cpHeight, p.2.1.proof = some (last, cpHeight) →
    EndsAt s.headers p.2.2 last
  sent : ∀ e ∈ s.sent, SelfConsistent headerPoWHash hash e.reply

end Statements

/-! ## One request -/

/-- A complete read of a request with a checkpoint. -/
theorem last_readHeaders {headers : List Header} {lookup : Option Nat} {job : Job} {f : Fetched}
    (h : job.readHeaders headers lookup = .ok f) (hclamped : job.Clamped)
    {last cpHeight : Nat} (hproof : job.proof = some (last, cpHeight))
    (hlast : last < headers.length) : EndsAt headers f last := by
  cases job with
  | blockHeader height cp =>
      rw [Job.proof] at hproof
      split_ifs at hproof
      cases hproof
      rw [Job.readHeaders, bind_eq_ok] at h
      obtain ⟨f', hf, h⟩ := h
      rw [ensure_bind_eq_ok] at h
      obtain ⟨-, h⟩ := h
      cases h
      rw [headerForHeight, List.getElem?_eq_getElem hlast] at hf
      cases hf
      exact ⟨_, List.getElem?_eq_getElem hlast, rfl, by simp⟩
  | blockHeaders height count cp headersAsList =>
      rw [Job.proof] at hproof
      split_ifs at hproof with hnone
      cases hproof
      rw [not_or] at hnone
      rw [Job.readHeaders, bind_eq_ok] at h
      obtain ⟨hdrs, hhdrs, h⟩ := h
      cases h
      have hcount : min count maxCount = count := Nat.min_eq_left hclamped
      have hlen : (headersFromHeight headers height count).length = count := by
        rw [headersFromHeight, List.length_take, List.length_drop]
        omega
      rw [hcount] at hhdrs
      rw [mapM_checkListed_ok hhdrs]
      refine ⟨_, List.getElem?_eq_getElem hlast, ?_, ?_⟩
      · rw [List.getLast?_eq_getElem?, hlen, headersFromHeight,
          List.getElem?_take_of_lt (by omega), List.getElem?_drop,
          ← Nat.add_sub_assoc (by omega), List.getElem?_eq_getElem hlast]
      · rw [hlen]
  | tip subscribe => cases hproof
  | headerGet height => cases hproof
  | headerGetHash blockHash => cases hproof
  | confirmedBlockhash txHash includeHeader => cases hproof

section Finish

variable {headerPoWHash : Header → Hash} {hash : Hash → Hash → Hash}
  {headers : List Header} {cache : Cache} {job : Job} {f : Fetched}

/-- The cache stays valid. -/
theorem valid_finish (hv : cache.Valid hash (headers.map headerPoWHash)) :
    (job.finish headerPoWHash hash headers cache f).2.Valid hash (headers.map headerPoWHash) := by
  unfold Job.finish
  split
  · exact hv
  · next height cpHeight _ =>
      have hquery := hv.branchAndRoot (cpHeight + 1) height
      simp only [getHeadersBranchAndRoot]
      split_ifs
      · rcases hcase : cache.branchAndRoot hash (headers.map headerPoWHash) (cpHeight + 1) height
          with ⟨res, cache'⟩
        rw [hcase] at hquery
        cases res <;> exact hquery
      · exact hv

/-- An answer whose last header is still stored leads to its root. -/
theorem selfConsistent_finish {cache' : Cache} {reply : Reply}
    (hv : cache.Valid hash (headers.map headerPoWHash))
    (hends : ∀ last cpHeight, job.proof = some (last, cpHeight) → EndsAt headers f last)
    (h : job.finish headerPoWHash hash headers cache f = (.ok reply, cache')) :
    SelfConsistent headerPoWHash hash reply := by
  intro branch root hpair
  unfold Job.finish at h
  split at h
  · cases h
    cases job <;> cases hpair
  · next height cpHeight hproof =>
      obtain ⟨last, hstored, hread, hheight⟩ := hends height cpHeight hproof
      have hreply : (job.reply headerPoWHash f).headers = f.headers ∧
          (job.reply headerPoWHash f).height = f.height := by
        cases job with
        | confirmedBlockhash txHash includeHeader => cases hproof
        | _ => exact ⟨rfl, rfl⟩
      rw [getHeadersBranchAndRoot] at h
      split_ifs at h with hle
      · rcases hquery : cache.branchAndRoot hash (headers.map headerPoWHash) (cpHeight + 1) height
          with ⟨res, next⟩
        rw [hquery] at h
        cases res with
        | error e => cases h
        | ok pair =>
            cases h
            cases hpair
            obtain ⟨-, -, hplain⟩ := hv.branchAndRoot_ok (by rw [hquery])
            refine ⟨last, by rw [hreply.1]; exact hread, ?_⟩
            rw [hreply.1, hreply.2, hheight]
            refine climb_branchAndRoot hash ?_ hplain
            rw [List.getElem?_take_of_lt (by omega), List.getElem?_map, hstored, Option.map_some]
      · cases h
        cases hpair

/-- The answer when the cache gives a branch. -/
theorem finish_of_branchAndRoot {cache' : Cache} {height cpHeight : Nat} {r : BranchAndRootPair}
    (hproof : job.proof = some (height, cpHeight)) (hle : height ≤ cpHeight)
    (hquery : cache.branchAndRoot hash (headers.map headerPoWHash) (cpHeight + 1) height =
      (.ok r, cache')) :
    job.finish headerPoWHash hash headers cache f =
      (.ok { job.reply headerPoWHash f with branchAndRoot := some r }, cache') := by
  simp only [Job.finish, hproof, getHeadersBranchAndRoot, if_pos hle, hquery]
  rfl

end Finish

/-! ## Runs -/

section Steps

variable {headerPoWHash : Header → Hash} {hash : Hash → Hash → Hash} {s t : Server}

/-- Steps that change neither the chain nor the cache. -/
theorem Stored.frame (h : Stored headerPoWHash hash s) (hchain : t.chain = s.chain)
    (hcache : t.merkleCache = s.merkleCache) : Stored headerPoWHash hash t := by
  obtain ⟨hrest, hlen, hvalid⟩ := h
  unfold Server.headers at hlen hvalid
  refine ⟨by rwa [hchain], ?_, ?_⟩
  · rw [Server.headers, hchain]
    exact hlen
  · rw [Server.headers, hchain, hcache]
    exact hvalid

theorem Stored.query (h : Stored headerPoWHash hash s) :
    Stored headerPoWHash hash { s with chain := (query s.chain).2 } := by
  obtain ⟨hrest, hheaders⟩ := h.atRest.query
  refine ⟨hrest, ?_, ?_⟩
  · rw [Server.headers, hheaders]
    exact h.length_le
  · rw [Server.headers, hheaders]
    exact h.cache

/-- A block added: its header is the last one. -/
theorem Stored.addBlock (h : Stored headerPoWHash hash s) {hdr : CBlockHeader}
    (ht : s.addBlock hdr = some t) :
    Stored headerPoWHash hash t ∧ t.headers = s.headers ++ [hdr.serialize] ∧
      t = { s with chain := t.chain } := by
  unfold Server.addBlock at ht
  split_ifs at ht with hlen
  split at ht
  · cases ht
  · next chain hchain =>
      cases ht
      obtain ⟨hrest, hheaders⟩ := h.atRest.addBlock hchain
      refine ⟨⟨hrest, ?_, ?_⟩, hheaders, rfl⟩
      · rw [Server.headers, hheaders, List.length_append, List.length_singleton]
        exact hlen
      · rw [Server.headers, hheaders, List.map_append]
        exact h.cache.of_prefix (List.prefix_append _ _)

/-- A block undone: the last header is gone. -/
theorem Stored.undoLatestBlock (h : Stored headerPoWHash hash s)
    (ht : s.undoLatestBlock = some t) :
    Stored headerPoWHash hash t ∧ t.headers = s.headers.take (s.headers.length - 1) ∧
      t = { s with chain := t.chain, merkleCache := t.merkleCache } := by
  unfold Server.undoLatestBlock at ht
  split_ifs at ht with hlen
  split at ht
  · cases ht
  · next cache hcache =>
      split at ht
      · cases ht
      · next chain hchain =>
          cases ht
          obtain ⟨hrest, hheaders⟩ := h.atRest.deleteHeadersPastHeight hchain
          have htake : chain.headers = s.headers.take (s.headers.length - 1) := by
            rw [hheaders, Server.headers]
            congr 1
            rw [Server.headers] at hlen
            omega
          refine ⟨⟨hrest, ?_, ?_⟩, htake, rfl⟩
          · have hle := h.length_le
            rw [Server.headers, htake, List.length_take]
            omega
          · rw [Server.headers, htake, List.map_take]
            exact h.cache.truncate hcache

theorem Stored.updateMerkleCache (h : Stored headerPoWHash hash s) :
    Stored headerPoWHash hash (s.updateMerkleCache headerPoWHash hash) := by
  unfold Server.updateMerkleCache
  split_ifs
  · refine ⟨h.atRest, h.length_le, h.cache.initializeTo ?_ _⟩
    have hle := h.length_le
    rw [List.length_map]
    omega
  · exact h

theorem ProofInv.stored (h : ProofInv headerPoWHash hash s) : Stored headerPoWHash hash s :=
  ⟨h.atRest, h.length_le, h.cache⟩

theorem stored_of_init (h : Init headerPoWHash hash s) : Stored headerPoWHash hash s := by
  have hempty : Cache.Valid hash (s.headers.map headerPoWHash) {} :=
    ⟨by simp, by simp [maxDepth], by simp, by simp⟩
  refine ⟨atRest_of_init h.chain, h.length_le, ?_⟩
  rw [h.merkleCache]
  split_ifs
  · exact hempty
  · have hle := h.length_le
    have hbuilt := hempty.initializeNolock (by rw [List.length_map]; omega) s.headers.length
    rw [List.take_of_length_le (by rw [List.length_map])] at hbuilt
    exact hbuilt

/-- Steps that change neither the headers nor the requests nor what is sent. -/
theorem ProofInv.frame (h : ProofInv headerPoWHash hash s) (hrest : AtRest t.chain)
    (hheaders : t.headers = s.headers)
    (hcache : t.merkleCache.Valid hash (s.headers.map headerPoWHash))
    (hacc : ∀ p ∈ t.accepted, p ∈ s.accepted) (hfet : ∀ p ∈ t.fetched, p ∈ s.fetched)
    (hsent : t.sent = s.sent) : ProofInv headerPoWHash hash t := by
  refine ⟨hrest, ?_, ?_, ?_, ?_, ?_⟩
  · rw [hheaders]
    exact h.length_le
  · rw [hheaders]
    exact hcache
  · intro p hp
    exact h.accepted p (hacc p hp)
  · intro p hp
    rw [hheaders]
    exact h.fetched p (hfet p hp)
  · rw [hsent]
    exact h.sent

theorem ProofInv.clients (h : ProofInv headerPoWHash hash s) (clients : Nat → Client) :
    ProofInv headerPoWHash hash { s with clients := clients } :=
  h.frame h.atRest rfl h.cache (fun _ hp => hp) (fun _ hp => hp) rfl

theorem ProofInv.fail (h : ProofInv headerPoWHash hash s) (i : Nat) (e : RPCError) :
    ProofInv headerPoWHash hash (s.fail i e) := by
  unfold Server.fail
  split_ifs
  · exact h.clients _
  · exact h

theorem ProofInv.send (h : ProofInv headerPoWHash hash s) {i : Nat} {reply : Reply}
    (hreply : SelfConsistent headerPoWHash hash reply) :
    ProofInv headerPoWHash hash (s.send i reply) := by
  unfold Server.send
  split_ifs
  · refine ⟨h.atRest, h.length_le, h.cache, h.accepted, h.fetched, ?_⟩
    intro e he
    rcases List.mem_cons.mp he with rfl | he
    · exact hreply
    · exact h.sent e he
  · exact h

theorem ProofInv.query (h : ProofInv headerPoWHash hash s) :
    ProofInv headerPoWHash hash { s with chain := (query s.chain).2 } := by
  obtain ⟨hrest, hheaders⟩ := h.atRest.query
  exact h.frame hrest hheaders h.cache (fun _ hp => hp) (fun _ hp => hp) rfl

theorem ProofInv.request (h : ProofInv headerPoWHash hash s) (i : Nat) (r : Request) :
    ProofInv headerPoWHash hash (s.request i r) := by
  have hq := h.query
  simp only [Server.request]
  split
  · exact hq.fail i _
  · next job hjob =>
      refine ⟨hq.atRest, hq.length_le, hq.cache, ?_, hq.fetched, hq.sent⟩
      intro p hp
      rcases List.mem_cons.mp hp with rfl | hp
      · exact clamped_of_accept hjob
      · exact hq.accepted p hp

theorem ProofInv.read (h : ProofInv headerPoWHash hash s) {k : Nat} {lookup : Option Nat}
    (hund : Undisturbed s (.read k lookup)) (ht : s.read k lookup = some t) :
    ProofInv headerPoWHash hash t := by
  unfold Server.read at ht
  split at ht
  · cases ht
  · next i job hget =>
      have hrest : ProofInv headerPoWHash hash { s with accepted := s.accepted.eraseIdx k } :=
        h.frame h.atRest rfl h.cache (fun _ hp => List.mem_of_mem_eraseIdx hp)
          (fun _ hp => hp) rfl
      simp only at ht
      split at ht
      · cases ht
        exact hrest.fail i _
      · next f hf =>
          cases ht
          refine ⟨hrest.atRest, hrest.length_le, hrest.cache, hrest.accepted, ?_, hrest.sent⟩
          intro p hp last cpHeight hproof
          rcases List.mem_cons.mp hp with rfl | hp
          · exact last_readHeaders hf (h.accepted _ (List.mem_of_getElem? hget)) hproof
              (hund _ hget last cpHeight hproof)
          · exact h.fetched p hp last cpHeight hproof

theorem ProofInv.finish (h : ProofInv headerPoWHash hash s) {k : Nat}
    (ht : s.finish headerPoWHash hash k = some t) : ProofInv headerPoWHash hash t := by
  unfold Server.finish at ht
  split at ht
  · cases ht
  · next i job f hget =>
      have hvalid : (job.finish headerPoWHash hash s.headers s.merkleCache f).2.Valid hash
          (s.headers.map headerPoWHash) := valid_finish h.cache
      rcases hfin : job.finish headerPoWHash hash s.headers s.merkleCache f with ⟨result, cache⟩
      rw [hfin] at ht hvalid
      have hrest : ProofInv headerPoWHash hash
          { s with fetched := s.fetched.eraseIdx k, merkleCache := cache } :=
        h.frame h.atRest rfl hvalid (fun _ hp => hp) (fun _ hp => List.mem_of_mem_eraseIdx hp) rfl
      cases result with
      | error e =>
          cases ht
          exact hrest.fail i e
      | ok reply =>
          cases ht
          have hreply : SelfConsistent headerPoWHash hash reply :=
            selfConsistent_finish h.cache (h.fetched _ (List.mem_of_getElem? hget)) hfin
          unfold Server.connectHeaders
          split
          · exact (hrest.clients _).send hreply
          · exact hrest.send hreply

theorem ProofInv.notify (h : ProofInv headerPoWHash hash s) {i k : Nat}
    (ht : s.notify i k = some t) : ProofInv headerPoWHash hash t := by
  unfold Server.notify at ht
  split at ht
  · cases ht
  · split_ifs at ht
    · cases ht
      exact h.clients _
    · cases ht
      refine h.send ?_
      intro branch root hpair
      cases hpair

theorem ProofInv.addBlock (h : ProofInv headerPoWHash hash s) {hdr : CBlockHeader}
    (ht : s.addBlock hdr = some t) : ProofInv headerPoWHash hash t := by
  obtain ⟨⟨hrest, hlen, hcache⟩, hheaders, hrec⟩ := h.stored.addBlock ht
  refine ⟨hrest, hlen, hcache, ?_, ?_, ?_⟩
  · rw [hrec]
    exact h.accepted
  · intro p hp last cpHeight hproof
    rw [hrec] at hp
    obtain ⟨hdr', hget, hread, hheight⟩ := h.fetched p hp last cpHeight hproof
    refine ⟨hdr', ?_, hread, hheight⟩
    have hlast : last < s.headers.length := (List.getElem?_eq_some_iff.mp hget).1
    rw [hheaders, List.getElem?_append_left hlast]
    exact hget
  · rw [hrec]
    exact h.sent

theorem ProofInv.undoLatestBlock (h : ProofInv headerPoWHash hash s)
    (hund : Undisturbed s .undoLatestBlock) (ht : s.undoLatestBlock = some t) :
    ProofInv headerPoWHash hash t := by
  obtain ⟨⟨hrest, hlen, hcache⟩, hheaders, hrec⟩ := h.stored.undoLatestBlock ht
  refine ⟨hrest, hlen, hcache, ?_, ?_, ?_⟩
  · rw [hrec]
    exact h.accepted
  · intro p hp last cpHeight hproof
    rw [hrec] at hp
    obtain ⟨hdr', hget, hread, hheight⟩ := h.fetched p hp last cpHeight hproof
    have hlast := hund p hp last cpHeight hproof
    refine ⟨hdr', ?_, hread, hheight⟩
    rw [hheaders, List.getElem?_take_of_lt (by omega)]
    exact hget
  · rw [hrec]
    exact h.sent

theorem ProofInv.updateMerkleCache (h : ProofInv headerPoWHash hash s) :
    ProofInv headerPoWHash hash (s.updateMerkleCache headerPoWHash hash) := by
  obtain ⟨hrest, hlen, hcache⟩ := h.stored.updateMerkleCache
  unfold Server.updateMerkleCache at hrest hlen hcache ⊢
  split_ifs at hrest hlen hcache ⊢
  · exact h.frame hrest rfl hcache (fun _ hp => hp) (fun _ hp => hp) rfl
  · exact h

theorem ProofInv.apply (h : ProofInv headerPoWHash hash s) {op : Op} (hund : Undisturbed s op)
    (ht : s.apply headerPoWHash hash op = some t) : ProofInv headerPoWHash hash t := by
  cases op with
  | version i arg =>
      cases ht
      have hq := h.query
      simp only [Server.version]
      split
      · exact hq.fail i _
      · exact hq.clients _
  | request i r =>
      cases ht
      exact h.request i r
  | read k lookup => exact h.read hund ht
  | finish k => exact h.finish ht
  | newHeader =>
      simp only [Server.apply, Server.newHeader] at ht
      split at ht
      · cases ht
      · cases ht
        exact h.frame h.atRest rfl h.cache (fun _ hp => hp) (fun _ hp => hp) rfl
  | notify i k => exact h.notify ht
  | addBlock hdr => exact h.addBlock ht
  | undoLatestBlock => exact h.undoLatestBlock hund ht
  | updateMerkleCache =>
      cases ht
      exact h.updateMerkleCache

theorem proofInv_of_init (h : Init headerPoWHash hash s) : ProofInv headerPoWHash hash s := by
  obtain ⟨hrest, hlen, hcache⟩ := stored_of_init h
  refine ⟨hrest, hlen, hcache, ?_, ?_, ?_⟩
  · simp [h.accepted]
  · simp [h.fetched]
  · simp [h.sent]

/--
In every run in which a request with a checkpoint finds the headers that it
was accepted for, and the last of them is not undone before the branch is
computed: in every answer the branch leads from the id of the last header, at
its height, to the root.
-/
theorem header_proofs_consistent
    (hs : Reachable (Init headerPoWHash hash) (StepIf headerPoWHash hash Undisturbed) s) :
    ∀ e ∈ s.sent, SelfConsistent headerPoWHash hash e.reply := by
  have hinv : ProofInv headerPoWHash hash s := by
    refine hs.invariant (fun s h => proofInv_of_init h) ?_
    rintro s t hst ⟨op, hund, hop⟩
    exact hst.apply hund hop
  exact hinv.sent

end Steps

section Runs

/-- An id that only tells the layouts apart. -/
def layoutId (hdr : Header) : Hash := if isHeaderV2 hdr then 1 else 0

/-- The merkle cache over two ids. -/
def twoIds (x y : Hash) : Cache :=
  { length := 2, depthHigher := 1, level := [x + y], initialized := true }

variable {a b : CBlockHeader}

/-- Two v1 headers, the merkle cache over them, and a request for the second with its proof. -/
def askedForSecond (a b : CBlockHeader) : Server where
  chain := { headers := [a.serialize, b.serialize], cache := -1 }
  merkleCache := twoIds 0 0
  fetched := [(0, .blockHeader 1 1, ⟨1, [b.serialize]⟩)]

/-- A server just started on an empty database. -/
theorem init_nothing : Init layoutId (· + ·) {} :=
  ⟨Activation.init_empty, by simp [Server.headers], rfl, fun _ => rfl, rfl, rfl, rfl, rfl⟩

/-- Two v1 headers are added, and the merkle cache is built. -/
theorem reachable_twoHeaders {I : Server → Prop} (hI : I {}) (ha : a.headerV2 = false)
    (hb : b.headerV2 = false) :
    Reachable I (StepIf layoutId (· + ·) Undisturbed)
      { chain := { headers := [a.serialize, b.serialize] }, merkleCache := twoIds 0 0 } := by
  have hids : [a.serialize, b.serialize].map layoutId = [0, 0] := by
    simp [layoutId, ha, hb]
  have hfirst : StepIf layoutId (· + ·) Undisturbed {}
      { chain := { headers := [a.serialize] } } := by
    refine ⟨.addBlock a, trivial, ?_⟩
    simp [Server.apply, Server.addBlock, Server.headers, State.addWrite, State.addCache,
      noHeightCached, ha]
  have hsecond : StepIf layoutId (· + ·) Undisturbed { chain := { headers := [a.serialize] } }
      { chain := { headers := [a.serialize, b.serialize] } } := by
    refine ⟨.addBlock b, trivial, ?_⟩
    simp [Server.apply, Server.addBlock, Server.headers, State.addWrite, State.addCache,
      noHeightCached, ha]
  have hcache : StepIf layoutId (· + ·) Undisturbed
      { chain := { headers := [a.serialize, b.serialize] } }
      { chain := { headers := [a.serialize, b.serialize] }, merkleCache := twoIds 0 0 } := by
    refine ⟨.updateMerkleCache, trivial, ?_⟩
    have hbuilt : (Cache.initializeTo (· + ·) [0, 0] {} 2).2 = twoIds 0 0 := by decide
    have htip : (0 : Int) < ([a.serialize, b.serialize].length : Int) - 1 := by simp
    simp only [Server.apply, Server.updateMerkleCache, Server.latestTip, Server.headers, hids]
    rw [if_pos ⟨trivial, htip⟩]
    exact congrArg (fun cache => some (Server.mk _ cache _ _ _ _ _)) hbuilt
  exact .next (.next (.next (.start hI) hfirst) hsecond) hcache

theorem query_twoHeaders (hb : b.headerV2 = false) :
    query { headers := [a.serialize, b.serialize] } =
      (none, { headers := [a.serialize, b.serialize], cache := -1 }) := by
  have hsearch : search [a.serialize, b.serialize] = none := by
    simp [search, isV2, hb]
  simp [query, State.queryAnswer, State.queryRead, State.queryStore, hsearch, encode]

theorem reachable_askedForSecond (ha : a.headerV2 = false) (hb : b.headerV2 = false) :
    Reachable (Init layoutId (· + ·)) (StepIf layoutId (· + ·) Undisturbed)
      (askedForSecond a b) := by
  have hrequest : StepIf layoutId (· + ·) Undisturbed
      { chain := { headers := [a.serialize, b.serialize] }, merkleCache := twoIds 0 0 }
      { chain := { headers := [a.serialize, b.serialize], cache := -1 }
        merkleCache := twoIds 0 0
        accepted := [(0, .blockHeader 1 1)] } := by
    refine ⟨.request 0 (.blockHeader (some 1) (some (some 1))), trivial, ?_⟩
    simp only [Server.apply, Server.request, query_twoHeaders hb]
    rfl
  have hread : StepIf layoutId (· + ·) Undisturbed
      { chain := { headers := [a.serialize, b.serialize], cache := -1 }
        merkleCache := twoIds 0 0
        accepted := [(0, .blockHeader 1 1)] } (askedForSecond a b) := by
    refine ⟨.read 0 none, ?_, ?_⟩
    · intro p hp last cpHeight hproof
      cases hp
      cases hproof
      exact Nat.one_lt_two
    · have hne := serialize_ne_nil b
      simp [Server.apply, Server.read, Job.readHeaders, Server.headers, headerForHeight, ensure,
        hne, bind, Except.bind, askedForSecond]
  exact .next (.next (reachable_twoHeaders init_nothing ha hb) hrequest) hread

/-- The second header is answered with a branch that leads to the root. -/
theorem header_proofs_consistent_second :
    ∃ s : Server, (∃ e ∈ s.sent, e.reply.branchAndRoot = some ([0], 0)) ∧
      ∀ e ∈ s.sent, SelfConsistent layoutId (· + ·) e.reply := by
  have ha : (sampleHeader false).headerV2 = false := rfl
  generalize sampleHeader false = a at ha
  have hfinish : (askedForSecond a a).finish layoutId (· + ·) 0 =
      some { chain := (askedForSecond a a).chain
             merkleCache := twoIds 0 0
             sent := [⟨0, ServerMisc.minProtocolVersion,
               { height := 1, headers := [a.serialize], branchAndRoot := some ([0], 0) }⟩] } := by
    have hids : [a.serialize, a.serialize].map layoutId = [0, 0] := by
      simp [layoutId, ha]
    have hquery : (twoIds 0 0).branchAndRoot (· + ·) ([a.serialize, a.serialize].map layoutId)
        (1 + 1) 1 = (.ok ([0], 0), twoIds 0 0) := by
      rw [hids]
      decide
    have hjob := finish_of_branchAndRoot (f := ⟨1, [a.serialize]⟩)
      (show (Job.blockHeader 1 1).proof = some (1, 1) from rfl) le_rfl hquery
    simp only [Server.finish, askedForSecond, List.getElem?_cons_zero, Server.headers, hjob]
    rfl
  exact ⟨_, ⟨_, List.mem_singleton_self _, rfl⟩, header_proofs_consistent
    (.next (reachable_askedForSecond ha ha) ⟨.finish 0, trivial, hfinish⟩)⟩

/-- An undo whose parts succeed. -/
theorem undoLatestBlock_eq {s : Server} {n : Nat} {cache : Cache} {chain : Activation.State}
    (hlen : s.headers.length = n + 2) (htruncate : s.merkleCache.truncate (n + 1) = (.ok (), cache))
    (hdelete : s.chain.deleteHeadersPastHeight n = some chain) :
    s.undoLatestBlock = some { s with chain := chain, merkleCache := cache } := by
  have hlast : s.headers.length - 1 = n + 1 := by omega
  have hprev : s.headers.length - 2 = n := by omega
  rw [Server.undoLatestBlock, if_neg (by omega), hlast, hprev, htruncate]
  simp only [hdelete]

/-- A run of allowed steps is a run. -/
theorem reachable_any {I : Server → Prop} {P : Server → Op → Prop} {s : Server}
    {headerPoWHash : Header → Hash} {hash : Hash → Hash → Hash}
    (h : Reachable I (StepIf headerPoWHash hash P) s) :
    Reachable I (StepIf headerPoWHash hash (fun _ _ => True)) s :=
  h.mono fun _ _ ⟨op, _, hop⟩ => ⟨op, trivial, hop⟩

/-- The second header is replaced by the v2 header `c` before the branch is computed. -/
theorem reachable_replaced {c : CBlockHeader} (ha : a.headerV2 = false) (hb : b.headerV2 = false)
    (hc : c.headerV2 = true) :
    Reachable (Init layoutId (· + ·)) (StepIf layoutId (· + ·) (fun _ _ => True))
      { chain := { headers := [a.serialize, c.serialize], cache := 1 }
        merkleCache := twoIds 0 1
        sent := [⟨0, ServerMisc.minProtocolVersion,
          { height := 1, headers := [b.serialize], branchAndRoot := some ([0], 1) }⟩] } := by
  have hundo : StepIf layoutId (· + ·) (fun _ _ => True) (askedForSecond a b)
      { chain := { headers := [a.serialize], cache := -1 }
        merkleCache := { length := 0, depthHigher := 1, level := [], initialized := true }
        fetched := [(0, .blockHeader 1 1, ⟨1, [b.serialize]⟩)] } := by
    refine ⟨.undoLatestBlock, trivial, ?_⟩
    have htruncate : (twoIds 0 0).truncate 1 =
        (.ok (), { length := 0, depthHigher := 1, level := [], initialized := true }) := by
      decide
    have hdelete : ({ headers := [a.serialize, b.serialize], cache := -1 } :
        Activation.State).deleteHeadersPastHeight 0 =
          some { headers := [a.serialize], cache := -1 } := by
      simp [State.deleteHeadersPastHeight]
    exact undoLatestBlock_eq (s := askedForSecond a b) (n := 0) rfl htruncate hdelete
  have hadd : StepIf layoutId (· + ·) (fun _ _ => True)
      { chain := { headers := [a.serialize], cache := -1 }
        merkleCache := { length := 0, depthHigher := 1, level := [], initialized := true }
        fetched := [(0, .blockHeader 1 1, ⟨1, [b.serialize]⟩)] }
      { chain := { headers := [a.serialize, c.serialize], cache := 1 }
        merkleCache := { length := 0, depthHigher := 1, level := [], initialized := true }
        fetched := [(0, .blockHeader 1 1, ⟨1, [b.serialize]⟩)] } := by
    refine ⟨.addBlock c, trivial, ?_⟩
    simp [Server.apply, Server.addBlock, Server.headers, State.addWrite, State.addCache, isV2, hc]
  have hids : [a.serialize, c.serialize].map layoutId = [0, 1] := by
    simp [layoutId, ha, hc]
  have hquery : ({ length := 0, depthHigher := 1, level := [], initialized := true } :
      Cache).branchAndRoot (· + ·) ([a.serialize, c.serialize].map layoutId) (1 + 1) 1 =
        (.ok ([0], 1), twoIds 0 1) := by
    rw [hids]
    decide
  have hjob := finish_of_branchAndRoot (f := ⟨1, [b.serialize]⟩)
    (show (Job.blockHeader 1 1).proof = some (1, 1) from rfl) le_rfl hquery
  refine .next (.next (.next (reachable_any (reachable_askedForSecond ha hb)) hundo) hadd)
    ⟨.finish 0, trivial, ?_⟩
  simp only [Server.apply, Server.finish, List.getElem?_cons_zero, Server.headers, hjob]
  rfl

/-- The header read before a reorganisation is answered with a branch of the new chain. -/
theorem replaced_header_proof_inconsistent :
    ¬ ∀ (headerPoWHash : Header → Hash) (hash : Hash → Hash → Hash) (s : Server),
      Reachable (Init headerPoWHash hash) (StepIf headerPoWHash hash (fun _ _ => True)) s →
        ∀ e ∈ s.sent, SelfConsistent headerPoWHash hash e.reply := by
  intro h
  have ha : (sampleHeader false).headerV2 = false := rfl
  have hc : (sampleHeader true).headerV2 = true := rfl
  generalize sampleHeader false = a at ha
  generalize sampleHeader true = c at hc
  obtain ⟨last, hlast, hclimb⟩ := h _ _ _ (reachable_replaced ha ha hc) _
    (List.mem_singleton_self _) [0] 1 rfl
  have hid : layoutId last = 0 := by
    obtain rfl : a.serialize = last := Option.some.inj hlast
    simp [layoutId, ha]
  rw [hid] at hclimb
  have hfalse : climb (· + ·) (0 : Hash) 1 [0] = 1 := hclimb
  exact absurd hfalse (by decide)

end Runs

end Servers
end Shulcrum
