import Shulcrum.Header.RoundTrip
import Shulcrum.Servers.HeaderGate
import Shulcrum.Servers.HeaderProof

/-!
# The range of a request for headers

A request for a range of headers that is answered before the chain changes.
The count is clamped to the headers that the chain has from the height on, by a
difference of unsigned integers, which wraps around for a height that is more
than one past the tip.

**Results.**
* `clampCount_of_le`, `clampCount_of_lt`: the clamped count, below and above
  the height where the difference wraps.
* `stored_of_reachable`: what every run keeps of the chain and of the cache.
* `blockHeaders_range`: the exact condition for the answer to be the range.
-/

namespace Shulcrum
namespace Servers

open BTC Merkle Storage Invariant Fallible ServerMisc

section Statements

variable (headerPoWHash : Header → Hash) (hash : Hash → Hash → Hash)

/-- `Server::rpc_blockchain_block_headers`, with nothing between its parts. -/
def Server.blockHeaders (s : Server) (c : Client) (height count : Nat) (cpHeight : Option Nat) :
    Except RPCError Reply := do
  let job ← rpcBlockHeaders (query s.chain).1.isSome s.latestTip c (some height) (some count)
    (cpHeight.map some)
  let f ← job.readHeaders s.headers none
  (job.finish headerPoWHash hash s.headers s.merkleCache f).1

/-- The number of headers that a request is for. -/
def rangeLength (tip : Int) (height count : Nat) : Nat :=
  if tip < height then 0 else min (min count maxCount) (tip + 1 - height).toNat

/-- The headers at `n` heights. -/
structure HeadersAt (headers : List Header) (height n : Nat) (l : List Header) : Prop where
  length_eq : l.length = n
  get : ∀ i < n, ∃ hdr, headers[height + i]? = some hdr ∧ l[i]? = some hdr

/-- The answer to a request for `n` headers with a checkpoint, which is zero if there is none. -/
structure RangeAnswer (s : Server) (height n cpHeight : Nat) (answer : Except RPCError Reply) :
    Prop where
  plain : cpHeight = 0 ∨ n = 0 → ∃ reply, answer = .ok reply ∧
    HeadersAt s.headers height n reply.headers ∧ reply.branchAndRoot = none
  proof : cpHeight ≠ 0 → n ≠ 0 → height + n - 1 ≤ cpHeight → cpHeight ≤ s.latestTip →
    ∃ reply pair, answer = .ok reply ∧ HeadersAt s.headers height n reply.headers ∧
      reply.branchAndRoot = some pair ∧
      Merkle.branchAndRoot hash ((s.headers.map headerPoWHash).take (cpHeight + 1))
        (height + n - 1) none = .ok pair
  refused : cpHeight ≠ 0 → n ≠ 0 → ¬ (height + n - 1 ≤ cpHeight ∧ cpHeight ≤ s.latestTip) →
    ∃ e, answer = .error e

/-- No machine operation of the request leaves the range of its type. -/
structure NoWrap (tip : Int) (height count : Nat) : Prop where
  /-- `tip+1` is an `int`. -/
  next : tip + 1 < 2 ^ 31
  /-- `unsigned(tip+1) - height` is unsigned. -/
  difference : 0 ≤ tip + 1 - height
  /-- `height + count - 1` is unsigned. -/
  sum : height + clampCount tip height count < 2 ^ 32
  /-- `1 + tip - int(height)` is an `int`. -/
  signed : height < 2 ^ 31 ∧ -2 ^ 31 ≤ tip + 1 - height

/-- The merkle cache answers, if a branch is asked for. -/
def CacheAnswers (s : Server) (height n cpHeight : Nat) : Prop :=
  cpHeight ≠ 0 → n ≠ 0 → height + n - 1 ≤ cpHeight → cpHeight ≤ s.latestTip →
    s.merkleCache.initialized = true ∧ (s.merkleCache.length ≤ cpHeight + 1 ∨
      (cpHeight + 1) % s.merkleCache.segmentLength ≠ 0)

/-- A chain with a tip, a client that may be served its headers, and arguments in range. -/
structure Admitted (s : Server) (c : Client) (height count : Nat) (cpHeight : Option Nat) :
    Prop where
  serve : requireHeaderCapableClient (query s.chain).1.isSome c = .ok ()
  tip : 0 ≤ s.latestTip
  height_lt : height < maxHeaders
  count_lt : count < maxHeaders
  cpHeight_lt : cpHeight.getD 0 < maxHeaders

/-- A server started on a database whose headers have the size they say. -/
structure SizedInit (s : Server) : Prop where
  init : Init headerPoWHash hash s
  ownSize : ∀ hdr ∈ s.headers, OwnSize hdr

end Statements

/-! ## The count -/

section Count

variable {tip : Int} {height count : Nat}

/-- Up to one past the tip the count is clamped to the headers there are. -/
theorem clampCount_of_le (htip : tip < 2 ^ 31) (h : (height : Int) ≤ tip + 1) :
    clampCount tip height count = rangeLength tip height count := by
  have hmod : (tip + 1 - height) % 2 ^ 32 = tip + 1 - height :=
    Int.emod_eq_of_lt (by omega) (by omega)
  rw [clampCount, rangeLength, hmod]
  simp only [maxCount]
  split_ifs <;> omega

/-- Further past the tip the difference wraps, and the count is not clamped to the chain. -/
theorem clampCount_of_lt (htip : 0 ≤ tip) (hheight : height < maxHeaders)
    (h : tip + 1 < (height : Int)) : clampCount tip height count = min count maxCount := by
  have hmod : (tip + 1 - height) % 2 ^ 32 = tip + 1 - height + 2 ^ 32 := by
    rw [← Int.add_emod_right]
    simp only [maxHeaders] at hheight
    exact Int.emod_eq_of_lt (by omega) (by omega)
  rw [clampCount, hmod]
  simp only [maxCount, maxHeaders] at hheight ⊢
  omega

theorem noWrap_iff (hheight : height < maxHeaders) :
    NoWrap tip height count ↔ tip + 1 < 2 ^ 31 ∧ (height : Int) ≤ tip + 1 := by
  have hcount : clampCount tip height count ≤ maxCount := Nat.min_le_right _ _
  simp only [maxCount, maxHeaders] at hheight hcount
  constructor
  · intro h
    have hdiff := h.difference
    exact ⟨h.next, by omega⟩
  · rintro ⟨hint, hle⟩
    exact ⟨hint, by omega, by omega, by omega, by omega⟩

end Count

/-! ## The chain and the cache -/

section Runs

variable {headerPoWHash : Header → Hash} {hash : Hash → Hash → Hash} {s t : Server}

theorem Server.fail_eq (s : Server) (i : Nat) (e : RPCError) :
    (s.fail i e).chain = s.chain ∧ (s.fail i e).merkleCache = s.merkleCache := by
  unfold Server.fail
  split_ifs <;> exact ⟨rfl, rfl⟩

theorem Server.send_eq (s : Server) (i : Nat) (reply : Reply) :
    (s.send i reply).chain = s.chain ∧ (s.send i reply).merkleCache = s.merkleCache := by
  unfold Server.send
  split_ifs <;> exact ⟨rfl, rfl⟩

theorem Server.connectHeaders_eq (s : Server) (i : Nat) (job : Job) :
    (s.connectHeaders i job).chain = s.chain ∧
      (s.connectHeaders i job).merkleCache = s.merkleCache := by
  unfold Server.connectHeaders
  split <;> exact ⟨rfl, rfl⟩

/-- What one step does to the headers, with the chain and the cache kept in order. -/
theorem Stored.apply (h : Stored headerPoWHash hash s) {op : Op}
    (ht : s.apply headerPoWHash hash op = some t) :
    Stored headerPoWHash hash t ∧
      ∀ hdr ∈ t.headers, hdr ∈ s.headers ∨ ∃ block : CBlockHeader, hdr = block.serialize := by
  have hsame : ∀ u : Server, u.chain = s.chain → u.merkleCache = s.merkleCache →
      Stored headerPoWHash hash u ∧
        ∀ hdr ∈ u.headers, hdr ∈ s.headers ∨ ∃ block : CBlockHeader, hdr = block.serialize := by
    intro u hchain hcache
    refine ⟨h.frame hchain hcache, fun hdr hmem => .inl ?_⟩
    rwa [Server.headers, hchain] at hmem
  have hquery : ∀ u : Server, u.chain = (Servers.query s.chain).2 → u.merkleCache = s.merkleCache →
      Stored headerPoWHash hash u ∧
        ∀ hdr ∈ u.headers, hdr ∈ s.headers ∨ ∃ block : CBlockHeader, hdr = block.serialize := by
    intro u hchain hcache
    refine ⟨h.query.frame hchain hcache, fun hdr hmem => .inl ?_⟩
    rw [Server.headers, hchain, h.atRest.query.2] at hmem
    exact hmem
  cases op with
  | version i arg =>
      cases ht
      simp only [Server.version]
      split
      · next e _ => exact hquery _ (Server.fail_eq _ i e).1 (Server.fail_eq _ i e).2
      · exact hquery _ rfl rfl
  | request i r =>
      cases ht
      simp only [Server.request]
      split
      · next e _ => exact hquery _ (Server.fail_eq _ i e).1 (Server.fail_eq _ i e).2
      · exact hquery _ rfl rfl
  | read k lookup =>
      simp only [Server.apply, Server.read] at ht
      split at ht
      · cases ht
      · next i job _ =>
          split at ht
          · next e _ =>
              cases ht
              exact hsame _ (Server.fail_eq _ i e).1 (Server.fail_eq _ i e).2
          · cases ht
            exact hsame _ rfl rfl
  | finish k =>
      simp only [Server.apply, Server.finish] at ht
      split at ht
      · cases ht
      · next i job f _ =>
          have hvalid : (job.finish headerPoWHash hash s.headers s.merkleCache f).2.Valid hash
              (s.headers.map headerPoWHash) := valid_finish h.cache
          rcases hfin : job.finish headerPoWHash hash s.headers s.merkleCache f with
            ⟨result, cache⟩
          rw [hfin] at ht hvalid
          have hrest : Stored headerPoWHash hash
              { s with fetched := s.fetched.eraseIdx k, merkleCache := cache } :=
            ⟨h.atRest, h.length_le, hvalid⟩
          cases result with
          | error e =>
              cases ht
              have hfail := Server.fail_eq
                { s with fetched := s.fetched.eraseIdx k, merkleCache := cache } i e
              refine ⟨hrest.frame hfail.1 hfail.2, fun hdr hmem => .inl ?_⟩
              rwa [Server.headers, hfail.1] at hmem
          | ok reply =>
              cases ht
              have hconn := Server.connectHeaders_eq
                { s with fetched := s.fetched.eraseIdx k, merkleCache := cache } i job
              have hsend := Server.send_eq (Server.connectHeaders
                { s with fetched := s.fetched.eraseIdx k, merkleCache := cache } i job) i reply
              refine ⟨hrest.frame (hsend.1.trans hconn.1) (hsend.2.trans hconn.2),
                fun hdr hmem => .inl ?_⟩
              rwa [Server.headers, hsend.1, hconn.1] at hmem
  | newHeader =>
      simp only [Server.apply, Server.newHeader] at ht
      split at ht
      · cases ht
      · cases ht
        exact hsame _ rfl rfl
  | notify i k =>
      simp only [Server.apply, Server.notify] at ht
      split at ht
      · cases ht
      · next height header _ =>
          split_ifs at ht
          · cases ht
            exact hsame _ rfl rfl
          · cases ht
            have hsend := Server.send_eq s i { height := height, headers := [header] }
            exact hsame _ hsend.1 hsend.2
  | addBlock block =>
      obtain ⟨hstored, hheaders, -⟩ := h.addBlock ht
      refine ⟨hstored, fun hdr hmem => ?_⟩
      rw [hheaders] at hmem
      rcases List.mem_append.mp hmem with hmem | hmem
      · exact .inl hmem
      · exact .inr ⟨block, List.mem_singleton.mp hmem⟩
  | undoLatestBlock =>
      obtain ⟨hstored, hheaders, -⟩ := h.undoLatestBlock ht
      refine ⟨hstored, fun hdr hmem => .inl ?_⟩
      rw [hheaders] at hmem
      exact List.mem_of_mem_take hmem
  | updateMerkleCache =>
      cases ht
      refine ⟨h.updateMerkleCache, fun hdr hmem => .inl ?_⟩
      unfold Server.updateMerkleCache at hmem
      split_ifs at hmem <;> exact hmem

theorem ownSize_serialize (block : CBlockHeader) : OwnSize block.serialize := by
  refine ⟨?_, length_serialize block⟩
  rw [length_serialize_eq]
  split_ifs <;> omega

/-- The chain and the cache are in order in every run. -/
theorem stored_of_reachable
    (hs : Reachable (SizedInit headerPoWHash hash) (AnyStep headerPoWHash hash) s) :
    Stored headerPoWHash hash s ∧ ∀ hdr ∈ s.headers, OwnSize hdr := by
  refine hs.invariant (I := fun s => Stored headerPoWHash hash s ∧ ∀ hdr ∈ s.headers, OwnSize hdr)
    ?_ ?_
  · intro s h
    exact ⟨stored_of_init h.init, h.ownSize⟩
  · rintro s t ⟨hstored, hsize⟩ ⟨op, -, hop⟩
    obtain ⟨hstored', hheaders⟩ := hstored.apply hop
    refine ⟨hstored', fun hdr hmem => ?_⟩
    rcases hheaders hdr hmem with hold | ⟨block, rfl⟩
    · exact hsize hdr hold
    · exact ownSize_serialize block

end Runs

/-! ## The request -/

section Request

variable {headerPoWHash : Header → Hash} {hash : Hash → Hash → Hash} {s : Server} {c : Client}
  {height count : Nat} {cpHeight : Option Nat}

/-- A header that the client may be served passes the checks on listed headers. -/
theorem checkListed_of_ownSize {hdr : Header} {headersAsList : Bool} (h : OwnSize hdr)
    (hlayout : isHeaderV2 hdr = false ∨ headersAsList = true) :
    checkListed headersAsList hdr = .ok hdr := by
  have hsize := length_of_headerSizeFor h.2 h.ne_nil
  rw [checkListed, if_neg (not_not.mpr h.2), if_neg]
  rintro ⟨hlist, hlen⟩
  rcases hlayout with hv1 | hlist'
  · rw [hv1] at hsize
    exact hlen hsize
  · rw [hlist'] at hlist
    cases hlist

theorem version_le_of_v2 {v : Version} (h : maxProtocolVersionV2 ≤ v) :
    (⟨1, 6, 0⟩ : Version) ≤ v := by
  have hle : ∀ a b : Version, a ≤ b ↔ ¬ (b.major < a.major ∨ b.major = a.major ∧
      (b.minor < a.minor ∨ b.minor = a.minor ∧ b.revision < a.revision)) := fun _ _ => Iff.rfl
  rw [hle] at h ⊢
  simp only [maxProtocolVersionV2] at h ⊢
  omega

/-- All headers of a range are given to a client that may be served headers. -/
theorem readHeaders_blockHeaders (hstored : Stored headerPoWHash hash s)
    (hsize : ∀ hdr ∈ s.headers, OwnSize hdr)
    (hserve : ProtocolV2.mayServeHeaders (query s.chain).1.isSome c.protocolVersion = true)
    {n cp : Nat} (hn : n ≤ maxCount) :
    (Job.blockHeaders height n cp (decide ((⟨1, 6, 0⟩ : Version) ≤ c.protocolVersion))).readHeaders
        s.headers none = .ok ⟨height, headersFromHeight s.headers height n⟩ := by
  have hlayout : ∀ hdr ∈ s.headers, isHeaderV2 hdr = false ∨
      decide ((⟨1, 6, 0⟩ : Version) ≤ c.protocolVersion) = true := by
    intro hdr hmem
    rcases v2Free_or_capable hstored.atRest hserve with hfree | hcap
    · exact .inl (hfree hdr hmem)
    · exact .inr (decide_eq_true (version_le_of_v2 hcap))
  have hlist := mapM_ok (l := headersFromHeight s.headers height n) (g := id)
    (f := checkListed (decide ((⟨1, 6, 0⟩ : Version) ≤ c.protocolVersion))) (fun hdr hmem => by
      have hstore := List.mem_of_mem_drop (List.mem_of_mem_take hmem)
      exact checkListed_of_ownSize (hsize hdr hstore) (hlayout hdr hstore))
  rw [Job.readHeaders, min_eq_left hn, hlist, List.map_id]
  rfl

/-- The first part of a request with arguments in range. -/
theorem rpcBlockHeaders_eq (h : Admitted s c height count cpHeight) {n : Nat}
    (hn : clampCount s.latestTip height count = n) :
    (n = 0 ∨ cpHeight.getD 0 = 0 ∨
        height + (n - 1) ≤ cpHeight.getD 0 ∧ cpHeight.getD 0 ≤ s.latestTip →
      rpcBlockHeaders (query s.chain).1.isSome s.latestTip c (some height) (some count)
          (cpHeight.map some) =
        .ok (.blockHeaders height n (cpHeight.getD 0)
          (decide ((⟨1, 6, 0⟩ : Version) ≤ c.protocolVersion)))) ∧
    (¬ (n = 0 ∨ cpHeight.getD 0 = 0 ∨
        height + (n - 1) ≤ cpHeight.getD 0 ∧ cpHeight.getD 0 ≤ s.latestTip) →
      ∃ e, rpcBlockHeaders (query s.chain).1.isSome s.latestTip c (some height) (some count)
        (cpHeight.map some) = .error e) := by
  have harg : ∀ (name : String) {k : Nat}, k < maxHeaders → uintArg name (some k) = .ok k := by
    intro name k hk
    exact if_neg (by omega)
  have hlast : uintArg "cp_height" ((cpHeight.map some).getD (some 0)) =
      .ok (cpHeight.getD 0) := by
    cases cpHeight with
    | none => exact harg _ h.cpHeight_lt
    | some cp => exact harg _ h.cpHeight_lt
  have hchain : ensure (0 ≤ s.latestTip) (.exception (.internalError "chain height is negative")) =
      .ok () := if_pos h.tip
  rw [rpcBlockHeaders, h.serve, harg "height" h.height_lt, harg "count" h.count_lt, hchain, hlast]
  constructor
  · intro hrange
    simp [bind, Except.bind, hn, ensure, hrange]
  · intro hrange
    simp [bind, Except.bind, hn, ensure, hrange]

/-- The range that is read. -/
theorem headersAt_headersFromHeight {headers : List Header} {n : Nat}
    (h : height + n ≤ headers.length ∨ n = 0) :
    HeadersAt headers height n (headersFromHeight headers height n) := by
  refine ⟨?_, ?_⟩
  · rw [headersFromHeight, List.length_take, List.length_drop]
    omega
  · intro i hi
    have hlt : height + i < headers.length := by omega
    refine ⟨_, List.getElem?_eq_getElem hlt, ?_⟩
    rw [headersFromHeight, List.getElem?_take_of_lt hi, List.getElem?_drop,
      List.getElem?_eq_getElem hlt]

/-- An accepted request reads its range, and then asks for a branch if there is a checkpoint. -/
theorem blockHeaders_eq (hstored : Stored headerPoWHash hash s)
    (hsize : ∀ hdr ∈ s.headers, OwnSize hdr) (h : Admitted s c height count cpHeight) {n : Nat}
    (hn : clampCount s.latestTip height count = n)
    (hrange : n = 0 ∨ cpHeight.getD 0 = 0 ∨
      height + (n - 1) ≤ cpHeight.getD 0 ∧ cpHeight.getD 0 ≤ s.latestTip) :
    s.blockHeaders headerPoWHash hash c height count cpHeight =
      ((Job.blockHeaders height n (cpHeight.getD 0)
        (decide ((⟨1, 6, 0⟩ : Version) ≤ c.protocolVersion))).finish headerPoWHash hash s.headers
          s.merkleCache ⟨height, headersFromHeight s.headers height n⟩).1 := by
  have hmax : n ≤ maxCount := hn ▸ Nat.min_le_right _ _
  have hcap : ProtocolV2.mayServeHeaders (query s.chain).1.isSome c.protocolVersion = true := by
    have hserve := h.serve
    by_contra hno
    rw [requireHeaderCapableClient, ensure, if_neg hno] at hserve
    cases hserve
  have hread := @readHeaders_blockHeaders _ _ _ _ height hstored hsize hcap _ (cpHeight.getD 0) hmax
  rw [Server.blockHeaders, (rpcBlockHeaders_eq h hn).1 hrange]
  simp only [bind, Except.bind, hread]

/-- A request without a checkpoint, or for no headers. -/
theorem blockHeaders_plain (hstored : Stored headerPoWHash hash s)
    (hsize : ∀ hdr ∈ s.headers, OwnSize hdr) (h : Admitted s c height count cpHeight) {n : Nat}
    (hn : clampCount s.latestTip height count = n) (hnone : cpHeight.getD 0 = 0 ∨ n = 0) :
    s.blockHeaders headerPoWHash hash c height count cpHeight =
      .ok { height := height, headers := headersFromHeight s.headers height n } := by
  have hproof : (Job.blockHeaders height n (cpHeight.getD 0)
      (decide ((⟨1, 6, 0⟩ : Version) ≤ c.protocolVersion))).proof = none := if_pos hnone.symm
  rw [blockHeaders_eq hstored hsize h hn (by tauto), Job.finish, hproof]
  rfl

theorem blockHeaders_refused (h : Admitted s c height count cpHeight) {n : Nat}
    (hn : clampCount s.latestTip height count = n)
    (hrange : ¬ (n = 0 ∨ cpHeight.getD 0 = 0 ∨
      height + (n - 1) ≤ cpHeight.getD 0 ∧ cpHeight.getD 0 ≤ s.latestTip)) :
    ∃ e, s.blockHeaders headerPoWHash hash c height count cpHeight = .error e := by
  obtain ⟨e, he⟩ := (rpcBlockHeaders_eq h hn).2 hrange
  refine ⟨e, ?_⟩
  rw [Server.blockHeaders, he]
  rfl

/-- A request with a checkpoint is answered as the merkle cache answers. -/
theorem blockHeaders_proof (hstored : Stored headerPoWHash hash s)
    (hsize : ∀ hdr ∈ s.headers, OwnSize hdr) (h : Admitted s c height count cpHeight) {n : Nat}
    (hn : clampCount s.latestTip height count = n) (hcp : cpHeight.getD 0 ≠ 0) (hpos : n ≠ 0)
    (hle : height + n - 1 ≤ cpHeight.getD 0) (htip : cpHeight.getD 0 ≤ s.latestTip) :
    (∃ reply pair, s.blockHeaders headerPoWHash hash c height count cpHeight = .ok reply ∧
        HeadersAt s.headers height n reply.headers ∧ reply.branchAndRoot = some pair ∧
        Merkle.branchAndRoot hash ((s.headers.map headerPoWHash).take (cpHeight.getD 0 + 1))
          (height + n - 1) none = .ok pair) ↔
      s.merkleCache.initialized = true ∧ (s.merkleCache.length ≤ cpHeight.getD 0 + 1 ∨
        (cpHeight.getD 0 + 1) % s.merkleCache.segmentLength ≠ 0) := by
  have hlen : cpHeight.getD 0 + 1 ≤ (s.headers.map headerPoWHash).length := by
    rw [List.length_map]
    rw [Server.latestTip] at htip
    omega
  have hheaders : HeadersAt s.headers height n (headersFromHeight s.headers height n) := by
    rw [List.length_map] at hlen
    exact headersAt_headersFromHeight (.inl (by omega))
  have hproof : (Job.blockHeaders height n (cpHeight.getD 0)
      (decide ((⟨1, 6, 0⟩ : Version) ≤ c.protocolVersion))).proof =
        some (height + n - 1, cpHeight.getD 0) := if_neg (by tauto)
  rw [blockHeaders_eq hstored hsize h hn (.inr (.inr ⟨by omega, htip⟩)),
    ← hstored.cache.answers_iff (show height + n - 1 < cpHeight.getD 0 + 1 by omega) hlen]
  rcases hquery : s.merkleCache.branchAndRoot hash (s.headers.map headerPoWHash)
    (cpHeight.getD 0 + 1) (height + n - 1) with ⟨res, cache⟩
  cases res with
  | error e =>
      have hfinish : ((Job.blockHeaders height n (cpHeight.getD 0)
          (decide ((⟨1, 6, 0⟩ : Version) ≤ c.protocolVersion))).finish headerPoWHash hash s.headers
            s.merkleCache ⟨height, headersFromHeight s.headers height n⟩).1 =
              .error (.exception e) := by
        simp only [Job.finish, hproof, getHeadersBranchAndRoot, if_pos hle, hquery]
        rfl
      rw [hfinish]
      constructor
      · rintro ⟨reply, pair, hno, -⟩
        cases hno
      · rintro ⟨pair, hno, -⟩
        cases hno
  | ok pair =>
      rw [finish_of_branchAndRoot hproof hle hquery]
      constructor
      · rintro ⟨reply, pair', hreply, -, hpair, hplain⟩
        cases hreply
        cases hpair
        exact ⟨pair, rfl, hplain⟩
      · rintro ⟨pair', hpair, hplain⟩
        cases hpair
        exact ⟨_, pair, rfl, hheaders, rfl, hplain⟩

/-- Up to one past the tip, the answer is the range unless the merkle cache refuses. -/
theorem rangeAnswer_of_le (hstored : Stored headerPoWHash hash s)
    (hsize : ∀ hdr ∈ s.headers, OwnSize hdr) (h : Admitted s c height count cpHeight)
    (hle : (height : Int) ≤ s.latestTip + 1) :
    RangeAnswer headerPoWHash hash s height (rangeLength s.latestTip height count)
        (cpHeight.getD 0) (s.blockHeaders headerPoWHash hash c height count cpHeight) ↔
      CacheAnswers s height (rangeLength s.latestTip height count) (cpHeight.getD 0) := by
  have hlen := hstored.length_le
  have hn : clampCount s.latestTip height count = rangeLength s.latestTip height count :=
    clampCount_of_le (by rw [Server.latestTip]; omega) hle
  constructor
  · intro hanswer hcp hpos hlast htip
    exact (blockHeaders_proof hstored hsize h hn hcp hpos hlast htip).mp
      (hanswer.proof hcp hpos hlast htip)
  · intro hcache
    refine ⟨?_, ?_, ?_⟩
    · intro hnone
      refine ⟨_, blockHeaders_plain hstored hsize h hn hnone, ?_, rfl⟩
      refine headersAt_headersFromHeight ?_
      rw [rangeLength]
      unfold Server.latestTip at hle ⊢
      split_ifs <;> omega
    · intro hcp hpos hlast htip
      exact (blockHeaders_proof hstored hsize h hn hcp hpos hlast htip).mpr
        (hcache hcp hpos hlast htip)
    · intro hcp hpos hno
      refine blockHeaders_refused h hn ?_
      omega

/-- Further past the tip, a request for some headers with a checkpoint is refused. -/
theorem rangeAnswer_of_lt (hstored : Stored headerPoWHash hash s)
    (hsize : ∀ hdr ∈ s.headers, OwnSize hdr) (h : Admitted s c height count cpHeight)
    (hlt : s.latestTip + 1 < height) :
    RangeAnswer headerPoWHash hash s height (rangeLength s.latestTip height count)
        (cpHeight.getD 0) (s.blockHeaders headerPoWHash hash c height count cpHeight) ↔
      count = 0 ∨ cpHeight.getD 0 = 0 := by
  have hzero : rangeLength s.latestTip height count = 0 := if_pos (by omega)
  have hn : clampCount s.latestTip height count = min count maxCount :=
    clampCount_of_lt h.tip h.height_lt hlt
  have hmax : 0 < maxCount := by decide
  rw [hzero]
  constructor
  · intro hanswer
    by_contra hno
    rw [not_or] at hno
    obtain ⟨reply, hreply, -⟩ := hanswer.plain (.inr rfl)
    obtain ⟨e, he⟩ := @blockHeaders_refused headerPoWHash hash _ _ _ _ _ h _ hn (by omega)
    rw [he] at hreply
    cases hreply
  · intro hnone
    refine ⟨fun _ => ?_, fun _ hpos => absurd rfl hpos, fun _ hpos => absurd rfl hpos⟩
    refine ⟨_, blockHeaders_plain hstored hsize h hn (by omega), ?_, rfl⟩
    have hnil : headersFromHeight s.headers height (min count maxCount) = [] := by
      rw [Server.latestTip] at hlt
      rw [headersFromHeight, List.drop_eq_nil_of_le (by omega), List.take_nil]
    rw [hnil]
    exact ⟨rfl, fun i hi => absurd hi (Nat.not_lt_zero i)⟩

/--
In every state of every run with a tip, for every client that may be served
headers and all arguments in range: the answer is the range, with a branch as
asked for, and no operation wraps, if and only if the height is at most one
past the tip (which is below the greatest `int`) and the merkle cache answers.
The answer alone is right also further past the tip where no headers or no
branch are asked for.
-/
theorem blockHeaders_range
    (hs : Reachable (SizedInit headerPoWHash hash) (AnyStep headerPoWHash hash) s)
    (h : Admitted s c height count cpHeight) :
    (RangeAnswer headerPoWHash hash s height (rangeLength s.latestTip height count)
          (cpHeight.getD 0) (s.blockHeaders headerPoWHash hash c height count cpHeight) ∧
        NoWrap s.latestTip height count ↔
      (s.latestTip + 1 < 2 ^ 31 ∧ (height : Int) ≤ s.latestTip + 1) ∧
        CacheAnswers s height (rangeLength s.latestTip height count) (cpHeight.getD 0)) ∧
    (RangeAnswer headerPoWHash hash s height (rangeLength s.latestTip height count)
        (cpHeight.getD 0) (s.blockHeaders headerPoWHash hash c height count cpHeight) ↔
      ((height : Int) ≤ s.latestTip + 1 ∨ count = 0 ∨ cpHeight.getD 0 = 0) ∧
        CacheAnswers s height (rangeLength s.latestTip height count) (cpHeight.getD 0)) := by
  obtain ⟨hstored, hsize⟩ := stored_of_reachable hs
  have hwrap : NoWrap s.latestTip height count ↔ _ := noWrap_iff h.height_lt
  rcases le_or_gt (height : Int) (s.latestTip + 1) with hle | hlt
  · have hanswer := rangeAnswer_of_le hstored hsize h hle
    rw [hanswer, hwrap]
    exact ⟨and_comm, ⟨fun hc => ⟨.inl hle, hc⟩, And.right⟩⟩
  · have hanswer := rangeAnswer_of_lt hstored hsize h hlt
    have hcache : CacheAnswers s height (rangeLength s.latestTip height count)
        (cpHeight.getD 0) := fun _ hpos => absurd (if_pos (by omega)) hpos
    rw [hanswer, hwrap]
    refine ⟨⟨fun hno => absurd hno.2.2 (by omega), fun hno => absurd hno.1.2 (by omega)⟩, ?_⟩
    exact ⟨fun hnone => ⟨.inr hnone, hcache⟩, fun hno => hno.1.resolve_left (by omega)⟩

end Request

/-! ## A chain of two headers -/

section Examples

/-- Two v1 headers with the merkle cache over them. -/
def twoHeaders (a b : CBlockHeader) : Server where
  chain := { headers := [a.serialize, b.serialize] }
  merkleCache := twoIds 0 0

variable {a b : CBlockHeader}

theorem sizedInit_nothing : SizedInit layoutId (· + ·) {} where
  init := init_nothing
  ownSize := nofun

theorem reachable_twoHeaders_any (ha : a.headerV2 = false) (hb : b.headerV2 = false) :
    Reachable (SizedInit layoutId (· + ·)) (AnyStep layoutId (· + ·)) (twoHeaders a b) :=
  reachable_any (reachable_twoHeaders sizedInit_nothing ha hb)

/-- A client that has not negotiated a version may be served v1 headers. -/
theorem admitted_twoHeaders (hb : b.headerV2 = false) {height : Nat} (h : height < 10) :
    Admitted (twoHeaders a b) {} height 5 (some 1) where
  serve := by
    rw [twoHeaders, query_twoHeaders hb]
    rfl
  tip := Int.le.intro 1 rfl
  height_lt := by
    rw [maxHeaders]
    omega
  count_lt := by decide
  cpHeight_lt := by decide

/-- The second of two headers, with a branch. -/
theorem blockHeaders_range_second :
    RangeAnswer layoutId (· + ·) (twoHeaders (sampleHeader false) (sampleHeader false)) 1 1 1
        ((twoHeaders (sampleHeader false) (sampleHeader false)).blockHeaders layoutId (· + ·)
          {} 1 5 (some 1)) ∧
      NoWrap 1 1 5 :=
  (blockHeaders_range (reachable_twoHeaders_any rfl rfl)
    (admitted_twoHeaders rfl (by decide))).1.mpr
      ⟨⟨by decide, by decide⟩, fun _ _ _ _ => ⟨rfl, .inl (by decide)⟩⟩

/-- The range from two past the tip on is refused with a checkpoint. -/
theorem blockHeaders_far_past_tip :
    ¬ ∀ (headerPoWHash : Header → Hash) (hash : Hash → Hash → Hash) (s : Server) (c : Client)
        (height count : Nat) (cpHeight : Option Nat),
      Reachable (SizedInit headerPoWHash hash) (AnyStep headerPoWHash hash) s →
      Admitted s c height count cpHeight →
        RangeAnswer headerPoWHash hash s height (rangeLength s.latestTip height count)
            (cpHeight.getD 0) (s.blockHeaders headerPoWHash hash c height count cpHeight) ∧
          NoWrap s.latestTip height count := by
  intro h
  have hrun : Reachable (SizedInit layoutId (· + ·)) (AnyStep layoutId (· + ·))
      (twoHeaders (sampleHeader false) (sampleHeader false)) := reachable_twoHeaders_any rfl rfl
  have hadm : Admitted (twoHeaders (sampleHeader false) (sampleHeader false)) {} 3 5 (some 1) :=
    admitted_twoHeaders rfl (by decide)
  obtain ⟨hstored, hsize⟩ := stored_of_reachable hrun
  have hzero := (rangeAnswer_of_lt hstored hsize hadm (by decide)).mp (h _ _ _ _ _ _ _ hrun hadm).1
  exact absurd hzero (by decide)

end Examples

end Servers
end Shulcrum
