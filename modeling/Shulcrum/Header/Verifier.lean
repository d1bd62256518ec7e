import Shulcrum.Header.PoW

/-!
# The header verifier accepts linked chains

The two overloads of the verifier, one for the bytes of a header and one for a
deserialized header, with the state of the verifier after the call.  A header
is accepted when it has the size its version word gives, is not null and links
to the header before it.

**Results.**
* `onBytes_accepts_iff`: when one header is accepted.
* `allAccepted_iff`: when a whole sequence is accepted.
* `onHeader_eq_onBytes`: the overloads agree.
* `verify_eq_onHeader`: the verifier of the block index is this one.
-/

namespace Shulcrum
namespace BTC

/-- A call that does not accept the header returns an error or throws. -/
inductive Failure where
  | returned (err : String)
  | thrown (what : String)
  deriving DecidableEq

namespace HeaderVerifier

section Verifier

variable (C : Crypto)

/-- `PrevHashForLinkCheck`: the block id of the previous header in wire order. -/
def prevHashForLinkCheck (prevHeader : Header) : Except String (List UInt8) :=
  List.reverse <$> headerPoWHashRev C prevHeader

/-- `HeaderVerifier::checkInner`, with the exceptions of the hash of the previous header. -/
def checkLink (v : HeaderVerifier) (height : Int) (curHdr : CBlockHeader) :
    Except Failure Unit :=
  if curHdr.isNull then
    .error (.returned ("Header verification failed for header at height " ++ toString height ++
      ": failed to deserialize"))
  else if v.prev = [] then .ok ()
  else
    match prevHashForLinkCheck C v.prev with
    | .error what => .error (.thrown what)
    | .ok h =>
        if h ≠ hashBytes curHdr.hashPrevBlock then
          .error (.returned ("Header " ++ toString height ++
            " 'hashPrevBlock' does not match the contents of the previous block"))
        else .ok ()

/-- `HeaderVerifier::operator()` on the bytes of a header. -/
def onBytes (v : HeaderVerifier) (header : Header) : Except Failure Unit × HeaderVerifier :=
  let height := v.prevHeight + 1
  if header.length ≠ headerSizeFor header then
    (.error (.returned ("Header verification failed for header at height " ++ toString height ++
      ": wrong size")), v)
  else
    match deserialize header with
    -- an empty string has the size of a header that is too short
    | .error what => (.error (.thrown what), v)
    | .ok curHdr =>
        match v.checkLink C height curHdr with
        | .error e => (.error e, v)
        | .ok () => (.ok (), { prevHeight := height, prev := header })

/-- `HeaderVerifier::operator()` on a deserialized header. -/
def onHeader (v : HeaderVerifier) (curHdr : CBlockHeader) :
    Except Failure Unit × HeaderVerifier :=
  let height := v.prevHeight + 1
  let header := curHdr.serialize
  if header.length ≠ headerSizeFor header then
    (.error (.returned ("Header verification failed for header at height " ++ toString height ++
      ": wrong size")), v)
  else
    match v.checkLink C height curHdr with
    | .error e => (.error e, v)
    | .ok () => (.ok (), { prevHeight := height, prev := header })

/-- Every header of the sequence is accepted. -/
def AllAccepted (v : HeaderVerifier) : List Header → Prop
  | [] => True
  | b :: bs => (v.onBytes C b).1 = .ok () ∧ AllAccepted (v.onBytes C b).2 bs

/-- The proof-of-work hash: SHA-256 twice, or the BLAKE2b pipeline for the second layout. -/
def PoWHash (header : Header) (x : Hash) : Prop :=
  if isHeaderV2 header then
    header.length = headerSizeV2 ∧
      ∃ h, deserialize header = .ok h ∧ h.getBlake2bPoWHash C = .ok x
  else header.length = headerSizeV1 ∧ x = BTC.hash C header

/-- The bytes of a header that is not null, in the size its version word gives. -/
structure WellFormed (b : Header) : Prop where
  length : b.length = headerSizeFor b
  notNull : ∃ h, deserialize b = .ok h ∧ h.isNull = false

/-- The header `b` names the proof-of-work hash of `prev` as its predecessor. -/
def LinksTo (prev b : Header) : Prop :=
  ∃ h, deserialize b = .ok h ∧ PoWHash C prev h.hashPrevBlock

theorem hashBytes_injective : Function.Injective hashBytes := by
  intro x y h
  have hx := ofNat_beBytes (w := 256) (k := 32) rfl x
  have hy := ofNat_beBytes (w := 256) (k := 32) rfl y
  rw [← hx, ← hy]
  exact congrArg (fun b => BitVec.ofNat 256 (ofBE b)) h

/-- The link check compares with the proof-of-work hash. -/
theorem prevHashForLinkCheck_iff {prev : Header} {x : Hash} :
    prevHashForLinkCheck C prev = .ok (hashBytes x) ↔ PoWHash C prev x := by
  unfold prevHashForLinkCheck headerPoWHashRev PoWHash
  cases hv2 : isHeaderV2 prev with
  | false =>
      by_cases hlen : prev.length = headerSizeV1
      · simp [hlen, hashRev, Functor.map, Except.map, hashBytes_injective.eq_iff, eq_comm]
      · simp [hlen, Functor.map, Except.map]
  | true =>
      by_cases hlen : prev.length = headerSizeV2
      · cases hd : deserialize prev with
        | error e => simp [hlen, bind, Except.bind, Functor.map, Except.map]
        | ok h =>
            cases hh : h.getBlake2bPoWHash C with
            | error e => simp [hlen, hh, bind, Except.bind, Functor.map, Except.map]
            | ok y =>
                simp [hlen, hh, bind, Except.bind, Functor.map, Except.map, pure, Except.pure,
                  hashBytes_injective.eq_iff]
      · simp [hlen, Functor.map, Except.map]

/-- When the link check of a header succeeds. -/
theorem checkLink_ok_iff {v : HeaderVerifier} {height : Int} {curHdr : CBlockHeader} :
    v.checkLink C height curHdr = .ok () ↔
      curHdr.isNull = false ∧ (v.prev ≠ [] → PoWHash C v.prev curHdr.hashPrevBlock) := by
  rw [← prevHashForLinkCheck_iff]
  unfold checkLink
  cases hnull : curHdr.isNull with
  | true => simp
  | false =>
      by_cases hprev : v.prev = []
      · simp [hprev]
      · cases hp : prevHashForLinkCheck C v.prev with
        | error e => simp [hprev]
        | ok h => simp [hprev]

/-- When one header is accepted. -/
theorem onBytes_accepts_iff {v : HeaderVerifier} {b : Header} :
    (v.onBytes C b).1 = .ok () ↔ WellFormed b ∧ (v.prev ≠ [] → LinksTo C v.prev b) := by
  unfold onBytes
  by_cases hlen : b.length = headerSizeFor b
  · cases hd : deserialize b with
    | error e =>
        simp only [hlen, ne_eq, not_true_eq_false, if_false, reduceCtorEq, false_iff, not_and]
        rintro ⟨-, h, hh, -⟩
        rw [hd] at hh
        cases hh
    | ok h =>
        have hok : (match v.checkLink C (v.prevHeight + 1) h with
            | .error e => ((.error e : Except Failure Unit), v)
            | .ok () => (.ok (), { prevHeight := v.prevHeight + 1, prev := b })).1 = .ok () ↔
            v.checkLink C (v.prevHeight + 1) h = .ok () := by
          cases v.checkLink C (v.prevHeight + 1) h with
          | error e => simp
          | ok u => simp
        simp only [hlen, ne_eq, not_true_eq_false, if_false]
        rw [hok, checkLink_ok_iff]
        constructor
        · rintro ⟨hnull, hlink⟩
          exact ⟨⟨hlen, h, hd, hnull⟩, fun hne => ⟨h, hd, hlink hne⟩⟩
        · rintro ⟨⟨-, h', hh', hnull⟩, hlink⟩
          obtain rfl : h = h' := Except.ok.inj (hd.symm.trans hh')
          refine ⟨hnull, fun hne => ?_⟩
          obtain ⟨h'', hh'', hp⟩ := hlink hne
          obtain rfl : h = h'' := Except.ok.inj (hd.symm.trans hh'')
          exact hp
  · simp only [hlen, ne_eq, not_false_eq_true, if_true, reduceCtorEq, false_iff, not_and]
    intro hb
    exact absurd hb.length hlen

/-- An accepted header becomes the previous one. -/
theorem onBytes_accepted {v : HeaderVerifier} {b : Header} (h : (v.onBytes C b).1 = .ok ()) :
    (v.onBytes C b).2 = { prevHeight := v.prevHeight + 1, prev := b } := by
  unfold onBytes at h ⊢
  by_cases hlen : b.length = headerSizeFor b
  · simp only [hlen, ne_eq, not_true_eq_false, if_false] at h ⊢
    cases hd : deserialize b with
    | error e => simp [hd] at h
    | ok curHdr =>
        simp only [hd] at h ⊢
        cases hc : v.checkLink C (v.prevHeight + 1) curHdr with
        | error e => simp [hc] at h
        | ok u => rfl
  · simp [hlen] at h

/-- A header that is not accepted leaves the verifier as it is. -/
theorem onBytes_rejected {v : HeaderVerifier} {b : Header} (h : (v.onBytes C b).1 ≠ .ok ()) :
    (v.onBytes C b).2 = v := by
  unfold onBytes at h ⊢
  by_cases hlen : b.length = headerSizeFor b
  · simp only [hlen, ne_eq, not_true_eq_false, if_false] at h ⊢
    cases hd : deserialize b with
    | error e => rfl
    | ok curHdr =>
        simp only [hd] at h ⊢
        cases hc : v.checkLink C (v.prevHeight + 1) curHdr with
        | error e => rfl
        | ok u => simp [hc] at h
  · simp [hlen]

theorem WellFormed.ne_nil {b : Header} (hb : WellFormed b) : b ≠ [] := by
  rintro rfl
  obtain ⟨h, hh, -⟩ := hb.notNull
  rw [deserialize_nil] at hh
  cases hh

/-- A sequence is accepted when its headers are well formed and each links to the one before. -/
theorem allAccepted_iff {v : HeaderVerifier} {bs : List Header} :
    AllAccepted C v bs ↔ (∀ b ∈ bs, WellFormed b) ∧
      ((if v.prev = [] then [] else [v.prev]) ++ bs).IsChain (LinksTo C) := by
  induction bs generalizing v with
  | nil =>
      split_ifs <;> simp [AllAccepted]
  | cons b bs ih =>
      rw [AllAccepted]
      constructor
      · rintro ⟨hb, hrest⟩
        rw [onBytes_accepted C hb, ih] at hrest
        obtain ⟨hwf, hlink⟩ := (onBytes_accepts_iff C).mp hb
        obtain ⟨hall, hchain⟩ := hrest
        rw [if_neg hwf.ne_nil] at hchain
        refine ⟨?_, ?_⟩
        · intro b' hb'
          rcases List.mem_cons.mp hb' with rfl | hb'
          · exact hwf
          · exact hall b' hb'
        · split_ifs with hprev
          · exact hchain
          · exact List.IsChain.cons_cons (hlink hprev) hchain
      · rintro ⟨hall, hchain⟩
        have hwf : WellFormed b := hall b List.mem_cons_self
        have hlink : v.prev ≠ [] → LinksTo C v.prev b := by
          intro hprev
          rw [if_neg hprev] at hchain
          exact (List.isChain_cons_cons.mp hchain).1
        have hb : (v.onBytes C b).1 = .ok () := (onBytes_accepts_iff C).mpr ⟨hwf, hlink⟩
        refine ⟨hb, ?_⟩
        rw [onBytes_accepted C hb, ih, if_neg hwf.ne_nil]
        refine ⟨fun b' hb' => hall b' (List.mem_cons_of_mem b hb'), ?_⟩
        split_ifs at hchain
        · exact hchain
        · exact (List.isChain_cons_cons.mp hchain).2

theorem checkLink_canonical {v : HeaderVerifier} {height : Int} (h : CBlockHeader) :
    v.checkLink C height h.canonical = v.checkLink C height h := by
  simp [checkLink, CBlockHeader.isNull]

/-- The overloads do the same on a header and on its bytes. -/
theorem onHeader_eq_onBytes (v : HeaderVerifier) (h : CBlockHeader) :
    v.onHeader C h = v.onBytes C h.serialize := by
  simp only [onHeader, onBytes, deserialize_serialize, checkLink_canonical]

/-- The overloads do the same on bytes that can be read and on the header read from them. -/
theorem onBytes_eq_onHeader (v : HeaderVerifier) {b : Header} {h : CBlockHeader}
    (hlen : b.length = headerSizeFor b) (hb : deserialize b = .ok h) :
    v.onBytes C b = v.onHeader C h := by
  have hne : b ≠ [] := by
    rintro rfl
    rw [deserialize_nil] at hb
    cases hb
  obtain ⟨h', hh', hser⟩ := exists_deserialize hlen hne
  obtain rfl : h = h' := Except.ok.inj (hb.symm.trans hh')
  rw [onHeader_eq_onBytes, hser]

/-- The block id that the verifier of the block index uses. -/
def blockId (header : Header) : Hash :=
  match prevHashForLinkCheck C header with
  | .ok b => BitVec.ofNat 256 (ofBE b)
  | .error _ => 0

/-- On a verifier whose last header has its own size, no call throws and the verifier of the block
index does the same. -/
theorem verify_eq_onHeader {v : HeaderVerifier} (hv : v.prev.length = headerSizeFor v.prev)
    (h : CBlockHeader) :
    v.onHeader C h =
      match v.verify (blockId C) h with
      | .ok v' => (.ok (), v')
      | .error e => (.error (.returned e), v) := by
  have hlink : v.checkLink C (v.prevHeight + 1) h =
      (v.checkInner (blockId C) (v.prevHeight + 1) h).mapError .returned := by
    unfold checkLink checkInner
    by_cases hnull : h.isNull = true
    · simp [hnull, Except.mapError]
    · by_cases hprev : v.prev = []
      · simp [hnull, hprev, Except.mapError]
      · obtain ⟨x, hx⟩ := exists_headerPoWHashRev C hv hprev
        have hp : prevHashForLinkCheck C v.prev = .ok (hashBytes x) := by
          simp [prevHashForLinkCheck, hx, Functor.map, Except.map]
        have hid : blockId C v.prev = x := by
          simp only [blockId, hp]
          exact ofNat_beBytes (w := 256) (k := 32) rfl x
        by_cases he : x = h.hashPrevBlock
        · simp [hnull, hprev, hp, hid, he, Except.mapError]
        · simp [hnull, hprev, hp, hid, he, Except.mapError, hashBytes_injective.eq_iff]
  have hlen : ¬ h.serialize.length ≠ headerSizeFor h.serialize :=
    not_not.mpr (length_serialize h)
  unfold onHeader verify
  simp only [if_neg hlen, hlink]
  cases v.checkInner (blockId C) (v.prevHeight + 1) h with
  | error e => rfl
  | ok u => rfl

/-- The verifier accepts exactly the linked chains, a header that is not accepted changes nothing,
and the overloads agree. -/
theorem verifier_accepts_linked_chains (nextHeight : Nat) (prevHeader : Header) :
    (∀ bs, AllAccepted C (reset nextHeight prevHeader) bs ↔ (∀ b ∈ bs, WellFormed b) ∧
      ((if prevHeader = [] then [] else [prevHeader]) ++ bs).IsChain (LinksTo C)) ∧
    (∀ bs, AllAccepted C {} bs ↔ (∀ b ∈ bs, WellFormed b) ∧ bs.IsChain (LinksTo C)) ∧
    (∀ (v : HeaderVerifier) b, (v.onBytes C b).1 ≠ .ok () → (v.onBytes C b).2 = v) ∧
    (∀ (v : HeaderVerifier) h, v.onHeader C h = v.onBytes C h.serialize) ∧
    ∀ (v : HeaderVerifier) b h, b.length = headerSizeFor b → deserialize b = .ok h →
      v.onBytes C b = v.onHeader C h := by
  refine ⟨fun bs => allAccepted_iff C, fun bs => ?_, fun v b => onBytes_rejected C,
    onHeader_eq_onBytes C, fun v b h hlen hb => onBytes_eq_onHeader C v hlen hb⟩
  rw [allAccepted_iff]
  rfl

end Verifier
end HeaderVerifier
end BTC
end Shulcrum
