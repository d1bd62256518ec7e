import Shulcrum.Header.PoW

/-!
# Header round trips

A header object and its bytes determine each other, as far as the object holds
only what its layout has.  Headers written one after the other are told apart by
their own sizes, and the byte-level block id is that of the object.

**Results.**
* `canonical_eq_iff`: which objects are read back unchanged.
* `flatten_injective`: a concatenation of headers splits in one way.
* `headerPoWHashRev_eq`: the block id of the bytes is the reversed `GetHash()`.
* `header_codec`: the round trips together.
-/

namespace Shulcrum
namespace BTC

/-- The object holds what the class says it does: the version with bit 31 masked
off, and zeros in the second layout's fields of a header of the first. -/
structure CBlockHeader.Canonical (h : CBlockHeader) : Prop where
  nVersion : h.nVersion.msb = false
  nonce2 : h.headerV2 = false → h.nonce2 = 0
  nonce3 : h.headerV2 = false → h.nonce3 = 0
  extranonce : h.headerV2 = false → h.extranonce = 0
  timeOffset : h.headerV2 = false → h.timeOffset = 0
  txcount : h.headerV2 = false → h.txcount = 0
  flags : h.headerV2 = false → h.flags = 0
  xorKeyMaskClearBits : h.headerV2 = false → h.xorKeyMaskClearBits = 0
  xorKey : h.headerV2 = false → h.xorKey = 0
  height : h.headerV2 = false → h.height = 0
  mmRhs : h.headerV2 = false → h.mmRhs = 0

theorem mask_eq_iff (v : BitVec 32) : v &&& ~~~0x80000000#32 = v ↔ v.msb = false := by
  constructor
  · intro h
    have hmask : (~~~0x80000000#32 : BitVec 32).msb = false := by decide
    rw [← h, BitVec.msb_and, hmask, Bool.and_false]
  · intro h
    have hflag : v &&& 0x80000000#32 = if v.getLsbD 31 then 0x80000000#32 else 0#32 :=
      BitVec.and_twoPow v 31
    have hmsb : v.getLsbD 31 = false := (BitVec.msb_eq_getLsbD_last v).symm.trans h
    rw [hmsb] at hflag
    have hsplit : v &&& 0x80000000#32 ||| v &&& ~~~0x80000000#32 = v := by
      rw [← BitVec.and_or_distrib_left, BitVec.or_not_self, BitVec.and_allOnes]
    rw [hflag] at hsplit
    simpa using hsplit

/-- The objects that are read back unchanged. -/
theorem canonical_eq_iff (h : CBlockHeader) : h.canonical = h ↔ h.Canonical := by
  unfold CBlockHeader.canonical
  split_ifs with hv2
  · have hiff : { h with nVersion := h.nVersion &&& ~~~0x80000000#32 } = h ↔
        h.nVersion &&& ~~~0x80000000#32 = h.nVersion := by
      constructor
      · intro heq
        exact congrArg CBlockHeader.nVersion heq
      · intro heq
        rw [heq]
    rw [hiff, mask_eq_iff]
    constructor
    · intro hmsb
      constructor
      · exact hmsb
      all_goals
        intro hv1
        rw [hv2] at hv1
        cases hv1
    · exact fun hc => hc.nVersion
  · rw [Bool.not_eq_true] at hv2
    constructor
    · intro heq
      refine ⟨(mask_eq_iff _).mp (congrArg CBlockHeader.nVersion heq), ?_, ?_, ?_, ?_, ?_, ?_, ?_,
        ?_, ?_, ?_⟩
      · exact fun _ => (congrArg CBlockHeader.nonce2 heq).symm
      · exact fun _ => (congrArg CBlockHeader.nonce3 heq).symm
      · exact fun _ => (congrArg CBlockHeader.extranonce heq).symm
      · exact fun _ => (congrArg CBlockHeader.timeOffset heq).symm
      · exact fun _ => (congrArg CBlockHeader.txcount heq).symm
      · exact fun _ => (congrArg CBlockHeader.flags heq).symm
      · exact fun _ => (congrArg CBlockHeader.xorKeyMaskClearBits heq).symm
      · exact fun _ => (congrArg CBlockHeader.xorKey heq).symm
      · exact fun _ => (congrArg CBlockHeader.height heq).symm
      · exact fun _ => (congrArg CBlockHeader.mmRhs heq).symm
    · intro hc
      have hversion := (mask_eq_iff _).mpr hc.nVersion
      obtain ⟨hver, h2, h3, he, ho, ht, hf, hm, hk, hh, hr⟩ := hc
      rw [hversion]
      cases h with
      | mk headerV2 nVersion hashPrevBlock hashMerkleRoot nTime nBits nNonce nonce2 nonce3
          extranonce timeOffset txcount flags xorKeyMaskClearBits xorKey height mmRhs =>
          dsimp only at hv2 h2 h3 he ho ht hf hm hk hh hr
          rw [hv2, h2 hv2, h3 hv2, he hv2, ho hv2, ht hv2, hf hv2, hm hv2, hk hv2, hh hv2, hr hv2]

/-- A byte string of the length its first four bytes give. -/
def OwnSize (b : Header) : Prop := 4 ≤ b.length ∧ b.length = headerSizeFor b

theorem OwnSize.ne_nil {b : Header} (h : OwnSize b) : b ≠ [] := by
  rintro rfl
  exact absurd h.1 (by simp)

/-- The first header of a concatenation is found by its own size. -/
theorem OwnSize.eq_of_append {b b' rest rest' : Header} (h : OwnSize b) (h' : OwnSize b')
    (heq : b ++ rest = b' ++ rest') : b = b' ∧ rest = rest' := by
  have hlen : b.length = b'.length := by
    rw [h.2, h'.2, ← headerSizeFor_append h.1 rest, ← headerSizeFor_append h'.1 rest', heq]
  exact List.append_inj heq hlen

/-- A concatenation of headers splits in one way. -/
theorem flatten_injective {bs bs' : List Header} (h : ∀ b ∈ bs, OwnSize b)
    (h' : ∀ b ∈ bs', OwnSize b) (heq : bs.flatten = bs'.flatten) : bs = bs' := by
  induction bs generalizing bs' with
  | nil =>
      cases bs' with
      | nil => rfl
      | cons b' bs' =>
          have hne := (h' b' List.mem_cons_self).ne_nil
          rw [List.flatten_nil, List.flatten_cons] at heq
          exact absurd (List.append_eq_nil_iff.mp heq.symm).1 hne
  | cons b bs ih =>
      have hb := h b List.mem_cons_self
      cases bs' with
      | nil =>
          rw [List.flatten_nil, List.flatten_cons] at heq
          exact absurd (List.append_eq_nil_iff.mp heq).1 hb.ne_nil
      | cons b' bs' =>
          rw [List.flatten_cons, List.flatten_cons] at heq
          obtain ⟨rfl, hrest⟩ := hb.eq_of_append (h' b' List.mem_cons_self) heq
          rw [ih (fun x hx => h x (List.mem_cons_of_mem b hx))
            (fun x hx => h' x (List.mem_cons_of_mem b hx)) hrest]

section Hash

variable (C : Crypto)

/-- `CBlockHeader::GetHash`. -/
def CBlockHeader.getHash (h : CBlockHeader) : Except String Hash :=
  if h.headerV2 then h.getBlake2bPoWHash C else .ok (BTC.hash C h.serialize)

/-- The block id of the bytes is the reversed hash of the object. -/
theorem headerPoWHashRev_eq {b : Header} (hb : OwnSize b) {h : CBlockHeader}
    (hread : deserialize b = .ok h) :
    headerPoWHashRev C b = (fun x => (hashBytes x).reverse) <$> h.getHash C := by
  obtain ⟨h', hread', hser⟩ := exists_deserialize hb.2 hb.ne_nil
  rw [hread] at hread'
  cases hread'
  have hv2 : isHeaderV2 b = h.headerV2 := by
    rw [← hser, isHeaderV2_serialize]
  have hlen := length_of_headerSizeFor hb.2 hb.ne_nil
  rw [hv2] at hlen
  rw [headerPoWHashRev, CBlockHeader.getHash, hv2]
  cases hflag : h.headerV2 with
  | false =>
      rw [hflag] at hlen
      simp [hlen, headerSizeV1, hashRev, hser]
  | true =>
      rw [hflag] at hlen
      simp [hlen, headerSizeV2, hread, bind, Except.bind, pure, Except.pure]
      cases h.getBlake2bPoWHash C with
      | error e => rfl
      | ok x => rfl

theorem length_serialize_eq (h : CBlockHeader) :
    h.serialize.length = if h.headerV2 then 164 else 80 := by
  have hlen := length_of_headerSizeFor (length_serialize h) (serialize_ne_nil h)
  rwa [isHeaderV2_serialize] at hlen

/-- A header of its own size is read to its end. -/
theorem exists_unserialize {b : Header} (hb : OwnSize b) :
    ∃ h, CBlockHeader.unserialize b = .ok (h, []) ∧ h.serialize = b := by
  obtain ⟨h, hdes, hser⟩ := exists_deserialize hb.2 hb.ne_nil
  have hread := unserialize_serialize h []
  rw [List.append_nil, hser] at hread
  have hsame : h = h.canonical := by
    rw [deserialize, hread] at hdes
    exact (Except.ok.inj hdes).symm
  exact ⟨h, by rw [hread, ← hsame], hser⟩

/-- The object and the bytes of a header, and its block id. -/
theorem header_codec :
    (∀ (h : CBlockHeader) (rest : List UInt8),
      CBlockHeader.unserialize (h.serialize ++ rest) = .ok (h.canonical, rest) ∧
      h.serialize.length = (if h.headerV2 then 164 else 80) ∧
      (h.canonical = h ↔ h.Canonical)) ∧
    (∀ b, OwnSize b → ∃ h, CBlockHeader.unserialize b = .ok (h, []) ∧ h.serialize = b ∧
      headerPoWHashRev C b = (fun x => (hashBytes x).reverse) <$> h.getHash C) ∧
    (∀ bs bs' : List Header, (∀ b ∈ bs, OwnSize b) → (∀ b ∈ bs', OwnSize b) →
      bs.flatten = bs'.flatten → bs = bs') := by
  refine ⟨fun h rest => ?_, fun b hb => ?_, fun bs bs' => flatten_injective⟩
  · exact ⟨unserialize_serialize h rest, length_serialize_eq h, canonical_eq_iff h⟩
  · obtain ⟨h, hread, hser⟩ := exists_unserialize hb
    refine ⟨h, hread, hser, headerPoWHashRev_eq C hb ?_⟩
    rw [deserialize, hread]
    rfl

/-- Eighty zeros are a header of the first layout. -/
theorem header_codec_zeros :
    ∃ h, CBlockHeader.unserialize (List.replicate 80 0) = .ok (h, []) ∧
      h.serialize = List.replicate 80 0 := by
  have hown : OwnSize (List.replicate 80 0) := ⟨by decide, by decide⟩
  have hcodec := header_codec { sha256 := fun _ => 0, blake2b256 := fun _ => 0 }
  obtain ⟨h, hread, hser, -⟩ := hcodec.2.1 _ hown
  exact ⟨h, hread, hser⟩

/-- A version word with bit 31 set in the object is not read back. -/
theorem deserialize_negative_version :
    let h : CBlockHeader := {
      headerV2 := false, nVersion := 0xffffffff, hashPrevBlock := 0
      hashMerkleRoot := 0, nTime := 0, nBits := 0, nNonce := 0 }
    ∃ h', deserialize h.serialize = .ok h' ∧ h'.nVersion = 0x7fffffff ∧ h' ≠ h := by
  intro h
  refine ⟨_, deserialize_serialize h, by decide, ?_⟩
  rw [ne_eq, canonical_eq_iff]
  exact fun hc => absurd hc.nVersion (by decide)

end Hash

end BTC
end Shulcrum
