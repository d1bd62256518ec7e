import Mathlib.Tactic
import Shulcrum.Types

/-!
# Block headers

The two header layouts, their serialization and the verifier that checks that
each header links to the previous one.  A serialized header is its list of
bytes; bit 31 of the version word marks the 164-byte layout.

**Results.**
* `isHeaderV2_serialize`, `length_serialize`: a serialized header describes its
  own layout and length.
* `trimHeaderRecord_pad`: a header padded for storage is read back unchanged.
-/

namespace Shulcrum

/-- A serialized header. -/
abbrev Header := List UInt8

namespace BTC

/-- The `k` low bytes of `v`, least significant first. -/
def leBytes (k v : Nat) : List UInt8 :=
  (List.range k).map fun i => UInt8.ofNat (v / 256 ^ i % 256)

/-- The `k` bytes of `v`, most significant first. -/
def beBytes (k v : Nat) : List UInt8 :=
  (leBytes k v).reverse

/-- `ReadLE32` on the first four bytes. -/
def readLE32 (b : List UInt8) : Nat :=
  b[0]!.toNat + 256 * b[1]!.toNat + 65536 * b[2]!.toNat + 16777216 * b[3]!.toNat

/-- `BTC::IsHeaderV2`: bit 31 of the version word. -/
def isHeaderV2 (header : Header) : Bool :=
  if header.length < 4 then false else (readLE32 header).testBit 31

def headerSizeV1 : Nat := 80

def headerSizeV2 : Nat := 164

/-- `BTC::HeaderSizeFor`. -/
def headerSizeFor (header : Header) : Nat :=
  if header.length < 4 then 0
  else if isHeaderV2 header then headerSizeV2 else headerSizeV1

/-- `CBlockHeader`.  The 32-byte fields are byte strings, first byte most significant. -/
structure CBlockHeader where
  headerV2 : Bool
  nVersion : BitVec 32
  hashPrevBlock : Hash
  hashMerkleRoot : Hash
  nTime : BitVec 32
  nBits : BitVec 32
  nNonce : BitVec 32
  nonce2 : BitVec 32 := 0
  nonce3 : BitVec 32 := 0
  extranonce : BitVec 128 := 0
  timeOffset : BitVec 32 := 0
  txcount : BitVec 16 := 0
  flags : BitVec 8 := 0
  xorKeyMaskClearBits : BitVec 8 := 0
  xorKey : BitVec 128 := 0
  height : BitVec 32 := 0
  mmRhs : BitVec 256 := 0
  deriving DecidableEq

namespace CBlockHeader

/-- `CBlockHeader::GetCompleteVersion`. -/
def getCompleteVersion (h : CBlockHeader) : BitVec 32 :=
  (if h.headerV2 then 0x80000000#32 else 0#32) ||| (h.nVersion &&& ~~~0x80000000#32)

/-- `CBlockHeader::IsNull`. -/
def isNull (h : CBlockHeader) : Bool := h.nBits == 0

/-- The wire serialization of a header. -/
def serialize (h : CBlockHeader) : Header :=
  leBytes 4 h.getCompleteVersion.toNat ++ beBytes 32 h.hashPrevBlock.toNat ++
    beBytes 32 h.hashMerkleRoot.toNat ++ leBytes 4 h.nTime.toNat ++ leBytes 4 h.nBits.toNat ++
    leBytes 4 h.nNonce.toNat ++
    if h.headerV2 then
      leBytes 4 h.nonce2.toNat ++ leBytes 4 h.nonce3.toNat ++ beBytes 16 h.extranonce.toNat ++
        leBytes 4 h.timeOffset.toNat ++ leBytes 2 h.txcount.toNat ++ leBytes 1 h.flags.toNat ++
        leBytes 1 h.xorKeyMaskClearBits.toNat ++ beBytes 16 h.xorKey.toNat ++
        leBytes 4 h.height.toNat ++ beBytes 32 h.mmRhs.toNat
    else []

end CBlockHeader

@[simp] theorem length_leBytes (k v : Nat) : (leBytes k v).length = k := by
  simp [leBytes]

@[simp] theorem length_beBytes (k v : Nat) : (beBytes k v).length = k := by
  simp [beBytes]

theorem leBytes_four (v : Nat) :
    leBytes 4 v = [UInt8.ofNat (v % 256), UInt8.ofNat (v / 256 % 256),
      UInt8.ofNat (v / 65536 % 256), UInt8.ofNat (v / 16777216 % 256)] := by
  simp [leBytes, List.range_succ]

theorem readLE32_leBytes {v : Nat} (h : v < 2 ^ 32) (rest : List UInt8) :
    readLE32 (leBytes 4 v ++ rest) = v := by
  rw [leBytes_four]
  simp [readLE32]
  omega

theorem testBit_getCompleteVersion (h : CBlockHeader) :
    h.getCompleteVersion.toNat.testBit 31 = h.headerV2 := by
  rw [BitVec.testBit_toNat]
  cases hv : h.headerV2 <;> simp [CBlockHeader.getCompleteVersion, hv]

@[simp] theorem isHeaderV2_serialize (h : CBlockHeader) :
    isHeaderV2 h.serialize = h.headerV2 := by
  have hlen : ¬ h.serialize.length < 4 := by
    simp [CBlockHeader.serialize]
  have hread : readLE32 h.serialize = h.getCompleteVersion.toNat := by
    simp only [CBlockHeader.serialize, List.append_assoc]
    exact readLE32_leBytes h.getCompleteVersion.isLt _
  rw [isHeaderV2, if_neg hlen, hread, testBit_getCompleteVersion]

theorem length_serialize (h : CBlockHeader) :
    h.serialize.length = headerSizeFor h.serialize := by
  have hlen : h.serialize.length = if h.headerV2 then 164 else 80 := by
    cases hv : h.headerV2 <;> simp [CBlockHeader.serialize, hv]
  have hbig : ¬ h.serialize.length < 4 := by
    rw [hlen]
    split_ifs <;> omega
  rw [headerSizeFor, if_neg hbig, isHeaderV2_serialize, hlen]
  rfl

theorem headerSizeFor_serialize_pos (h : CBlockHeader) : 4 ≤ headerSizeFor h.serialize := by
  rw [← length_serialize]
  simp [CBlockHeader.serialize]

theorem serialize_ne_nil (h : CBlockHeader) : h.serialize ≠ [] := by
  intro hnil
  have hlen := headerSizeFor_serialize_pos h
  have hsize := length_serialize h
  rw [hnil, List.length_nil] at hsize
  rw [hnil] at hlen
  omega

/-- The record stored for a header: padded with zeros to the record size. -/
def padHeaderRecord (recSz : Nat) (h : Header) : Header :=
  h ++ List.replicate (recSz - h.length) 0

/-- `Pvt::trimHeaderRecord`: cut a record to the length its own version word gives. -/
def trimHeaderRecord (rec : Header) : Header :=
  let n := headerSizeFor rec
  if n > 0 ∧ rec.length > n then rec.take n else rec

theorem headerSizeFor_append {h : Header} (hlen : 4 ≤ h.length) (rest : List UInt8) :
    headerSizeFor (h ++ rest) = headerSizeFor h := by
  have hread : readLE32 (h ++ rest) = readLE32 h := by
    have hget : ∀ i, i < 4 → (h ++ rest)[i]! = h[i]! := by
      intro i hi
      rw [List.getElem!_eq_getElem?_getD, List.getElem!_eq_getElem?_getD,
        List.getElem?_append_left (by omega)]
    simp only [readLE32, hget 0 (by omega), hget 1 (by omega), hget 2 (by omega),
      hget 3 (by omega)]
  have hshort : ¬ h.length < 4 := by omega
  have hshort' : ¬ (h ++ rest).length < 4 := by
    rw [List.length_append]
    omega
  have hv2 : isHeaderV2 (h ++ rest) = isHeaderV2 h := by
    rw [isHeaderV2, isHeaderV2, if_neg hshort, if_neg hshort', hread]
  rw [headerSizeFor, headerSizeFor, if_neg hshort, if_neg hshort', hv2]

/-- A header padded for storage is read back as it was. -/
theorem trimHeaderRecord_pad (recSz : Nat) (h : CBlockHeader) :
    trimHeaderRecord (padHeaderRecord recSz h.serialize) = h.serialize := by
  have hlen := length_serialize h
  have hpos := headerSizeFor_serialize_pos h
  rw [trimHeaderRecord, padHeaderRecord, headerSizeFor_append (by omega), ← hlen]
  simp only [List.length_append, List.length_replicate]
  split_ifs with hcond
  · rw [List.take_left]
  · have hzero : recSz - h.serialize.length = 0 := by omega
    rw [hzero, List.replicate_zero, List.append_nil]

/-- `BTC::HeaderVerifier`: the last header seen and its height. -/
structure HeaderVerifier where
  prevHeight : Int := -1
  prev : Header := []
  deriving DecidableEq

namespace HeaderVerifier

/-- `HeaderVerifier::reset`. -/
def reset (nextHeight : Nat) (prevHeader : Header) : HeaderVerifier :=
  { prevHeight := (nextHeight : Int) - 1, prev := prevHeader }

/-- `HeaderVerifier::checkInner`, with the block id of a header as a parameter. -/
def checkInner (headerPoWHash : Header → Hash) (v : HeaderVerifier) (height : Int)
    (curHdr : CBlockHeader) : Except String Unit :=
  if curHdr.isNull then
    .error ("Header verification failed for header at height " ++ toString height ++
      ": failed to deserialize")
  else if v.prev ≠ [] ∧ headerPoWHash v.prev ≠ curHdr.hashPrevBlock then
    .error ("Header " ++ toString height ++
      " 'hashPrevBlock' does not match the contents of the previous block")
  else .ok ()

/-- `HeaderVerifier::operator()` on a deserialized header. -/
def verify (headerPoWHash : Header → Hash) (v : HeaderVerifier) (curHdr : CBlockHeader) :
    Except String HeaderVerifier :=
  let height := v.prevHeight + 1
  let header := curHdr.serialize
  if header.length ≠ headerSizeFor header then
    .error ("Header verification failed for header at height " ++ toString height ++
      ": wrong size")
  else
    match v.checkInner headerPoWHash height curHdr with
    | .error err => .error err
    | .ok () => .ok { prevHeight := height, prev := header }

/-- The state after a header was accepted. -/
theorem verify_ok {headerPoWHash : Header → Hash} {v v' : HeaderVerifier}
    {curHdr : CBlockHeader} (h : v.verify headerPoWHash curHdr = .ok v') :
    v' = { prevHeight := v.prevHeight + 1, prev := curHdr.serialize } := by
  unfold verify at h
  rw [if_neg (not_not.mpr (length_serialize curHdr))] at h
  cases hc : v.checkInner headerPoWHash (v.prevHeight + 1) curHdr with
  | error e =>
      simp only [hc] at h
      cases h
  | ok u =>
      simp only [hc] at h
      cases h
      rfl

end HeaderVerifier

/-- A header of either layout. -/
def sampleHeader (v2 : Bool) : CBlockHeader where
  headerV2 := v2
  nVersion := 1
  hashPrevBlock := 0
  hashMerkleRoot := 0
  nTime := 0
  nBits := 1
  nNonce := 0

end BTC
end Shulcrum
