import Shulcrum.Header.Codec

/-!
# The proof-of-work hash of a header

A header of the first layout is hashed with SHA-256 twice.  A header of the
second layout goes through a pipeline of tagged SHA-256 hashes and two BLAKE2b
hashes.  SHA-256 and BLAKE2b themselves are parameters.

**Results.**
* `exists_headerPoWHashRev`: the hash of a header of its own size is computed
  without an exception.
-/

namespace Shulcrum
namespace BTC

/-- The two hash functions of the program. -/
structure Crypto where
  sha256 : List UInt8 → Hash
  /-- `blake2b_nokey` with 32 bytes of output, which fails for no input. -/
  blake2b256 : List UInt8 → Hash

section Pipeline

variable (C : Crypto)

/-- The bytes of a hash in wire order. -/
def hashBytes (h : Hash) : List UInt8 := beBytes 32 h.toNat

@[simp] theorem length_hashBytes (h : Hash) : (hashBytes h).length = 32 := by
  simp [hashBytes]

/-- `BTC::Hash`: SHA-256 twice. -/
protected def hash (b : List UInt8) : Hash := C.sha256 (hashBytes (C.sha256 b))

/-- `BTC::HashRev`. -/
def hashRev (b : List UInt8) : List UInt8 := (hashBytes (BTC.hash C b)).reverse

/-- `TaggedHash`. -/
def taggedHash (tag : String) (data : List UInt8) : Hash :=
  let th := hashBytes (C.sha256 tag.toUTF8.toList)
  C.sha256 (th ++ th ++ data)

namespace CBlockHeader

/-- The mask of the last step: zero without a key, and cleared in its first bits. -/
def xorMask (h : CBlockHeader) : List UInt8 :=
  if h.xorKey = 0 then List.replicate 32 0
  else
    let mask := hashBytes
      (taggedHash C "Bitcoin block hash PoW XOR mask" (beBytes 16 h.xorKey.toNat))
    let clearBytes := h.xorKeyMaskClearBits.toNat / 8
    let mask := List.replicate (min clearBytes mask.length) 0 ++ mask.drop clearBytes
    if clearBytes < mask.length then
      mask.modify clearBytes
        (· &&& UInt8.ofNat (0xff >>> (h.xorKeyMaskClearBits.toNat % 8)))
    else mask

/-- What the first tagged hash commits to. -/
def preimage1 (h : CBlockHeader) : List UInt8 :=
  leBytes 4 h.getCompleteVersion.toNat ++ (hashBytes h.hashPrevBlock).reverse ++
    leBytes 4 h.height.toNat ++ hashBytes h.hashMerkleRoot ++ leBytes 4 h.nTime.toNat ++ [0] ++
    leBytes 4 h.nBits.toNat ++ leBytes 4 h.txcount.toNat ++ leBytes 1 h.flags.toNat ++
    leBytes 1 h.xorKeyMaskClearBits.toNat ++
    hashBytes (taggedHash C "Bitcoin block hash PoW XOR key" (beBytes 16 h.xorKey.toNat))

/-- What the second tagged hash commits to. -/
def preimage2 (h : CBlockHeader) (h1 : Hash) : List UInt8 :=
  hashBytes h1 ++ List.replicate 32 0 ++ hashBytes h.mmRhs

/-- What a Stratum v1 miner receives. -/
def preimageSv1 (h : CBlockHeader) (h2 : Hash) : List UInt8 :=
  leBytes 4 0 ++ hashBytes h2 ++ beBytes 16 h.extranonce.toNat

/-- What the ASIC hashes, laid out by the low two bits of the flags. -/
def preimageAsic (h : CBlockHeader) (h2 inner : Hash) : List UInt8 :=
  let noncesAndInner := leBytes 4 h.nNonce.toNat ++ leBytes 4 h.nonce2.toNat ++
    leBytes 4 h.timeOffset.toNat ++ leBytes 4 h.nonce3.toNat ++ hashBytes inner
  match h.flags.toNat % 4 with
  | 0 =>
      let prevHidden := hashBytes
        (taggedHash C "Bitcoin prevblock header, hashed" (hashBytes h.hashPrevBlock).reverse)
      List.replicate 6 0 ++ prevHidden.drop 6 ++ noncesAndInner
  | 1 =>
      leBytes 4 h.nNonce.toNat ++ leBytes 4 h.nonce2.toNat ++ leBytes 4 h.nonce3.toNat ++
        leBytes 4 h.timeOffset.toNat ++ hashBytes inner ++ hashBytes h2
  | 2 => List.replicate 48 0 ++ hashBytes h2 ++ noncesAndInner
  | _ => List.replicate 32 0 ++ List.replicate 48 0 ++ hashBytes h2 ++ noncesAndInner

/-- `CBlockHeader::GetBlake2bPoWHash`. -/
def getBlake2bPoWHash (h : CBlockHeader) : Except String Hash :=
  let b1 := h.preimage1 C
  if b1.length ≠ 119 then .error "GetBlake2bPoWHash: h1 preimage is not 119 bytes"
  else
    let h1 := taggedHash C "Bitcoin block header 1" b1
    let b2 := h.preimage2 h1
    if b2.length ≠ 96 then .error "GetBlake2bPoWHash: h2 preimage is not 96 bytes"
    else
      let h2 := taggedHash C "Merge-mining hook" b2
      let work := h.preimageSv1 h2
      if work.length ≠ 52 then .error "GetBlake2bPoWHash: Sv1 preimage is not 52 bytes"
      else
        let inner := C.blake2b256 work
        let outer := hashBytes (C.blake2b256 (h.preimageAsic C h2 inner))
        -- the bytes are written back to front
        .ok (BitVec.ofNat 256 (ofBE (List.zipWith (· ^^^ ·) outer (h.xorMask C)).reverse))

/-- The three preimages have the lengths the pipeline expects. -/
theorem exists_getBlake2bPoWHash (h : CBlockHeader) : ∃ x, h.getBlake2bPoWHash C = .ok x := by
  have h1 : (h.preimage1 C).length = 119 := by
    simp [preimage1]
  have h2 : ∀ x, (h.preimage2 x).length = 96 := by
    intro x
    simp [preimage2]
  have hwork : ∀ x, (h.preimageSv1 x).length = 52 := by
    intro x
    simp [preimageSv1]
  simp only [getBlake2bPoWHash, h1, h2, hwork, ne_eq, not_true_eq_false, if_false]
  exact ⟨_, rfl⟩

end CBlockHeader

/-- `BTC::HeaderPoWHashRev`: the block id in display order. -/
def headerPoWHashRev (header : Header) : Except String (List UInt8) :=
  if ¬ isHeaderV2 header then
    if header.length ≠ headerSizeV1 then
      .error "HeaderPoWHashRev: v1 header is not 80 bytes"
    else .ok (hashRev C header)
  else if header.length ≠ headerSizeV2 then
    .error "HeaderPoWHashRev: v2 header is not 164 bytes"
  else do
    let hdr ← deserialize header
    let h ← hdr.getBlake2bPoWHash C
    return (hashBytes h).reverse

/-- The hash of a header of its own size is computed without an exception. -/
theorem exists_headerPoWHashRev {header : Header} (hlen : header.length = headerSizeFor header)
    (hne : header ≠ []) :
    ∃ x : Hash, headerPoWHashRev C header = .ok (hashBytes x).reverse := by
  obtain ⟨hdr, hdr_ok, -⟩ := exists_deserialize hlen hne
  obtain ⟨x, hx⟩ := hdr.exists_getBlake2bPoWHash C
  have hsize := length_of_headerSizeFor hlen hne
  unfold headerPoWHashRev
  cases hv2 : isHeaderV2 header with
  | false =>
      rw [hv2] at hsize
      refine ⟨BTC.hash C header, ?_⟩
      simp [hsize, headerSizeV1, hashRev]
  | true =>
      rw [hv2] at hsize
      refine ⟨x, ?_⟩
      simp [hsize, headerSizeV2, hdr_ok, hx, bind, Except.bind, pure, Except.pure]

end Pipeline
end BTC
end Shulcrum
