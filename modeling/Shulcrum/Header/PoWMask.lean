import Shulcrum.Header.PoW

/-!
# The mask of the proof-of-work hash

The mask is cleared from its first bit on, in whole bytes and then in part of
one.  The first byte is the most significant one of the block id.

**Results.**
* `testBit_ofBE`: the bits of a number and of its bytes.
* `getMsbD_appliedMask`: the bits of the mask that is applied.
* `blake2b_pow_hash`: the pipeline completes, and what mask it applies.
-/

namespace Shulcrum
namespace BTC

section Bits

theorem testBit_ofLE (bytes : List UInt8) (k : Nat) :
    (ofLE bytes).testBit k = ((bytes[k / 8]?).getD 0).toNat.testBit (k % 8) := by
  induction bytes generalizing k with
  | nil => simp [ofLE]
  | cons b bytes ih =>
      have hb : b.toNat < 2 ^ 8 := b.toNat_lt
      have hrec : ofLE (b :: bytes) = 2 ^ 8 * ofLE bytes + b.toNat := by
        rw [Nat.add_comm]
        rfl
      rw [hrec, Nat.testBit_two_pow_mul_add _ hb]
      split_ifs with hk
      · rw [Nat.div_eq_of_lt hk, Nat.mod_eq_of_lt hk]
        rfl
      · have hdiv : k / 8 = (k - 8) / 8 + 1 := by omega
        have hmod : k % 8 = (k - 8) % 8 := by omega
        rw [ih, hdiv, hmod, List.getElem?_cons_succ]

/-- The bits of a number of 32 bytes, from the first byte's highest bit on. -/
theorem testBit_ofBE {bytes : List UInt8} (hlen : bytes.length = 32) {j : Nat} (hj : j < 256) :
    (ofBE bytes).testBit (255 - j) = ((bytes[j / 8]?).getD 0).toNat.testBit (7 - j % 8) := by
  have hdiv : (255 - j) / 8 = 31 - j / 8 := by omega
  have hmod : (255 - j) % 8 = 7 - j % 8 := by omega
  rw [ofBE, testBit_ofLE, hdiv, hmod, List.getElem?_reverse (by omega)]
  have hidx : bytes.length - 1 - (31 - j / 8) = j / 8 := by omega
  rw [hidx]

theorem getMsbD_ofBE {bytes : List UInt8} (hlen : bytes.length = 32) {j : Nat} (hj : j < 256) :
    (BitVec.ofNat 256 (ofBE bytes)).getMsbD j =
      ((bytes[j / 8]?).getD 0).toNat.testBit (7 - j % 8) := by
  have hlt : 255 - j < 256 := by omega
  rw [← testBit_ofBE hlen hj, BitVec.getMsbD_eq_getLsbD, BitVec.getLsbD_ofNat]
  simp [hj, hlt]

theorem getMsbD_hashBytes (h : Hash) {j : Nat} (hj : j < 256) :
    h.getMsbD j = (((hashBytes h)[j / 8]?).getD 0).toNat.testBit (7 - j % 8) := by
  have hself := ofNat_beBytes (w := 256) (k := 32) rfl h
  conv_lhs => rw [← hself]
  exact getMsbD_ofBE (by simp) hj

/-- The bits that a shifted byte keeps. -/
theorem testBit_clearing {r t : Nat} (ht : t < 8) :
    (UInt8.ofNat (0xff >>> r)).toNat.testBit t = decide (t < 8 - r) := by
  have hle : 0xff >>> r < 2 ^ 8 := by
    rw [Nat.shiftRight_eq_div_pow]
    exact (Nat.div_le_self _ _).trans_lt (by decide)
  have hff : (0xff : Nat) = 2 ^ 8 - 1 := rfl
  rw [UInt8.toNat_ofNat_of_lt' hle, Nat.testBit_shiftRight, hff, Nat.testBit_two_pow_sub_one]
  congr 1
  rw [eq_iff_iff]
  omega

end Bits

section Mask

variable (C : Crypto)

namespace CBlockHeader

/-- The mask before its first bits are cleared. -/
def unmaskedXorMask (h : CBlockHeader) : Hash :=
  if h.xorKey = 0 then 0
  else taggedHash C "Bitcoin block hash PoW XOR mask" (beBytes 16 h.xorKey.toNat)

/-- The mask that is applied, as a number. -/
def appliedMask (h : CBlockHeader) : Hash := BitVec.ofNat 256 (ofBE (h.xorMask C))

/-- The index of the byte that is cleared in part is in range. -/
theorem clearBytes_lt (h : CBlockHeader) : h.xorKeyMaskClearBits.toNat / 8 < 32 := by
  have hlt := h.xorKeyMaskClearBits.isLt
  omega

theorem xorMask_eq (h : CBlockHeader) :
    h.xorMask C =
      if h.xorKey = 0 then List.replicate 32 0
      else (List.replicate (h.xorKeyMaskClearBits.toNat / 8) 0 ++
        (hashBytes (h.unmaskedXorMask C)).drop (h.xorKeyMaskClearBits.toNat / 8)).modify
          (h.xorKeyMaskClearBits.toNat / 8)
          (· &&& UInt8.ofNat (0xff >>> (h.xorKeyMaskClearBits.toNat % 8))) := by
  have hlt := h.clearBytes_lt
  unfold xorMask
  split_ifs with hkey
  · rfl
  · rw [unmaskedXorMask, if_neg hkey]
    dsimp only
    rw [length_hashBytes, min_eq_left hlt.le, if_pos]
    rw [List.length_append, List.length_replicate, List.length_drop, length_hashBytes]
    omega

@[simp] theorem length_xorMask (h : CBlockHeader) : (h.xorMask C).length = 32 := by
  have hlt := h.clearBytes_lt
  rw [xorMask_eq]
  split_ifs
  · simp
  · simp
    omega

/-- The bytes of the mask: zero, cleared in part, or as they were. -/
theorem getElem?_xorMask {h : CBlockHeader} (hkey : h.xorKey ≠ 0) (i : Nat) :
    (h.xorMask C)[i]? =
      if i < h.xorKeyMaskClearBits.toNat / 8 then some (0 : UInt8)
      else (hashBytes (h.unmaskedXorMask C))[i]?.map fun b =>
        if h.xorKeyMaskClearBits.toNat / 8 = i then
          b &&& UInt8.ofNat (0xff >>> (h.xorKeyMaskClearBits.toNat % 8)) else b := by
  have hlt := h.clearBytes_lt
  rw [xorMask_eq, if_neg hkey, List.getElem?_modify]
  by_cases hi : i < h.xorKeyMaskClearBits.toNat / 8
  · have hne : h.xorKeyMaskClearBits.toNat / 8 ≠ i := by omega
    rw [if_pos hi, List.getElem?_append_left (by simpa using hi), List.getElem?_replicate,
      if_pos hi]
    simp [hne]
  · have hadd : h.xorKeyMaskClearBits.toNat / 8 + (i - h.xorKeyMaskClearBits.toNat / 8) = i := by
      omega
    have hge : h.xorKeyMaskClearBits.toNat / 8 ≤ i := not_lt.mp hi
    rw [if_neg hi, List.getElem?_append_right (by simpa using hge), List.getElem?_drop,
      List.length_replicate, hadd]
    split_ifs
    · rfl
    · rfl

/-- The bits of the mask that is applied. -/
theorem getMsbD_appliedMask (h : CBlockHeader) {j : Nat} (hj : j < 256) :
    (h.appliedMask C).getMsbD j =
      if j < h.xorKeyMaskClearBits.toNat then false else (h.unmaskedXorMask C).getMsbD j := by
  have hlt := h.clearBytes_lt
  rw [appliedMask, getMsbD_ofBE (h.length_xorMask C) hj, getMsbD_hashBytes _ hj]
  by_cases hkey : h.xorKey = 0
  · have hzero : (List.replicate 32 (0 : UInt8))[j / 8]? = some 0 := by
      rw [List.getElem?_replicate, if_pos (by omega)]
    have hbytes : hashBytes 0 = List.replicate 32 0 := by decide
    rw [xorMask_eq, if_pos hkey, unmaskedXorMask, if_pos hkey, hbytes, hzero]
    simp
  · rw [getElem?_xorMask C hkey]
    obtain ⟨b, hb⟩ : ∃ b, (hashBytes (h.unmaskedXorMask C))[j / 8]? = some b :=
      ⟨_, List.getElem?_eq_getElem (by rw [length_hashBytes]; omega)⟩
    rw [hb, Option.map_some, Option.getD_some]
    by_cases hbyte : j / 8 < h.xorKeyMaskClearBits.toNat / 8
    · have hcleared : j < h.xorKeyMaskClearBits.toNat := by omega
      rw [if_pos hbyte, if_pos hcleared]
      simp
    · rw [if_neg hbyte, Option.getD_some]
      by_cases hpart : h.xorKeyMaskClearBits.toNat / 8 = j / 8
      · have hbit := testBit_clearing (r := h.xorKeyMaskClearBits.toNat % 8) (t := 7 - j % 8)
          (by omega)
        rw [if_pos hpart, UInt8.toNat_and, Nat.testBit_and, hbit]
        by_cases hcleared : j < h.xorKeyMaskClearBits.toNat
        · have hno : ¬ 7 - j % 8 < 8 - h.xorKeyMaskClearBits.toNat % 8 := by omega
          rw [if_pos hcleared, decide_eq_false hno, Bool.and_false]
        · have hyes : 7 - j % 8 < 8 - h.xorKeyMaskClearBits.toNat % 8 := by omega
          rw [if_neg hcleared, decide_eq_true hyes, Bool.and_true]
      · have hcleared : ¬ j < h.xorKeyMaskClearBits.toNat := by omega
        rw [if_neg hpart, if_neg hcleared]

/-- The second BLAKE2b hash, before the mask is applied. -/
def outerHash (h : CBlockHeader) : Hash :=
  let h1 := taggedHash C "Bitcoin block header 1" (h.preimage1 C)
  let h2 := taggedHash C "Merge-mining hook" (h.preimage2 h1)
  C.blake2b256 (h.preimageAsic C h2 (C.blake2b256 (h.preimageSv1 h2)))

/-- The hash in display order is the outer hash with the mask applied to its bytes. -/
theorem exists_getBlake2bPoWHash_masked (h : CBlockHeader) :
    ∃ x : Hash, h.getBlake2bPoWHash C = .ok x ∧ (hashBytes x).reverse =
      List.zipWith (· ^^^ ·) (hashBytes (h.outerHash C)) (h.xorMask C) := by
  have h1 : (h.preimage1 C).length = 119 := by simp [preimage1]
  have h2 : ∀ x, (h.preimage2 x).length = 96 := fun x => by simp [preimage2]
  have hwork : ∀ x, (h.preimageSv1 x).length = 52 := fun x => by simp [preimageSv1]
  have hok : h.getBlake2bPoWHash C = .ok (BitVec.ofNat 256 (ofBE
      (List.zipWith (· ^^^ ·) (hashBytes (h.outerHash C)) (h.xorMask C)).reverse)) := by
    simp only [getBlake2bPoWHash, h1, h2, hwork, ne_eq, not_true_eq_false, if_false]
    rfl
  refine ⟨_, hok, ?_⟩
  rw [hashBytes, beBytes_ofNat (w := 256) rfl (by simp), List.reverse_reverse]

/-- The pipeline completes, and applies the mask with exactly its first bits cleared. -/
theorem blake2b_pow_hash (h : CBlockHeader) :
    (h.preimage1 C).length = 119 ∧ (∀ h1, (h.preimage2 h1).length = 96) ∧
    (∀ h2, (h.preimageSv1 h2).length = 52) ∧
    (∃ x : Hash, h.getBlake2bPoWHash C = .ok x ∧ (hashBytes x).reverse =
      List.zipWith (· ^^^ ·) (hashBytes (h.outerHash C)) (h.xorMask C)) ∧
    (h.xorMask C).length = 32 ∧ h.xorKeyMaskClearBits.toNat / 8 < 32 ∧
    h.xorKeyMaskClearBits.toNat % 8 < 8 ∧
    ∀ j < 256, (h.appliedMask C).getMsbD j =
      if j < min h.xorKeyMaskClearBits.toNat 256 then false
      else (h.unmaskedXorMask C).getMsbD j := by
  refine ⟨by simp [preimage1], fun _ => by simp [preimage2], fun _ => by simp [preimageSv1],
    h.exists_getBlake2bPoWHash_masked C, h.length_xorMask C, h.clearBytes_lt,
    Nat.mod_lt _ (by decide), fun j hj => ?_⟩
  have hbits := h.xorKeyMaskClearBits.isLt
  rw [getMsbD_appliedMask C h hj, min_eq_left (by omega)]

end CBlockHeader
end Mask
end BTC
end Shulcrum
