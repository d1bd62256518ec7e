import Shulcrum.Wire.Transaction

/-!
# Blocks on the wire

A block is a header, the transactions, and the MimbleWimble part if the last
transaction integrates one.

**Results.**
* `exact_header`, `exact_block`: headers and blocks are accepted in one form.
* `deserialize_iff_serialize`: a raw block without junk at its end is what the
  program writes for it.
-/

namespace Shulcrum
namespace Wire

open BTC Codec
open LitecoinBits (maxSize eatBlockMimbleBlob)
open Streams (writeCompactSize)

structure CBlock where
  header : CBlockHeader
  vtx : List CMutableTransaction
  mwBlob : Option Bytes := none

/-- The blob of the block follows its last transaction. -/
def integrates (v : Version) (vtx : List CMutableTransaction) : Bool :=
  v.useMweb && decide (2 ≤ vtx.length) && vtx.getLast?.any CMutableTransaction.isHogEx

namespace CBlock

/-- `SERIALIZE_METHODS`, reading. -/
def unserialize (v : Version) : Reader CBlock := do
  let header ← CBlockHeader.unserialize
  let vtx ← readVector (unserializeTransaction v)
  if integrates v vtx then do
    let blob ← eatBlockMimbleBlob
    return { header := header, vtx := vtx, mwBlob := some blob }
  else return { header := header, vtx := vtx }

/-- `SERIALIZE_METHODS`, writing. -/
def serialize (v : Version) (block : CBlock) : Except String Bytes := do
  let vtx ← block.vtx.mapM (serializeTransaction v)
  return block.header.serialize ++ (writeCompactSize block.vtx.length ++ vtx.flatten ++
    if integrates v block.vtx then block.mwBlob.getD [] else [])

/-- `BTC::Deserialize<CBlock>`, from the start of the bytes. -/
def deserialize (v : Version) (throwIfJunkAtEnd : Bool) (bytes : Bytes) :
    Except String CBlock := do
  let r ← unserialize v bytes
  if throwIfJunkAtEnd ∧ r.2 ≠ [] then
    throw s!"Got {r.2.length} unprocessed bytes at the end when deserializeing a bitcoin object"
  else pure r.1

/-- A block as it is read. -/
structure Valid (v : Version) (block : CBlock) : Prop where
  header : block.header.canonical = block.header
  nTx : block.vtx.length ≤ maxSize
  vtx : ∀ tx ∈ block.vtx, tx.Valid v
  mwBlob : if integrates v block.vtx then ∃ blob, block.mwBlob = some blob ∧
      eatBlockMimbleBlob blob = .ok (blob, [])
    else block.mwBlob = none

/-- The bytes of a block. -/
def form (v : Version) (block : CBlock) : Bytes :=
  block.header.serialize ++
    (writeVector (CMutableTransaction.form v) block.vtx ++ block.mwBlob.getD [])

end CBlock

section

variable {v : Version}

theorem canonical_of_read {s rest : Bytes} {h : CBlockHeader}
    (hread : CBlockHeader.unserialize s = .ok (h, rest)) :
    s = h.serialize ++ rest ∧ h.canonical = h := by
  simp only [CBlockHeader.unserialize, bind_eq_ok, exact_readUInt (w := 32) (k := 4) rfl _ _ _,
    exact_readBlob (w := 256) (k := 32) rfl _ _ _, and_true] at hread
  obtain ⟨ver, s₁, rfl, prev, s₂, rfl, root, s₃, rfl, time, s₄, rfl, bits, s₅, rfl, nonce, s₆,
    rfl, hrest⟩ := hread
  have hversion := congrArg (fun v : BitVec 32 => leBytes 4 v.toNat) (completeVersion ver)
  have hmask : ver &&& ~~~0x80000000#32 &&& ~~~0x80000000#32 = ver &&& ~~~0x80000000#32 := by
    rw [BitVec.and_assoc, BitVec.and_self]
  split_ifs at hrest with hv2
  · simp only [bind_eq_ok, pure_eq_ok, exact_readUInt (w := 32) (k := 4) rfl _ _ _,
      exact_readUInt (w := 16) (k := 2) rfl _ _ _, exact_readUInt (w := 8) (k := 1) rfl _ _ _,
      exact_readBlob (w := 128) (k := 16) rfl _ _ _,
      exact_readBlob (w := 256) (k := 32) rfl _ _ _, and_true] at hrest
    obtain ⟨n2, s₇, rfl, n3, s₈, rfl, extra, s₉, rfl, off, s₁₀, rfl, txs, s₁₁, rfl, flags, s₁₂,
      rfl, mask, s₁₃, rfl, key, s₁₄, rfl, ht, s₁₅, rfl, mm, s₁₆, rfl, rfl, rfl⟩ := hrest
    rw [if_pos hv2] at hversion
    constructor
    · simp only [CBlockHeader.serialize, CBlockHeader.getCompleteVersion, hv2, if_true,
        List.append_assoc]
      rw [hversion]
    · rw [CBlockHeader.canonical, if_pos hv2, hmask]
  · simp only [pure_eq_ok] at hrest
    obtain ⟨rfl, rfl⟩ := hrest
    rw [if_neg hv2] at hversion
    constructor
    · simp only [CBlockHeader.serialize, CBlockHeader.getCompleteVersion, hv2, Bool.false_eq_true,
        if_false, List.append_assoc, List.nil_append]
      rw [hversion]
    · rw [CBlockHeader.canonical, if_neg hv2, hmask]
      simp [hv2]

/-- A header is accepted in one form. -/
theorem exact_header :
    Exact CBlockHeader.unserialize CBlockHeader.serialize (fun h => h.canonical = h) := by
  intro s h rest
  constructor
  · exact canonical_of_read
  · rintro ⟨rfl, hcanonical⟩
    rw [unserialize_serialize, hcanonical]

theorem exact_eatBlock :
    Exact (eatBlockMimbleBlob : Reader Bytes) id
      (fun blob => eatBlockMimbleBlob blob = .ok (blob, [])) :=
  exact_blob LitecoinBits.Eater.copies_eatBlock

theorem exact_vtx (v : Version) :
    Exact (readVector (unserializeTransaction v)) (writeVector (CMutableTransaction.form v))
      (fun vtx => vtx.length ≤ maxSize ∧ ∀ tx ∈ vtx, tx.Valid v) :=
  exact_readVector (exact_unserializeTransaction v)

/-- A block is accepted in one form. -/
theorem exact_block (v : Version) :
    Exact (CBlock.unserialize v) (CBlock.form v) (CBlock.Valid v) := by
  intro s block rest
  simp only [CBlock.unserialize, bind_eq_ok, exact_header _ _ _, exact_vtx v _ _ _]
  constructor
  · rintro ⟨header, s₁, ⟨rfl, hheader⟩, vtx, s₂, ⟨rfl, hnTx, hvtx⟩, hrest⟩
    split_ifs at hrest with hint
    · simp only [bind_eq_ok, pure_eq_ok] at hrest
      obtain ⟨blob, s₃, heat, rfl, rfl⟩ := hrest
      obtain ⟨rfl, hblob⟩ := (exact_eatBlock _ _ _).mp heat
      refine ⟨?_, hheader, hnTx, hvtx, ?_⟩
      · simp only [CBlock.form, List.append_assoc]
        rfl
      · rw [if_pos hint]
        exact ⟨blob, rfl, hblob⟩
    · rw [pure_eq_ok] at hrest
      obtain ⟨rfl, rfl⟩ := hrest
      refine ⟨?_, hheader, hnTx, hvtx, ?_⟩
      · simp only [CBlock.form, List.append_assoc]
        rfl
      · rw [if_neg hint]
  · rintro ⟨rfl, h⟩
    obtain ⟨header, vtx, mwBlob⟩ := block
    refine ⟨header, _, ⟨?_, h.header⟩, vtx, mwBlob.getD [] ++ rest, ⟨rfl, h.nTx, h.vtx⟩, ?_⟩
    · simp only [CBlock.form, List.append_assoc]
    · have hmw := h.mwBlob
      by_cases hint : integrates v vtx
      · rw [if_pos hint] at hmw ⊢
        obtain ⟨blob, rfl, hblob⟩ := hmw
        exact bind_eq_ok.mpr ⟨blob, rest, (exact_eatBlock _ _ _).mpr ⟨rfl, hblob⟩, rfl⟩
      · rw [if_neg hint] at hmw ⊢
        obtain rfl : mwBlob = none := hmw
        rfl

theorem form_of_integrates {block : CBlock} (h : block.Valid v) :
    (if integrates v block.vtx then block.mwBlob.getD [] else []) = block.mwBlob.getD [] := by
  have hmw := h.mwBlob
  split_ifs at hmw ⊢ with hint
  · rfl
  · rw [hmw]
    rfl

theorem serialize_block {block : CBlock} (h : block.Valid v) :
    block.serialize v = .ok (block.form v) := by
  have hvtx : block.vtx.mapM (serializeTransaction v) =
      .ok (block.vtx.map (CMutableTransaction.form v)) :=
    Fallible.mapM_ok fun tx hmem => serialize_of_valid v (h.vtx tx hmem)
  rw [CBlock.serialize, hvtx, form_of_integrates h]
  simp only [CBlock.form, writeVector, List.append_assoc, List.flatMap_def]
  rfl

theorem deserialize_true_eq_ok {s : Bytes} {block : CBlock} :
    CBlock.deserialize v true s = .ok block ↔ CBlock.unserialize v s = .ok (block, []) := by
  rw [CBlock.deserialize, Fallible.bind_eq_ok]
  constructor
  · rintro ⟨⟨block', rest⟩, hread, hrest⟩
    split_ifs at hrest with hjunk
    obtain rfl : block' = block := Except.ok.inj hrest
    obtain rfl : rest = [] := by simpa using hjunk
    exact hread
  · intro hread
    exact ⟨(block, []), hread, rfl⟩

/-- A raw block without junk at its end is accepted iff it is what the program writes for a valid
block. -/
theorem deserialize_iff_serialize (v : Version) (rawblock : Bytes) (block : CBlock) :
    CBlock.deserialize v true rawblock = .ok block ↔
      block.serialize v = .ok rawblock ∧ block.Valid v := by
  rw [deserialize_true_eq_ok, exact_block v _ _ _, List.append_nil]
  constructor
  · rintro ⟨rfl, h⟩
    exact ⟨serialize_block h, h⟩
  · rintro ⟨hser, h⟩
    rw [serialize_block h, Except.ok.injEq] at hser
    exact ⟨hser.symm, h⟩

end

end Wire
end Shulcrum
