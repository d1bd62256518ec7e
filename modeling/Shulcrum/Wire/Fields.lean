import Shulcrum.Lib.Codec
import Shulcrum.LitecoinBits

/-!
# The fields of serialized objects

Integers of fixed width, hashes, CompactSize numbers and vectors, as they are
read from a stream and written to it.  A stream that ends too early throws.

**Results.**
* `exact_readUInt`, `exact_readBlob`: fields of fixed size.
* `exact_readCompactSizeWithLimit`: a number up to the limit, in its shortest form.
* `exact_readVector`, `exact_readBytes`: vectors, and vectors of bytes.
-/

namespace Shulcrum
namespace Wire

open BTC Codec
open LitecoinBits (readData readSize readPayload maxSize)
open LitecoinBits (read_eq_ok readData_eq_ok readPayload_eq_ok)
open Streams (writeCompactSize)

abbrev Bytes := List UInt8

/-- What a stream throws: `std::ios_base::failure` with its message. -/
abbrev Reader (α : Type) := Codec.Reader String UInt8 α

/-- `ReadCompactSizeWithLimit`. -/
def readCompactSizeWithLimit (maxSize : Nat) : Reader Nat := do
  let chSize ← readData 1
  let nSizeRet ← readSize chSize
  throwIf (nSizeRet > maxSize) "ReadCompactSize(): size too large"
  return nSizeRet

/-- `ReadCompactSize`, with the range check or without it. -/
def readCompactSize (rangeCheck : Bool) : Reader Nat :=
  readCompactSizeWithLimit (if rangeCheck then maxSize else 2 ^ 64 - 1)

/-- `Unserialize_vector` of bytes; the source reads them in blocks. -/
def readBytes : Reader Bytes := do
  let nSize ← readCompactSize true
  BTC.read nSize

/-- `Serialize_vector` of bytes. -/
def writeBytes (v : Bytes) : Bytes := writeCompactSize v.length ++ v

/-- `VectorFormatter::Unser`. -/
def readVector {α : Type} (unser : Reader α) : Reader (List α) := do
  let size ← readCompactSize true
  many unser size

/-- `VectorFormatter::Ser`. -/
def writeVector {α : Type} (ser : α → Bytes) (v : List α) : Bytes :=
  writeCompactSize v.length ++ v.flatMap ser

section Numbers

variable {s rest : Bytes} {n : Nat}

theorem exact_read (n : Nat) :
    Exact (BTC.read n : Reader Bytes) id (fun x => x.length = n) :=
  fun _ _ _ => read_eq_ok

theorem exact_readUInt {w k : Nat} (hw : w = 8 * k) :
    Exact (readUInt w : Reader (BitVec w)) (fun x => leBytes k x.toNat) (fun _ => True) := by
  subst hw
  have hk : 8 * k / 8 = k := by omega
  have hpow : 2 ^ (8 * k) = 256 ^ k := by rw [Nat.pow_mul]
  intro s x rest
  simp only [readUInt, bind_eq_ok, pure_eq_ok, read_eq_ok, and_true]
  constructor
  · rintro ⟨b, s', ⟨rfl, hb⟩, rfl, rfl⟩
    rw [hk] at hb
    rw [leBytes_ofNat rfl hb]
  · rintro rfl
    refine ⟨leBytes k x.toNat, rest, ⟨rfl, by simp⟩, ?_, rfl⟩
    rw [ofLE_leBytes (hpow ▸ x.isLt), BitVec.ofNat_toNat, BitVec.setWidth_eq]

theorem exact_readBlob {w k : Nat} (hw : w = 8 * k) :
    Exact (readBlob w : Reader (BitVec w)) (fun x => beBytes k x.toNat) (fun _ => True) := by
  subst hw
  have hk : 8 * k / 8 = k := by omega
  have hpow : 2 ^ (8 * k) = 256 ^ k := by rw [Nat.pow_mul]
  intro s x rest
  simp only [readBlob, bind_eq_ok, pure_eq_ok, read_eq_ok, and_true]
  constructor
  · rintro ⟨b, s', ⟨rfl, hb⟩, rfl, rfl⟩
    rw [hk] at hb
    rw [beBytes_ofNat rfl hb]
  · rintro rfl
    refine ⟨beBytes k x.toNat, rest, ⟨rfl, by simp⟩, ?_, rfl⟩
    rw [ofBE_beBytes (hpow ▸ x.isLt), BitVec.ofNat_toNat, BitVec.setWidth_eq]

/-- The bytes after the first one of a CompactSize number. -/
theorem readSize_eq_ok {chSize : Nat} :
    readSize chSize s = .ok (n, rest) ↔
      if chSize < 253 then n = chSize ∧ s = rest
      else if chSize = 253 then s = leBytes 2 n ++ rest ∧ 253 ≤ n ∧ n < 2 ^ 16
      else if chSize = 254 then s = leBytes 4 n ++ rest ∧ 2 ^ 16 ≤ n ∧ n < 2 ^ 32
      else s = leBytes 8 n ++ rest ∧ 2 ^ 32 ≤ n ∧ n < 2 ^ 64 := by
  rw [readSize]
  split_ifs with h1 h2 h3
  · have hpure : (pure chSize : Reader Nat) s = .ok (n, rest) ↔ chSize = n ∧ s = rest := pure_eq_ok
    rw [hpure]
    exact and_congr_left fun _ => eq_comm
  · exact readPayload_eq_ok
  · exact readPayload_eq_ok
  · exact readPayload_eq_ok

/-- A CompactSize number is accepted in its shortest form only. -/
theorem exact_readCompactSizeWithLimit {limit : Nat} (hlimit : limit < 2 ^ 64) :
    Exact (readCompactSizeWithLimit limit) writeCompactSize (fun n => n ≤ limit) := by
  intro s n rest
  simp only [readCompactSizeWithLimit, bind_eq_ok, throwIf_eq_ok, pure_eq_ok, readData_eq_ok,
    readSize_eq_ok]
  constructor
  · rintro ⟨chSize, s₁, ⟨rfl, hch⟩, n', s₂, hsize, u, s₃, ⟨hle, rfl⟩, rfl, rfl⟩
    refine ⟨?_, not_lt.mp hle⟩
    rw [writeCompactSize]
    split_ifs at hsize with h1 h2 h3
    · obtain ⟨rfl, rfl⟩ := hsize
      rw [if_pos h1]
    · obtain ⟨rfl, hge, hlt⟩ := hsize
      rw [if_neg (by omega), if_pos hlt, h2]
      rfl
    · obtain ⟨rfl, hge, hlt⟩ := hsize
      rw [if_neg (by omega), if_neg (by omega), if_pos hlt, h3]
      rfl
    · obtain ⟨rfl, hge, hlt⟩ := hsize
      obtain rfl : chSize = 255 := by omega
      rw [if_neg (by omega), if_neg (by omega), if_neg (by omega)]
      rfl
  · rintro ⟨rfl, hle⟩
    rw [writeCompactSize]
    split_ifs with h1 h2 h3
    · refine ⟨n, rest, ⟨rfl, by omega⟩, n, rest, ?_, (), rest, ⟨by omega, rfl⟩, rfl, rfl⟩
      rw [if_pos h1]
      exact ⟨rfl, rfl⟩
    · refine ⟨253, leBytes 2 n ++ rest, ⟨rfl, by omega⟩, n, rest, ?_, (), rest, ⟨by omega, rfl⟩,
        rfl, rfl⟩
      rw [if_neg (by omega), if_pos rfl]
      exact ⟨rfl, by omega, h2⟩
    · refine ⟨254, leBytes 4 n ++ rest, ⟨rfl, by omega⟩, n, rest, ?_, (), rest, ⟨by omega, rfl⟩,
        rfl, rfl⟩
      rw [if_neg (by omega), if_neg (by omega), if_pos rfl]
      exact ⟨rfl, by omega, h3⟩
    · refine ⟨255, leBytes 8 n ++ rest, ⟨rfl, by omega⟩, n, rest, ?_, (), rest, ⟨by omega, rfl⟩,
        rfl, rfl⟩
      rw [if_neg (by omega), if_neg (by omega), if_neg (by omega)]
      exact ⟨rfl, by omega, by omega⟩

theorem exact_readCompactSize :
    Exact (readCompactSize true) writeCompactSize (fun n => n ≤ maxSize) :=
  exact_readCompactSizeWithLimit (by decide)

theorem exact_readCompactSize_unchecked :
    Exact (readCompactSize false) writeCompactSize (fun n => n < 2 ^ 64) := by
  have h : Exact (readCompactSize false) writeCompactSize (fun n => n ≤ 2 ^ 64 - 1) :=
    exact_readCompactSizeWithLimit (by decide)
  exact h.congr (fun n => by omega) (fun _ _ => rfl)

end Numbers

section Vectors

theorem exact_readBytes : Exact readBytes writeBytes (fun v => v.length ≤ maxSize) := by
  refine (exact_readCompactSize.bind List.length (fun n _ => exact_read n) ?_).congr ?_ ?_
  · exact fun n v hv => hv
  · exact fun v => ⟨fun h => h.1, fun h => ⟨h, rfl⟩⟩
  · exact fun v _ => rfl

theorem exact_readVector {α : Type} {unser : Reader α} {ser : α → Bytes} {valid : α → Prop}
    (h : Exact unser ser valid) :
    Exact (readVector unser) (writeVector ser)
      (fun v => v.length ≤ maxSize ∧ ∀ a ∈ v, valid a) := by
  refine (exact_readCompactSize.bind List.length (fun n _ => h.many n) ?_).congr ?_ ?_
  · exact fun n v hv => hv.1
  · exact fun v => ⟨fun h => ⟨h.1, h.2.2⟩, fun h => ⟨h.1, rfl, h.2⟩⟩
  · exact fun v _ => rfl

end Vectors

end Wire
end Shulcrum
