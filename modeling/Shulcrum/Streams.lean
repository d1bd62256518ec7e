import Shulcrum.Header.Codec
import Shulcrum.Lib.Fallible

/-!
# Byte streams with a position

`GenericVectorReader` reads from a buffer at a position that can be moved.
Positions are signed 64-bit integers; a sum past their range wraps around.
The sizes inside a stream are CompactSize numbers.

**Results.**
* `readCompactSize_of_drop`: a CompactSize number at a position is read back.
-/

namespace Shulcrum
namespace Streams

open BTC Fallible

/-- How reading from a buffer fails. -/
inductive ReadError where
  | failure (msg : String)
  /-- The end of the read wrapped around and the read leaves the buffer. -/
  | outOfBounds
  deriving DecidableEq, Repr

/-- Throw an exception with the message unless the condition holds. -/
def require (c : Prop) [Decidable c] (msg : String) : Except ReadError Unit :=
  if c then .ok () else .error (.failure msg)

/-- The first number past the positions. -/
def posLimit : Nat := 2 ^ 63

/-- `GenericVectorReader::read` of `n` bytes. -/
def read (b : List UInt8) (n pos : Nat) : Except ReadError (List UInt8 × Nat) :=
  if n = 0 then .ok ([], pos)
  else if posLimit ≤ pos + n then .error .outOfBounds
  else if b.length < pos + n then .error (.failure "VectorReader::read(): end of data")
  else .ok ((b.drop pos).take n, pos + n)

/-- `GenericVectorReader::seek`; the argument is converted to a position. -/
def seek (n : Nat) : Except ReadError Nat :=
  if posLimit ≤ n % 2 ^ 64 then .error (.failure "Cannot seek to a negative offset")
  else .ok (n % 2 ^ 64)

/-- A little-endian integer of `k` bytes. -/
def readLE (b : List UInt8) (k pos : Nat) : Except ReadError (Nat × Nat) :=
  match read b k pos with
  | .error e => .error e
  | .ok (bytes, pos) => .ok (ofLE bytes, pos)

/-- `WriteCompactSize`. -/
def writeCompactSize (n : Nat) : List UInt8 :=
  if n < 253 then leBytes 1 n
  else if n < 2 ^ 16 then 253 :: leBytes 2 n
  else if n < 2 ^ 32 then 254 :: leBytes 4 n
  else 255 :: leBytes 8 n

/-- The payload of a CompactSize number after its marker, which must need it. -/
def readPayload (b : List UInt8) (k least pos : Nat) : Except ReadError (Nat × Nat) :=
  match readLE b k pos with
  | .error e => .error e
  | .ok (n, pos) =>
      if n < least then .error (.failure "non-canonical ReadCompactSize()") else .ok (n, pos)

/-- `ReadCompactSize` without a range check. -/
def readCompactSize (b : List UInt8) (pos : Nat) : Except ReadError (Nat × Nat) :=
  match readLE b 1 pos with
  | .error e => .error e
  | .ok (chSize, pos) =>
      if chSize < 253 then .ok (chSize, pos)
      else if chSize = 253 then readPayload b 2 253 pos
      else if chSize = 254 then readPayload b 4 0x10000 pos
      else readPayload b 8 0x100000000 pos

@[simp] theorem require_eq_ok {c : Prop} [Decidable c] {msg : String} {u : Unit} :
    require c msg = .ok u ↔ c := by
  unfold require
  split_ifs with hc <;> simp [hc]

theorem require_of {c : Prop} [Decidable c] (hc : c) (msg : String) : require c msg = .ok () :=
  if_pos hc

section Reads

variable {b : List UInt8} {n k pos : Nat}

/-- What stands after the bytes at a position. -/
theorem drop_add_length {x rest : List UInt8} (hb : b.drop pos = x ++ rest) :
    b.drop (pos + x.length) = rest := by
  rw [← List.drop_drop, hb, List.drop_left]

theorem read_of_drop (hlen : b.length < posLimit) {x rest : List UInt8}
    (hb : b.drop pos = x ++ rest) (hx : x ≠ []) :
    read b x.length pos = .ok (x, pos + x.length) := by
  have hpos : 0 < x.length := List.length_pos_iff.mpr hx
  have hsize := congrArg List.length hb
  simp only [List.length_drop, List.length_append] at hsize
  have h1 : ¬ x.length = 0 := by omega
  have h2 : ¬ posLimit ≤ pos + x.length := by omega
  have h3 : ¬ b.length < pos + x.length := by omega
  rw [read, if_neg h1, if_neg h2, if_neg h3, hb, List.take_left]

theorem readLE_of_drop (hlen : b.length < posLimit) {rest : List UInt8} (hk : 0 < k)
    (hn : n < 256 ^ k) (hb : b.drop pos = leBytes k n ++ rest) :
    readLE b k pos = .ok (n, pos + k) := by
  have hne : leBytes k n ≠ [] := by
    apply List.ne_nil_of_length_pos
    simpa using hk
  have hread := read_of_drop hlen hb hne
  rw [length_leBytes] at hread
  rw [readLE, hread]
  simp only [ofLE_leBytes hn]

/-- What a successful read returns is in the buffer. -/
theorem read_spec {bytes : List UInt8} {pos' : Nat} (h : read b n pos = .ok (bytes, pos')) :
    bytes = (b.drop pos).take n ∧ pos' = pos + n ∧ (n = 0 ∨ pos + n ≤ b.length) := by
  unfold read at h
  split_ifs at h with hn hlim hshort
  · simp only [Except.ok.injEq, Prod.mk.injEq] at h
    simp [hn, h.1.symm, h.2.symm]
  · simp only [Except.ok.injEq, Prod.mk.injEq] at h
    exact ⟨h.1.symm, h.2.symm, Or.inr (by omega)⟩

theorem readLE_spec {pos' : Nat} (hk : 0 < k) (h : readLE b k pos = .ok (n, pos')) :
    n = ofLE ((b.drop pos).take k) ∧ pos' = pos + k ∧ pos + k ≤ b.length := by
  unfold readLE at h
  cases hr : read b k pos with
  | error e =>
      rw [hr] at h
      cases h
  | ok r =>
      obtain ⟨bytes, pos''⟩ := r
      rw [hr] at h
      simp only [Except.ok.injEq, Prod.mk.injEq] at h
      obtain ⟨rfl, rfl⟩ := h
      obtain ⟨rfl, rfl, hin⟩ := read_spec hr
      exact ⟨rfl, rfl, hin.resolve_left (by omega)⟩

end Reads

section CompactSize

variable {b : List UInt8} {n k least pos : Nat}

theorem writeCompactSize_ne_nil (n : Nat) : writeCompactSize n ≠ [] := by
  unfold writeCompactSize
  split_ifs
  · apply List.ne_nil_of_length_pos
    simp
  all_goals simp

theorem length_writeCompactSize_le (n : Nat) : (writeCompactSize n).length ≤ 9 := by
  unfold writeCompactSize
  split_ifs <;> simp

theorem readPayload_of_drop (hlen : b.length < posLimit) {rest : List UInt8} (hk : 0 < k)
    (hn : n < 256 ^ k) (hleast : least ≤ n) (hb : b.drop pos = leBytes k n ++ rest) :
    readPayload b k least pos = .ok (n, pos + k) := by
  rw [readPayload, readLE_of_drop hlen hk hn hb]
  simp only [if_neg (not_lt.mpr hleast)]

/-- A marker and a payload at a position. -/
theorem readLE_marker (hlen : b.length < posLimit) {m : UInt8} {rest : List UInt8}
    (hb : b.drop pos = m :: rest) :
    readLE b 1 pos = .ok (m.toNat, pos + 1) ∧ b.drop (pos + 1) = rest := by
  constructor
  · have hread : read b 1 pos = .ok ([m], pos + 1) := read_of_drop hlen (x := [m]) hb (by simp)
    rw [readLE, hread]
    simp [ofLE]
  · exact drop_add_length (x := [m]) hb

/-- A CompactSize number at a position is read back. -/
theorem readCompactSize_of_drop (hlen : b.length < posLimit) {rest : List UInt8}
    (hn : n < 2 ^ 64) (hb : b.drop pos = writeCompactSize n ++ rest) :
    readCompactSize b pos = .ok (n, pos + (writeCompactSize n).length) := by
  unfold writeCompactSize at hb ⊢
  unfold readCompactSize
  split_ifs at hb ⊢ with h1 h2 h3
  · rw [readLE_of_drop hlen (by omega) (by omega) hb]
    simp [h1]
  · obtain ⟨hmark, hrest⟩ := readLE_marker hlen hb
    rw [hmark]
    simpa using readPayload_of_drop hlen (by omega) (by omega) (by omega) hrest
  · obtain ⟨hmark, hrest⟩ := readLE_marker hlen hb
    rw [hmark]
    simpa using readPayload_of_drop hlen (by omega) (by omega) (by omega) hrest
  · obtain ⟨hmark, hrest⟩ := readLE_marker hlen hb
    rw [hmark]
    simpa using readPayload_of_drop hlen (by omega) (by omega) (by omega) hrest

end CompactSize

end Streams
end Shulcrum
