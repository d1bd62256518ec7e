import Shulcrum.VarInt

/-!
# Encodings in a span

The class keeps the bytes of one encoding.  `fromBytes` takes them from a
string that has nothing else, and `deserialize` takes them from the front of a
span and moves the span past them.  Both look at the size of the string as an
`int`, so that a string of two gibibytes looks empty or too short.

**Results.**
* `readNext_eq`: this is `VarInt.deserialize`.
* `value_encode`: the number of an encoding.
* `readAll_encodeAll_iff`: the loops over a span read a concatenation of encodings
  back exactly when an `int` holds its size.
-/

namespace Shulcrum
namespace VarInt

open BTC

/-- `GenericVarInt::maxBytes`. -/
def maxBytes : Nat := 8

/-- The comparison of the sizes in `validate`. -/
def lengthCheckOk (allowExtraBytesAtEnd : Bool) (payloadLen : Nat) (bsize : Int) : Bool :=
  if ¬ allowExtraBytesAtEnd then (payloadLen : Int) + 1 == bsize
  else decide ((payloadLen : Int) + 1 ≤ bsize)

/-- `GenericVarInt::validate`: the length of the payload. -/
def validate (allowExtraBytesAtEnd : Bool) (b : List UInt8) : Except String Nat :=
  let bsize := intSize b.length
  if bsize ≤ 0 then .error "VarInt: Empty byte array"
  else
    let cbyte := b.headD 0
    let payloadLen := cbyte.toNat - b1max
    if ¬ lengthCheckOk allowExtraBytesAtEnd payloadLen bsize ∨ payloadLen > maxBytes then
      .error "VarInt: Byte array has the wrong format"
    else .ok payloadLen

/-- The unchecked constructor: the array has room for the control byte and the payload. -/
def unchecked (b : List UInt8) : List UInt8 := b.take (maxBytes + 1)

/-- `GenericVarInt::fromBytes`. -/
def fromBytes (b : List UInt8) : Except String (List UInt8) :=
  match validate false b with
  | .error e => .error e
  | .ok _ => .ok (unchecked b)

/-- `GenericVarInt::deserialize`: the object, and the span past its bytes. -/
def deserializeSpan (b : List UInt8) : Except String (List UInt8 × List UInt8) :=
  match validate true b with
  | .error e => .error e
  | .ok payloadLen =>
      let byteLen := payloadLen + 1
      .ok (unchecked (b.take byteLen), b.drop byteLen)

/-- `GenericVarInt::value<uint64_t>`. -/
def value (useBE : Bool) (arr : List UInt8) : Except String Nat :=
  match validate false arr with
  | .error e => .error e
  | .ok payloadLen =>
      if payloadLen = 0 then .ok (arr.headD 0).toNat
      else if payloadLen > 8 then .error "Overflow in converting VarInt to destination value"
      else
        let payload := (arr.drop 1).take payloadLen
        .ok (if useBE then ofBE payload else ofLE payload)

/-- One turn of the loops over a span: `deserialize(span).value<uint64_t>()`. -/
def readNext (useBE : Bool) (b : List UInt8) : Except String (Nat × List UInt8) :=
  match deserializeSpan b with
  | .error e => .error e
  | .ok (arr, rest) =>
      match value useBE arr with
      | .error e => .error e
      | .ok v => .ok (v, rest)

/-- The loop `while (!span.empty())`.  Every turn takes a byte. -/
def readLoop (useBE : Bool) : Nat → List UInt8 → Except String (List Nat)
  | _, [] => .ok []
  | 0, _ :: _ => .error "VarInt: Byte array has the wrong format"
  | fuel + 1, b =>
      match readNext useBE b with
      | .error e => .error e
      | .ok (v, rest) =>
          match readLoop useBE fuel rest with
          | .error e => .error e
          | .ok vs => .ok (v :: vs)

/-- All numbers of a span. -/
def readAll (useBE : Bool) (b : List UInt8) : Except String (List Nat) :=
  readLoop useBE b.length b

section Sizes

theorem intSize_le (n : Nat) : intSize n ≤ n := by
  unfold intSize
  split_ifs
  · omega
  · omega

theorem payloadLen_le (c : UInt8) : c.toNat - b1max ≤ maxBytes := by
  have := c.toNat_lt
  unfold b1max maxBytes
  omega

/-- What `validate` accepts in a span. -/
theorem validate_extra (b : List UInt8) :
    ((((b.headD 0).toNat - b1max : Nat) : Int) + 1 ≤ intSize b.length ∧
        validate true b = .ok ((b.headD 0).toNat - b1max)) ∨
      (intSize b.length < (((b.headD 0).toNat - b1max : Nat) : Int) + 1 ∧
        validate true b = .error (if intSize b.length ≤ 0 then "VarInt: Empty byte array"
          else "VarInt: Byte array has the wrong format")) := by
  have hmax := payloadLen_le (b.headD 0)
  unfold validate
  dsimp only
  generalize (b.headD 0).toNat - b1max = payloadLen at hmax ⊢
  generalize intSize b.length = bsize
  by_cases hsize : bsize ≤ 0
  · right
    rw [if_pos hsize, if_pos hsize]
    exact ⟨by omega, rfl⟩
  · simp only [if_neg hsize]
    by_cases hle : (payloadLen : Int) + 1 ≤ bsize
    · have hcheck : lengthCheckOk true payloadLen bsize = true := by
        simp [lengthCheckOk, hle]
      left
      rw [if_neg (by simp [hcheck, hmax])]
      exact ⟨hle, rfl⟩
    · have hcheck : lengthCheckOk true payloadLen bsize = false := by
        simp [lengthCheckOk, hle]
      right
      rw [if_pos (Or.inl (by rw [hcheck]; exact Bool.false_ne_true))]
      exact ⟨by omega, rfl⟩

/-- `validate` without other bytes: the size is the one the first byte asks for. -/
theorem validate_exact {b : List UInt8} (h : b.length = (b.headD 0).toNat - b1max + 1) :
    validate false b = .ok ((b.headD 0).toNat - b1max) := by
  have hmax := payloadLen_le (b.headD 0)
  have hsize : intSize b.length = (((b.headD 0).toNat - b1max : Nat) : Int) + 1 := by
    rw [intSize_of_lt (by unfold maxBytes at hmax; omega), h]
    rfl
  unfold validate
  dsimp only
  rw [hsize]
  generalize (b.headD 0).toNat - b1max = payloadLen at hmax ⊢
  have hcheck : lengthCheckOk false payloadLen ((payloadLen : Int) + 1) = true := by
    simp [lengthCheckOk]
  rw [if_neg (by omega), if_neg (by simp [hcheck, hmax])]

/-- The number of the encoding at the front of a string. -/
def decoded (useBE : Bool) (b : List UInt8) : Nat :=
  let payloadLen := (b.headD 0).toNat - b1max
  if payloadLen = 0 then (b.headD 0).toNat
  else if useBE then ofBE ((b.drop 1).take payloadLen)
  else ofLE ((b.drop 1).take payloadLen)

/-- What `VarInt.deserialize` gives where the size is enough. -/
theorem deserialize_of_le (useBE : Bool) {b : List UInt8}
    (h : (((b.headD 0).toNat - b1max : Nat) : Int) + 1 ≤ intSize b.length) :
    deserialize useBE b = .ok (decoded useBE b, b.drop ((b.headD 0).toNat - b1max + 1)) := by
  unfold deserialize decoded
  dsimp only
  generalize hpay : (b.headD 0).toNat - b1max = payloadLen at h ⊢
  generalize intSize b.length = bsize at h ⊢
  rw [if_neg (by omega), if_neg (by omega)]
  by_cases hzero : payloadLen = 0
  · rw [if_pos hzero, if_pos hzero, hzero]
  · rw [if_neg hzero, if_neg hzero]

/-- The number of an object that has its size. -/
theorem value_eq (useBE : Bool) {b : List UInt8}
    (h : b.length = (b.headD 0).toNat - b1max + 1) : value useBE b = .ok (decoded useBE b) := by
  have hvalid := validate_exact h
  have hmax := payloadLen_le (b.headD 0)
  rw [value, hvalid]
  unfold decoded
  dsimp only
  generalize (b.headD 0).toNat - b1max = payloadLen at hmax ⊢
  have hwide : ¬ payloadLen > 8 := Nat.not_lt.mpr hmax
  rw [if_neg hwide]
  by_cases hzero : payloadLen = 0
  · rw [if_pos hzero, if_pos hzero]
  · rw [if_neg hzero, if_neg hzero]

theorem headD_take (b : List UInt8) (n : Nat) : (b.take (n + 1)).headD 0 = b.headD 0 := by
  cases b with
  | nil => rfl
  | cons c rest => rfl

/-- The number needs the bytes of its encoding only. -/
theorem decoded_take (useBE : Bool) (b : List UInt8) :
    decoded useBE (b.take ((b.headD 0).toNat - b1max + 1)) = decoded useBE b := by
  have hhead := headD_take b ((b.headD 0).toNat - b1max)
  have hdrop : (b.take ((b.headD 0).toNat - b1max + 1)).drop 1 =
      (b.drop 1).take ((b.headD 0).toNat - b1max) := by
    rw [List.drop_take, Nat.add_sub_cancel]
  unfold decoded
  simp only [hhead, hdrop, List.take_take, Nat.min_self]

/-- This is `VarInt.deserialize`. -/
theorem readNext_eq (useBE : Bool) (b : List UInt8) : readNext useBE b = deserialize useBE b := by
  have hmax := payloadLen_le (b.headD 0)
  have hint := intSize_le b.length
  rcases validate_extra b with ⟨hle, hok⟩ | ⟨hlt, herr⟩
  · have hbytes : unchecked (b.take ((b.headD 0).toNat - b1max + 1)) =
        b.take ((b.headD 0).toNat - b1max + 1) := by
      rw [unchecked, List.take_take, Nat.min_eq_right (by omega)]
    have hhead := headD_take b ((b.headD 0).toNat - b1max)
    have hexact : (b.take ((b.headD 0).toNat - b1max + 1)).length =
        ((b.take ((b.headD 0).toNat - b1max + 1)).headD 0).toNat - b1max + 1 := by
      rw [hhead, List.length_take_of_le (by omega)]
    simp only [readNext, deserializeSpan, hok, hbytes, value_eq useBE hexact,
      decoded_take useBE b, deserialize_of_le useBE hle]
  · simp only [readNext, deserializeSpan, herr, deserialize, if_pos hlt]
    split_ifs
    · rfl
    · rfl

end Sizes

section Encodings

variable (useBE : Bool) {v : Nat}

theorem length_encode_le (h : v < 2 ^ 64) : (encode useBE v).length ≤ maxBytes + 1 := by
  have hhead := headD_encode useBE h []
  have hmax := payloadLen_le ((encode useBE v ++ []).headD 0)
  omega

theorem unchecked_encode (h : v < 2 ^ 64) : unchecked (encode useBE v) = encode useBE v :=
  List.take_of_length_le (length_encode_le useBE h)

theorem validate_encode (h : v < 2 ^ 64) :
    validate false (encode useBE v) = .ok ((encode useBE v).length - 1) := by
  have hhead := headD_encode useBE h []
  rw [List.append_nil] at hhead
  rw [validate_exact hhead.symm, ← hhead, Nat.add_sub_cancel]

/-- `fromBytes` takes an encoding. -/
theorem fromBytes_encode (h : v < 2 ^ 64) :
    fromBytes (encode useBE v) = .ok (encode useBE v) := by
  rw [fromBytes, validate_encode useBE h]
  simp only [unchecked_encode useBE h]

/-- The number of an encoding. -/
theorem value_encode (h : v < 2 ^ 64) : value useBE (encode useBE v) = .ok v := by
  have hhead := headD_encode useBE h []
  have hshort := length_encode_le_nine useBE h
  have hread : deserialize useBE (encode useBE v ++ []) = .ok (v, []) :=
    deserialize_encode h (by rw [List.append_nil]; omega)
  rw [List.append_nil] at hhead hread
  have hnum := deserialize_of_le useBE (b := encode useBE v) (by
    rw [intSize_of_lt (by omega)]
    omega)
  rw [hnum] at hread
  rw [value_eq useBE hhead.symm, (Prod.mk.inj (Except.ok.inj hread)).1]

/-- An encoding is taken from a span that has nothing else. -/
theorem deserializeSpan_encode (h : v < 2 ^ 64) :
    deserializeSpan (encode useBE v) = .ok (encode useBE v, []) := by
  have hhead := headD_encode useBE h []
  have hshort := length_encode_le useBE h
  have hint : intSize (encode useBE v).length = (encode useBE v).length :=
    intSize_of_lt (by unfold maxBytes at hshort; omega)
  rw [List.append_nil] at hhead
  rcases validate_extra (encode useBE v) with ⟨-, hok⟩ | ⟨hlt, -⟩
  · simp only [deserializeSpan, hok, hhead, List.take_length, List.drop_length,
      unchecked_encode useBE h]
  · omega

end Encodings

section Spans

variable {useBE : Bool} {vs : List UInt64}

/-- The concatenation of the encodings of a list. -/
def encodeAll (useBE : Bool) (vs : List UInt64) : List UInt8 :=
  vs.flatMap fun v => encode useBE v.toNat

theorem encodeAll_eq : encodeAll useBE vs = (vs.map UInt64.toNat).flatMap (encode useBE) := by
  rw [encodeAll, List.flatMap_map]

/-- The loop keeps the numbers only. -/
theorem readLoop_eq (fuel : Nat) (b : List UInt8) :
    readLoop useBE fuel b = (deserializeAll useBE fuel b).map (List.map Prod.fst) := by
  induction fuel generalizing b with
  | zero =>
      cases b with
      | nil => rfl
      | cons c b => rfl
  | succ fuel ih =>
      cases b with
      | nil => rfl
      | cons c b =>
          simp only [readLoop, deserializeAll, readNext_eq]
          cases deserialize useBE (c :: b) with
          | error e => rfl
          | ok r =>
              simp only [ih]
              cases deserializeAll useBE fuel r.2 with
              | error e => rfl
              | ok ws => rfl

/-- The encoding of a zero is one byte. -/
theorem length_encodeAll_zeros (n : Nat) :
    (encodeAll useBE (List.replicate n 0)).length = n := by
  have hzero : encode useBE (0 : UInt64).toNat = [0] := encode_of_le (Nat.zero_le _)
  rw [encodeAll, List.length_flatMap, List.map_replicate, hzero]
  simp

theorem lt_of_mem_toNat : ∀ v ∈ vs.map UInt64.toNat, v < 2 ^ 64 := by
  intro v hv
  obtain ⟨u, -, rfl⟩ := List.mem_map.mp hv
  exact u.toNat_lt

/-- The loops over a span read a concatenation of encodings back exactly when an `int` holds
its size. -/
theorem readAll_encodeAll_iff :
    readAll useBE (encodeAll useBE vs) = .ok (vs.map UInt64.toNat) ↔
      (encodeAll useBE vs).length < 2 ^ 31 := by
  rw [readAll, readLoop_eq, encodeAll_eq]
  constructor
  · intro h
    by_contra hlen
    have herror : ∃ e, deserializeAll useBE
        ((vs.map UInt64.toNat).flatMap (encode useBE)).length
        ((vs.map UInt64.toNat).flatMap (encode useBE)) = .error e :=
      deserializeAll_of_ge lt_of_mem_toNat (not_lt.mp hlen)
    obtain ⟨e, he⟩ := herror
    rw [he] at h
    cases h
  · intro h
    have hfst : (vs.map UInt64.toNat).map (Prod.fst ∘ fun v => (v, encode useBE v)) =
        vs.map UInt64.toNat := List.map_id _
    rw [(deserializeAll_encode_iff lt_of_mem_toNat).mpr h, Except.map, List.map_map, hfst]

end Spans

end VarInt
end Shulcrum
