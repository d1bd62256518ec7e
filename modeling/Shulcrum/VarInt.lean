import Shulcrum.Header.Codec

/-!
# Integers of variable length

A value up to 247 is its own byte.  A larger one is a control byte that gives
the number of payload bytes, followed by the payload in little or big endian
order.  A reader looks at the size of the string as an `int`, so that a string of
two gibibytes looks empty or too short.

**Results.**
* `deserialize_encode`: an encoding at the front of a string is read back, and
  the rest of the string is left.
* `deserializeAll_encode_iff`: a string of encodings is read to its end exactly
  when an `int` holds its size.
* `compare_encode`: the big-endian encodings are ordered as the values.
-/

namespace Shulcrum
namespace VarInt

open BTC

/-- `GenericVarInt::b1max`: the largest value without a control byte. -/
def b1max : Nat := 0xf7

/-- The number of payload bytes: those of the bit width, and one for zero. -/
def numBytes (v : Nat) : Nat := if v = 0 then 1 else (Nat.log2 v + 1 + 7) / 8

/-- The payload in the byte order of the template. -/
def payload (useBE : Bool) (v : Nat) : List UInt8 :=
  if useBE then beBytes (numBytes v) v else leBytes (numBytes v) v

/-- The constructor of `GenericVarInt<UseBE>`. -/
def encode (useBE : Bool) (v : Nat) : List UInt8 :=
  if numBytes v > 1 ∨ v > b1max then
    UInt8.ofNat (b1max + numBytes v) :: payload useBE v
  else payload useBE v

/-- `int(n)` of a `size_t`. -/
def intSize (n : Nat) : Int :=
  if n % 2 ^ 32 < 2 ^ 31 then (n % 2 ^ 32 : Nat) else (n % 2 ^ 32 : Nat) - 2 ^ 32

/-- `GenericVarInt::deserialize` and the value it holds as a 64-bit integer. -/
def deserialize (useBE : Bool) (b : List UInt8) : Except String (Nat × List UInt8) :=
  let bsize := intSize b.length
  if bsize ≤ 0 then .error "VarInt: Empty byte array"
  else
    let cbyte := b.headD 0
    let payloadLen := cbyte.toNat - b1max
    if bsize < payloadLen + 1 then .error "VarInt: Byte array has the wrong format"
    else if payloadLen = 0 then .ok (cbyte.toNat, b.drop 1)
    else
      let bytes := (b.drop 1).take payloadLen
      .ok (if useBE then ofBE bytes else ofLE bytes, b.drop (payloadLen + 1))

/-- The loop that reads a string to its end: the values, each with its bytes. -/
def deserializeAll (useBE : Bool) : Nat → List UInt8 → Except String (List (Nat × List UInt8))
  | _, [] => .ok []
  -- every value takes a byte, so that the length of the string is enough
  | 0, _ :: _ => .error "VarInt: Byte array has the wrong format"
  | fuel + 1, b =>
      match deserialize useBE b with
      | .error e => .error e
      | .ok (v, rest) =>
          match deserializeAll useBE fuel rest with
          | .error e => .error e
          | .ok vs => .ok ((v, b.take (b.length - rest.length)) :: vs)

section Size

theorem numBytes_pos (v : Nat) : 0 < numBytes v := by
  unfold numBytes
  split_ifs <;> omega

theorem lt_pow_numBytes (v : Nat) : v < 256 ^ numBytes v := by
  unfold numBytes
  split_ifs with hv
  · omega
  · have hlog : v < 2 ^ (Nat.log2 v + 1) := Nat.lt_log2_self
    have hexp : Nat.log2 v + 1 ≤ 8 * ((Nat.log2 v + 1 + 7) / 8) := by omega
    calc v < 2 ^ (Nat.log2 v + 1) := hlog
      _ ≤ 2 ^ (8 * ((Nat.log2 v + 1 + 7) / 8)) := Nat.pow_le_pow_right (by omega) hexp
      _ = 256 ^ ((Nat.log2 v + 1 + 7) / 8) := by rw [Nat.pow_mul]

/-- A value has no more payload bytes than it needs. -/
theorem numBytes_le {v k : Nat} (hk : 0 < k) (h : v < 256 ^ k) : numBytes v ≤ k := by
  unfold numBytes
  split_ifs with hv
  · exact hk
  · have hlog : Nat.log2 v < 8 * k := by
      rw [Nat.log2_lt hv]
      rw [Nat.pow_mul]
      exact h
    omega

theorem numBytes_mono {u v : Nat} (h : u ≤ v) : numBytes u ≤ numBytes v :=
  numBytes_le (numBytes_pos v) (lt_of_le_of_lt h (lt_pow_numBytes v))

@[simp] theorem length_payload (useBE : Bool) (v : Nat) :
    (payload useBE v).length = numBytes v := by
  unfold payload
  split_ifs <;> simp

/-- A value without a control byte has one byte. -/
theorem numBytes_of_le {v : Nat} (h : v ≤ b1max) : numBytes v = 1 := by
  have hle := numBytes_le (v := v) (k := 1) (by omega) (by unfold b1max at h; omega)
  have hpos := numBytes_pos v
  omega

theorem encode_of_le {useBE : Bool} {v : Nat} (h : v ≤ b1max) :
    encode useBE v = [UInt8.ofNat v] := by
  have hone := numBytes_of_le h
  have hlt : v < 256 := by
    unfold b1max at h
    omega
  have hbytes : leBytes 1 v = [UInt8.ofNat v] := by
    simp [leBytes, List.range_succ, Nat.mod_eq_of_lt hlt]
  have hsmall : ¬ (numBytes v > 1 ∨ v > b1max) := by omega
  rw [encode, if_neg hsmall, payload, hone, beBytes, hbytes]
  cases useBE <;> rfl

theorem encode_of_gt {useBE : Bool} {v : Nat} (h : b1max < v) :
    encode useBE v = UInt8.ofNat (b1max + numBytes v) :: payload useBE v := by
  rw [encode, if_pos (Or.inr h)]

/-- The control byte of a 64-bit value. -/
theorem toNat_control {v : Nat} (h : v < 2 ^ 64) :
    (UInt8.ofNat (b1max + numBytes v)).toNat = b1max + numBytes v := by
  have hle : numBytes v ≤ 8 := numBytes_le (by omega) (by omega)
  rw [UInt8.toNat_ofNat']
  unfold b1max
  omega

end Size

section IntSize

theorem intSize_of_lt {n : Nat} (h : n < 2 ^ 31) : intSize n = n := by
  unfold intSize
  rw [Nat.mod_eq_of_lt (by omega), if_pos h]

/-- The first sizes that an `int` does not hold look negative. -/
theorem intSize_neg {n : Nat} (hlow : 2 ^ 31 ≤ n) (hhigh : n < 2 ^ 32) : intSize n < 0 := by
  unfold intSize
  rw [Nat.mod_eq_of_lt hhigh, if_neg (by omega)]
  omega

end IntSize

section RoundTrip

variable {useBE : Bool} {v : Nat}

/-- The first byte of an encoding gives its length. -/
theorem headD_encode (useBE : Bool) (h : v < 2 ^ 64) (rest : List UInt8) :
    ((encode useBE v ++ rest).headD 0).toNat - b1max + 1 = (encode useBE v).length := by
  by_cases hv : v ≤ b1max
  · have hbyte : (UInt8.ofNat v).toNat = v := by
      rw [UInt8.toNat_ofNat']
      unfold b1max at hv
      omega
    rw [encode_of_le hv]
    simp only [List.cons_append, List.headD_cons, hbyte, List.length_singleton]
    omega
  · rw [encode_of_gt (by omega)]
    simp only [List.cons_append, List.headD_cons, toNat_control h, List.length_cons,
      length_payload]
    omega

theorem length_encode_pos (useBE : Bool) (v : Nat) : 0 < (encode useBE v).length := by
  by_cases hv : v ≤ b1max
  · rw [encode_of_le hv]
    exact Nat.one_pos
  · rw [encode_of_gt (by omega)]
    exact Nat.succ_pos _

theorem length_encode_le_nine (useBE : Bool) (h : v < 2 ^ 64) : (encode useBE v).length ≤ 9 := by
  by_cases hv : v ≤ b1max
  · rw [encode_of_le hv]
    exact Nat.le_add_left 1 8
  · have hle : numBytes v ≤ 8 := numBytes_le (by omega) (by omega)
    rw [encode_of_gt (by omega), List.length_cons, length_payload]
    omega

/-- An encoding at the front of a string is read back, unless the size looks too small. -/
theorem deserialize_encode_of_le (h : v < 2 ^ 64) {rest : List UInt8}
    (hsize : ((encode useBE v).length : Int) ≤ intSize (encode useBE v ++ rest).length) :
    deserialize useBE (encode useBE v ++ rest) = .ok (v, rest) := by
  have hhead := headD_encode useBE h rest
  have hpos := length_encode_pos useBE v
  generalize hbsize : intSize (encode useBE v ++ rest).length = bsize at hsize
  have hok : ¬ bsize ≤ 0 := by omega
  have hfit : ¬ bsize < (((encode useBE v ++ rest).headD 0).toNat - b1max : Nat) + 1 := by omega
  unfold deserialize
  simp only [hbsize, if_neg hok, if_neg hfit]
  by_cases hv : v ≤ b1max
  · have hbyte : (UInt8.ofNat v).toNat = v := by
      rw [UInt8.toNat_ofNat']
      unfold b1max at hv
      omega
    have hlen : v - b1max = 0 := by omega
    rw [encode_of_le hv]
    simp [hbyte, hlen]
  · have hnum := numBytes_pos v
    have hlen : b1max + numBytes v - b1max = numBytes v := by omega
    have htake : (payload useBE v ++ rest).take (numBytes v) = payload useBE v := by
      rw [← length_payload useBE v, List.take_left]
    have hdrop : (payload useBE v ++ rest).drop (numBytes v) = rest := by
      rw [← length_payload useBE v, List.drop_left]
    have hval : (if useBE = true then ofBE (payload useBE v) else ofLE (payload useBE v)) = v := by
      cases useBE with
      | true => exact ofBE_beBytes (lt_pow_numBytes v)
      | false => exact ofLE_leBytes (lt_pow_numBytes v)
    rw [encode_of_gt (by omega)]
    simp only [List.cons_append, List.headD_cons, toNat_control h, hlen, List.drop_succ_cons,
      List.drop_zero, htake, hdrop, hval]
    rw [if_neg (by omega)]

/-- An encoding at the front of a string is read back. -/
theorem deserialize_encode (h : v < 2 ^ 64) {rest : List UInt8}
    (hlen : (encode useBE v ++ rest).length < 2 ^ 31) :
    deserialize useBE (encode useBE v ++ rest) = .ok (v, rest) := by
  refine deserialize_encode_of_le h ?_
  rw [intSize_of_lt hlen, List.length_append]
  omega

/-- Where the size looks too small, nothing is read. -/
theorem deserialize_encode_of_lt (h : v < 2 ^ 64) {rest : List UInt8}
    (hsize : intSize (encode useBE v ++ rest).length < ((encode useBE v).length : Int)) :
    ∃ e, deserialize useBE (encode useBE v ++ rest) = .error e := by
  have hhead := headD_encode useBE h rest
  generalize hbsize : intSize (encode useBE v ++ rest).length = bsize at hsize
  have hshort : bsize < (((encode useBE v ++ rest).headD 0).toNat - b1max : Nat) + 1 := by omega
  unfold deserialize
  simp only [hbsize, if_pos hshort]
  split_ifs
  · exact ⟨_, rfl⟩
  · exact ⟨_, rfl⟩

theorem encode_ne_nil (useBE : Bool) (v : Nat) : encode useBE v ≠ [] := by
  by_cases hv : v ≤ b1max
  · rw [encode_of_le hv]
    exact List.cons_ne_nil _ _
  · rw [encode_of_gt (by omega)]
    exact List.cons_ne_nil _ _

theorem deserializeAll_cons {fuel : Nat} {vs : List Nat} :
    deserializeAll useBE (fuel + 1) ((v :: vs).flatMap (encode useBE)) =
      match deserialize useBE (encode useBE v ++ vs.flatMap (encode useBE)) with
      | .error e => .error e
      | .ok (w, rest) =>
          match deserializeAll useBE fuel rest with
          | .error e => .error e
          | .ok ws => .ok ((w, (encode useBE v ++ vs.flatMap (encode useBE)).take
              ((encode useBE v ++ vs.flatMap (encode useBE)).length - rest.length)) :: ws) := by
  rw [List.flatMap_cons]
  cases hb : encode useBE v ++ vs.flatMap (encode useBE) with
  | nil => exact absurd (List.append_eq_nil_iff.mp hb).1 (encode_ne_nil useBE v)
  | cons c rest => rfl

/-- A string of encodings is read to its end. -/
theorem deserializeAll_encode {vs : List Nat} (h : ∀ v ∈ vs, v < 2 ^ 64) :
    ∀ {fuel : Nat}, (vs.flatMap (encode useBE)).length < 2 ^ 31 → vs.length ≤ fuel →
      deserializeAll useBE fuel (vs.flatMap (encode useBE)) =
        .ok (vs.map fun v => (v, encode useBE v)) := by
  induction vs with
  | nil =>
      intro fuel _ _
      cases fuel <;> rfl
  | cons v vs ih =>
      intro fuel hlen hfuel
      obtain ⟨fuel, rfl⟩ : ∃ k, fuel = k + 1 := ⟨fuel - 1, by simp at hfuel; omega⟩
      have hsum : (encode useBE v ++ vs.flatMap (encode useBE)).length =
          (encode useBE v).length + (vs.flatMap (encode useBE)).length := List.length_append
      rw [List.flatMap_cons] at hlen
      have hread : deserialize useBE (encode useBE v ++ vs.flatMap (encode useBE)) =
          .ok (v, vs.flatMap (encode useBE)) :=
        deserialize_encode (h v List.mem_cons_self) hlen
      have hrest : deserializeAll useBE fuel (vs.flatMap (encode useBE)) =
          .ok (vs.map fun v => (v, encode useBE v)) :=
        ih (fun w hw => h w (List.mem_cons_of_mem v hw)) (by omega) (by simp at hfuel; omega)
      have htake : (encode useBE v ++ vs.flatMap (encode useBE)).take
          ((encode useBE v ++ vs.flatMap (encode useBE)).length -
            (vs.flatMap (encode useBE)).length) = encode useBE v := by
        rw [List.length_append, Nat.add_sub_cancel, List.take_left]
      rw [deserializeAll_cons, hread]
      simp only [hrest, htake, List.map_cons]

/-- In a longer string the loop comes to a place where the size looks negative. -/
theorem deserializeAll_of_ge {vs : List Nat} (h : ∀ v ∈ vs, v < 2 ^ 64) :
    ∀ {fuel : Nat}, 2 ^ 31 ≤ (vs.flatMap (encode useBE)).length →
      ∃ e, deserializeAll useBE fuel (vs.flatMap (encode useBE)) = .error e := by
  induction vs with
  | nil =>
      intro fuel hlen
      simp at hlen
  | cons v vs ih =>
      intro fuel hlen
      have hsum : (encode useBE v ++ vs.flatMap (encode useBE)).length =
          (encode useBE v).length + (vs.flatMap (encode useBE)).length := List.length_append
      have hshort := length_encode_le_nine useBE (h v List.mem_cons_self)
      cases fuel with
      | zero =>
          rw [List.flatMap_cons]
          cases hb : encode useBE v ++ vs.flatMap (encode useBE) with
          | nil => exact absurd (List.append_eq_nil_iff.mp hb).1 (encode_ne_nil useBE v)
          | cons c rest => exact ⟨_, rfl⟩
      | succ fuel =>
          rw [deserializeAll_cons]
          rw [List.flatMap_cons] at hlen
          rcases le_or_gt ((encode useBE v).length : Int)
            (intSize (encode useBE v ++ vs.flatMap (encode useBE)).length) with hle | hlt
          · by_cases hrest : 2 ^ 31 ≤ (vs.flatMap (encode useBE)).length
            · obtain ⟨e, he⟩ : ∃ e, deserializeAll useBE fuel (vs.flatMap (encode useBE)) =
                  .error e := ih (fun w hw => h w (List.mem_cons_of_mem v hw)) hrest
              simp only [deserialize_encode_of_le (h v List.mem_cons_self) hle, he]
              exact ⟨e, rfl⟩
            · -- the size is at most nine bytes above `2 ^ 31`
              have hneg := intSize_neg hlen (by omega)
              omega
          · obtain ⟨e, he⟩ := deserialize_encode_of_lt (h v List.mem_cons_self) hlt
            simp only [he]
            exact ⟨e, rfl⟩

theorem length_le_flatMap_encode (useBE : Bool) (vs : List Nat) :
    vs.length ≤ (vs.flatMap (encode useBE)).length := by
  induction vs with
  | nil => exact Nat.le_refl 0
  | cons v vs ih =>
      have hpos := List.length_pos_iff.mpr (encode_ne_nil useBE v)
      rw [List.flatMap_cons, List.length_append, List.length_cons]
      omega

/-- No encoding has more than nine bytes. -/
theorem length_flatMap_encode_le {vs : List Nat} (h : ∀ v ∈ vs, v < 2 ^ 64) :
    (vs.flatMap (encode useBE)).length ≤ 9 * vs.length := by
  induction vs with
  | nil => exact Nat.le_refl 0
  | cons v vs ih =>
      have hv := length_encode_le_nine useBE (h v List.mem_cons_self)
      have hvs := ih fun w hw => h w (List.mem_cons_of_mem v hw)
      rw [List.flatMap_cons, List.length_append, List.length_cons]
      omega

/-- A string of encodings is read to its end exactly when an `int` holds its size. -/
theorem deserializeAll_encode_iff {vs : List Nat} (h : ∀ v ∈ vs, v < 2 ^ 64) :
    deserializeAll useBE (vs.flatMap (encode useBE)).length (vs.flatMap (encode useBE)) =
        .ok (vs.map fun v => (v, encode useBE v)) ↔
      (vs.flatMap (encode useBE)).length < 2 ^ 31 := by
  constructor
  · intro hok
    by_contra hlen
    have herror : ∃ e, deserializeAll useBE (vs.flatMap (encode useBE)).length
        (vs.flatMap (encode useBE)) = .error e := deserializeAll_of_ge h (not_lt.mp hlen)
    obtain ⟨e, he⟩ := herror
    rw [he] at hok
    cases hok
  · intro hlen
    exact deserializeAll_encode h hlen (length_le_flatMap_encode useBE vs)

end RoundTrip

section Order

theorem compare_cons (a b : UInt8) (x y : List UInt8) :
    compare (a :: x) (b :: y) = (compare a b).then (compare x y) :=
  List.compareLex_cons_cons

theorem compare_byte_lt {a b : UInt8} (h : a.toNat < b.toNat) : compare a b = .lt := by
  have hlt : a < b := UInt8.lt_iff_toNat_lt.mpr h
  simp [compare, compareOfLessAndEq, hlt]

theorem compare_byte_self (a : UInt8) : compare a a = .eq := Std.ReflCmp.compare_self

theorem compare_bytes_self (x : List UInt8) : compare x x = .eq := Std.ReflCmp.compare_self

/-- The most significant byte comes first. -/
theorem beBytes_succ (k v : Nat) :
    beBytes (k + 1) v = UInt8.ofNat (v / 256 ^ k % 256) :: beBytes k v := by
  simp [beBytes, leBytes, List.range_succ]

theorem beBytes_mod (k v : Nat) : beBytes k v = beBytes k (v % 256 ^ k) := by
  have hbytes : leBytes k v = leBytes k (v % 256 ^ k) := by
    unfold leBytes
    apply List.map_congr_left
    intro i hi
    have hik : i < k := List.mem_range.mp hi
    have hsplit : 256 ^ k = 256 ^ i * 256 ^ (k - i) := by
      rw [← Nat.pow_add, Nat.add_sub_cancel' hik.le]
    have hdvd : 256 ∣ 256 ^ (k - i) := dvd_pow_self 256 (by omega)
    have hdiv : v % 256 ^ k / 256 ^ i = v / 256 ^ i % 256 ^ (k - i) := by
      rw [hsplit, Nat.mod_mul_right_div_self]
    rw [hdiv, Nat.mod_mod_of_dvd _ hdvd]
  rw [beBytes, beBytes, hbytes]

/-- Big-endian strings of one length are ordered as their values. -/
theorem compare_beBytes {k u v : Nat} (huv : u < v) (hv : v < 256 ^ k) :
    compare (beBytes k u) (beBytes k v) = .lt := by
  induction k generalizing u v with
  | zero =>
      simp only [Nat.pow_zero] at hv
      omega
  | succ k ih =>
      have hpos : 0 < 256 ^ k := Nat.pow_pos (by omega)
      have hvtop : v / 256 ^ k < 256 := by
        rw [Nat.pow_succ] at hv
        exact Nat.div_lt_of_lt_mul hv
      have hle : u / 256 ^ k ≤ v / 256 ^ k := Nat.div_le_div_right huv.le
      have hu : u = 256 ^ k * (u / 256 ^ k) + u % 256 ^ k := (Nat.div_add_mod u _).symm
      have hv' : v = 256 ^ k * (v / 256 ^ k) + v % 256 ^ k := (Nat.div_add_mod v _).symm
      have hbyte : ∀ n, n < 256 → (UInt8.ofNat (n % 256)).toNat = n := by
        intro n hn
        rw [UInt8.toNat_ofNat']
        omega
      rw [beBytes_succ, beBytes_succ, compare_cons]
      rcases hle.lt_or_eq with htop | htop
      · have hlt : compare (UInt8.ofNat (u / 256 ^ k % 256)) (UInt8.ofNat (v / 256 ^ k % 256)) =
            .lt := by
          apply compare_byte_lt
          rw [hbyte _ (by omega), hbyte _ hvtop]
          exact htop
        rw [hlt]
        rfl
      · -- the same first byte, so that the rest decides
        have hmod : u % 256 ^ k < v % 256 ^ k := by
          rw [htop] at hu
          omega
        have hrest := ih hmod (Nat.mod_lt v hpos)
        rw [← beBytes_mod, ← beBytes_mod] at hrest
        rw [htop, compare_byte_self, hrest]
        rfl

/-- The big-endian encodings are ordered as the values. -/
theorem encode_lt {u v : Nat} (huv : u < v) (hv : v < 2 ^ 64) :
    compare (encode true u) (encode true v) = .lt := by
  by_cases hv1 : v ≤ b1max
  · have hu1 : u ≤ b1max := by omega
    rw [encode_of_le hu1, encode_of_le hv1, compare_cons, compare_byte_lt]
    · rfl
    · rw [UInt8.toNat_ofNat', UInt8.toNat_ofNat']
      unfold b1max at hv1
      omega
  · have hpos := numBytes_pos v
    rw [encode_of_gt (v := v) (by omega)]
    by_cases hu1 : u ≤ b1max
    · rw [encode_of_le hu1, compare_cons, compare_byte_lt]
      · rfl
      · rw [toNat_control hv, UInt8.toNat_ofNat']
        unfold b1max at hu1 ⊢
        omega
    · rw [encode_of_gt (v := u) (by omega), compare_cons]
      rcases (numBytes_mono huv.le).lt_or_eq with hn | hn
      · rw [compare_byte_lt]
        · rfl
        · rw [toNat_control hv, toNat_control (by omega)]
          omega
      · rw [hn, compare_byte_self]
        simp only [payload, if_true, hn]
        rw [compare_beBytes huv (lt_pow_numBytes v)]
        rfl

theorem encode_injective {u v : Nat} (hu : u < 2 ^ 64) (hv : v < 2 ^ 64)
    (h : encode true u = encode true v) : u = v := by
  rcases Nat.lt_trichotomy u v with hlt | heq | hgt
  · have hc := encode_lt hlt hv
    rw [h, compare_bytes_self] at hc
    cases hc
  · exact heq
  · have hc := encode_lt hgt hu
    rw [h, compare_bytes_self] at hc
    cases hc

end Order
end VarInt
end Shulcrum
