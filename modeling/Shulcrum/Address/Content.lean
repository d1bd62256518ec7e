import Shulcrum.Address.CashAddr
import Shulcrum.Lib.Fallible

/-!
# The content of a cash address

The payload of a cash address is a version byte and a hash, cut into groups of
five bits.  The last group is filled up with zeros.

**Results.**
* `convertLoop_spec`: the bits of the groups are those of the input.
* `packs_iff`: one payload for the bytes, one sequence of bytes for a payload.
* `decodeCashAddrContent_iff`: what is decoded is what is packed, for the types
  and sizes there are.
-/

namespace Shulcrum
namespace CashAddr

open Radix
open SubsMgr.StatusHash (utf8)

/-! ## The code -/

/-- The inner loop of `ConvertBits`: the groups that are complete, and the number
of bits that are left. -/
def emit (tobits acc bits : Nat) : List UInt8 × Nat :=
  if 0 < tobits ∧ tobits ≤ bits then
    let r := emit tobits acc (bits - tobits)
    (UInt8.ofNat ((acc >>> (bits - tobits)) &&& (2 ^ tobits - 1)) :: r.1, r.2)
  else ([], bits)
termination_by bits
decreasing_by omega

/-- The outer loop of `ConvertBits`: the groups, `acc` and `bits`. -/
def convertLoop (frombits tobits : Nat) : Nat → Nat → List UInt8 → List UInt8 × Nat × Nat
  | acc, bits, [] => ([], acc, bits)
  | acc, bits, b :: rest =>
      let acc := ((acc <<< frombits) ||| b.toNat) &&& (2 ^ (frombits + tobits - 1) - 1)
      let e := emit tobits acc (bits + frombits)
      let r := convertLoop frombits tobits acc e.2 rest
      (e.1 ++ r.1, r.2)

/-- `ConvertBits`, with what it returns and the output. -/
def convertBits (frombits tobits : Nat) (pad : Bool) (data : List UInt8) : Bool × List UInt8 :=
  let (out, acc, bits) := convertLoop frombits tobits 0 0 data
  if !pad && bits ≠ 0 then (false, out)
  else if pad && bits ≠ 0 then
    (true, out ++ [UInt8.ofNat ((acc <<< (tobits - bits)) &&& (2 ^ tobits - 1))])
  else (true, out)

/-- `CashAddrContent`; the type is the number in the version byte. -/
structure CashAddrContent where
  type : UInt8 := 0
  hash : List UInt8 := []
  deriving DecidableEq

/-- The encoded size in `PackAddrData`. -/
def encodedSize (size : Nat) : Except String UInt8 :=
  if size * 8 = 160 then .ok 0
  else if size * 8 = 192 then .ok 1
  else if size * 8 = 224 then .ok 2
  else if size * 8 = 256 then .ok 3
  else if size * 8 = 320 then .ok 4
  else if size * 8 = 384 then .ok 5
  else if size * 8 = 448 then .ok 6
  else if size * 8 = 512 then .ok 7
  else .error "Error packing cashaddr: invalid address length"

/-- `PackAddrData`. -/
def packAddrData (content : CashAddrContent) : Except String (List UInt8) := do
  let size ← encodedSize content.hash.length
  let versionByte := (content.type <<< 3) ||| size
  return (convertBits 8 5 true (versionByte :: content.hash)).2

/-- `EncodeCashAddr`. -/
def encodeCashAddr (pfx : List UInt8) (content : CashAddrContent) : Except String (List UInt8) := do
  let data ← packAddrData content
  return encode pfx data

/-- `DecodeCashAddrContent`; the default content if the text is rejected. -/
def decodeCashAddrContent (addr expectedPrefix : List UInt8) : CashAddrContent :=
  let (pfx, payload) := decode addr expectedPrefix
  if pfx ≠ expectedPrefix then {}
  else if payload = [] then {}
  else
    let extrabits := payload.length * 5 % 8
    if extrabits ≥ 5 then {}
    else
      let last := payload.getLastD 0
      let mask := UInt8.ofNat ((1 <<< extrabits) - 1)
      if last &&& mask ≠ 0 then {}
      else
        let data := (convertBits 5 8 false payload).2
        let version := data.getD 0 0
        if version &&& 0x80 ≠ 0 then {}
        else
          let hashSize := 20 + 4 * (version &&& 0x03).toNat
          let hashSize := if version &&& 0x04 ≠ 0 then hashSize * 2 else hashSize
          if data.length ≠ hashSize + 1 then {}
          else { type := (version >>> 3) &&& 0x1f, hash := data.drop 1 }

/-! ## Groups of bits -/

section Convert

variable {frombits tobits : Nat}

theorem mod_shift (acc bits k : Nat) : acc % 2 ^ (bits + k) =
    acc / 2 ^ bits % 2 ^ k * 2 ^ bits + acc % 2 ^ bits := by
  rw [pow_add, Nat.mod_mul]
  ring

/-- The groups that are complete, and the bits that are left. -/
theorem emit_spec (h0 : 0 < tobits) (h8 : tobits ≤ 8) (acc : Nat) (bits : Nat) :
    (emit tobits acc bits).1.length * tobits + (emit tobits acc bits).2 = bits ∧
    (emit tobits acc bits).2 < tobits ∧
    (∀ d ∈ (emit tobits acc bits).1, d.toNat < 2 ^ tobits) ∧
    number (2 ^ tobits) ((emit tobits acc bits).1.map UInt8.toNat) * 2 ^ (emit tobits acc bits).2
      + acc % 2 ^ (emit tobits acc bits).2 = acc % 2 ^ bits := by
  induction bits using Nat.strongRecOn with
  | ind bits ih =>
      by_cases hmore : tobits ≤ bits
      · obtain ⟨hlen, hlt, hall, hvalue⟩ := ih (bits - tobits) (by omega)
        have hpow : 2 ^ tobits ≤ 2 ^ 8 := Nat.pow_le_pow_right (by omega) h8
        have hgroup : (UInt8.ofNat ((acc >>> (bits - tobits)) &&& (2 ^ tobits - 1))).toNat =
            acc / 2 ^ (bits - tobits) % 2 ^ tobits := by
          have hmod := Nat.mod_lt (acc / 2 ^ (bits - tobits)) (Nat.two_pow_pos tobits)
          rw [Nat.shiftRight_eq_div_pow, Nat.and_two_pow_sub_one_eq_mod]
          exact UInt8.toNat_ofNat_of_lt (hmod.trans_le hpow)
        have hemit : emit tobits acc bits =
            (UInt8.ofNat ((acc >>> (bits - tobits)) &&& (2 ^ tobits - 1))
              :: (emit tobits acc (bits - tobits)).1, (emit tobits acc (bits - tobits)).2) := by
          rw [emit, if_pos ⟨h0, hmore⟩]
        rw [hemit]
        refine ⟨?_, hlt, ?_, ?_⟩
        · simp only [List.length_cons, Nat.add_mul, Nat.one_mul]
          omega
        · refine List.forall_mem_cons.mpr ⟨?_, hall⟩
          rw [hgroup]
          exact Nat.mod_lt _ (Nat.two_pow_pos tobits)
        · have hexp : (2 ^ tobits) ^ (emit tobits acc (bits - tobits)).1.length *
              2 ^ (emit tobits acc (bits - tobits)).2 = 2 ^ (bits - tobits) := by
            rw [← pow_mul, ← pow_add, mul_comm, hlen]
          have hmod := mod_shift acc (bits - tobits) tobits
          rw [Nat.sub_add_cancel hmore] at hmod
          rw [List.map_cons, number_cons, hgroup, List.length_map, Nat.add_mul, Nat.mul_assoc,
            hexp, Nat.add_assoc, hvalue, hmod]
      · have hemit : emit tobits acc bits = ([], bits) := by
          rw [emit, if_neg (fun h => hmore h.2)]
        rw [hemit]
        exact ⟨by simp, not_le.mp hmore, fun d hd => (List.not_mem_nil hd).elim, by simp [number]⟩

theorem toNat_acc {acc b : Nat} (hb : b < 2 ^ frombits) :
    ((acc <<< frombits) ||| b) &&& (2 ^ (frombits + tobits - 1) - 1) =
      (acc * 2 ^ frombits + b) % 2 ^ (frombits + tobits - 1) := by
  rw [Nat.and_two_pow_sub_one_eq_mod, ← Nat.shiftLeft_add_eq_or_of_lt hb, Nat.shiftLeft_eq]

/-- The bits of the groups, with those that are left, are those of the input. -/
theorem convertLoop_spec (h0 : 0 < tobits) (h8 : tobits ≤ 8) (data : List UInt8) :
    ∀ acc bits : Nat, bits < tobits → (∀ b ∈ data, b.toNat < 2 ^ frombits) →
      (convertLoop frombits tobits acc bits data).1.length * tobits
          + (convertLoop frombits tobits acc bits data).2.2 = bits + frombits * data.length ∧
      (convertLoop frombits tobits acc bits data).2.2 < tobits ∧
      (∀ d ∈ (convertLoop frombits tobits acc bits data).1, d.toNat < 2 ^ tobits) ∧
      number (2 ^ tobits) ((convertLoop frombits tobits acc bits data).1.map UInt8.toNat)
            * 2 ^ (convertLoop frombits tobits acc bits data).2.2
          + (convertLoop frombits tobits acc bits data).2.1
            % 2 ^ (convertLoop frombits tobits acc bits data).2.2 =
        acc % 2 ^ bits * 2 ^ (frombits * data.length)
          + number (2 ^ frombits) (data.map UInt8.toNat) := by
  induction data with
  | nil =>
      intro acc bits hbits _
      simp [convertLoop, hbits, number]
  | cons b rest ih =>
      intro acc bits hbits hdata
      obtain ⟨hb, hrest⟩ := List.forall_mem_cons.mp hdata
      have hacc := @toNat_acc frombits tobits acc b.toNat hb
      set acc₁ := ((acc <<< frombits) ||| b.toNat) &&& (2 ^ (frombits + tobits - 1) - 1) with hdef
      -- the bits that wait are those of the old ones and of the new byte
      have hwait : acc₁ % 2 ^ (bits + frombits) = acc % 2 ^ bits * 2 ^ frombits + b.toNat := by
        have hdvd : 2 ^ (bits + frombits) ∣ 2 ^ (frombits + tobits - 1) :=
          pow_dvd_pow 2 (by omega)
        have hsplit := mod_shift (acc * 2 ^ frombits + b.toNat) frombits bits
        have hdiv : (acc * 2 ^ frombits + b.toNat) / 2 ^ frombits = acc := by
          rw [mul_comm, Nat.mul_add_div (Nat.two_pow_pos frombits), Nat.div_eq_of_lt hb, add_zero]
        have hlow : (acc * 2 ^ frombits + b.toNat) % 2 ^ frombits = b.toNat := by
          rw [mul_comm, Nat.mul_add_mod, Nat.mod_eq_of_lt hb]
        rw [hdiv, hlow] at hsplit
        rw [hacc, Nat.mod_mod_of_dvd _ hdvd, add_comm bits frombits]
        exact hsplit
      obtain ⟨elen, elt, eall, evalue⟩ := emit_spec h0 h8 acc₁ (bits + frombits)
      obtain ⟨rlen, rlt, rall, rvalue⟩ := ih acc₁ (emit tobits acc₁ (bits + frombits)).2 elt hrest
      have hloop : convertLoop frombits tobits acc bits (b :: rest) =
          ((emit tobits acc₁ (bits + frombits)).1
            ++ (convertLoop frombits tobits acc₁ (emit tobits acc₁ (bits + frombits)).2 rest).1,
          (convertLoop frombits tobits acc₁ (emit tobits acc₁ (bits + frombits)).2 rest).2) := rfl
      rw [hloop]
      generalize emit tobits acc₁ (bits + frombits) = e at *
      generalize convertLoop frombits tobits acc₁ e.2 rest = r at *
      refine ⟨?_, rlt, ?_, ?_⟩
      · simp only [List.length_append, List.length_cons, Nat.add_mul, Nat.mul_add, Nat.mul_one]
        omega
      · intro d hd
        rcases List.mem_append.mp hd with hd | hd
        · exact eall d hd
        · exact rall d hd
      · have hexp : (2 ^ tobits) ^ r.1.length * 2 ^ r.2.2 =
            2 ^ e.2 * 2 ^ (frombits * rest.length) := by
          rw [← pow_mul, ← pow_add, ← pow_add, mul_comm, rlen]
        simp only [List.map_append, number_append, List.length_map, List.map_cons, number_cons,
          List.length_cons]
        calc (number (2 ^ tobits) (e.1.map UInt8.toNat) * (2 ^ tobits) ^ r.1.length
                + number (2 ^ tobits) (r.1.map UInt8.toNat)) * 2 ^ r.2.2 + r.2.1 % 2 ^ r.2.2
            = number (2 ^ tobits) (e.1.map UInt8.toNat)
                  * ((2 ^ tobits) ^ r.1.length * 2 ^ r.2.2)
                + (number (2 ^ tobits) (r.1.map UInt8.toNat) * 2 ^ r.2.2
                  + r.2.1 % 2 ^ r.2.2) := by ring
          _ = (number (2 ^ tobits) (e.1.map UInt8.toNat) * 2 ^ e.2 + acc₁ % 2 ^ e.2)
                  * 2 ^ (frombits * rest.length)
                + number (2 ^ frombits) (rest.map UInt8.toNat) := by
              rw [hexp, rvalue]
              ring
          _ = acc % 2 ^ bits * 2 ^ (frombits * (rest.length + 1))
                + (b.toNat * (2 ^ frombits) ^ rest.length
                  + number (2 ^ frombits) (rest.map UInt8.toNat)) := by
              rw [evalue, hwait]
              ring

end Convert

/-! ## Bytes and symbols -/

/-- The symbols have the bits of the bytes, with `e` zeros behind them. -/
structure PacksWith (e : Nat) (data payload : List UInt8) : Prop where
  symbols : Symbols payload
  lt : e < 5
  length : payload.length * 5 = data.length * 8 + e
  value : number 32 (payload.map UInt8.toNat) = number 256 (data.map UInt8.toNat) * 2 ^ e

/-- The symbols have the bits of the bytes, and no group too many. -/
def Packs (data payload : List UInt8) : Prop := ∃ e, PacksWith e data payload

theorem byte_lt (data : List UInt8) : ∀ x ∈ data.map UInt8.toNat, x < 256 := by
  intro x hx
  obtain ⟨b, -, rfl⟩ := List.mem_map.mp hx
  exact b.toNat_lt

theorem map_toNat_injective {u v : List UInt8} (h : u.map UInt8.toNat = v.map UInt8.toNat) :
    u = v :=
  List.map_injective_iff.mpr (fun _ _ hab => UInt8.toNat_inj.mp hab) h

variable {data data' payload payload' : List UInt8} {e e' : Nat}

/-- One payload for the bytes. -/
theorem PacksWith.payload_unique (h : PacksWith e data payload)
    (h' : PacksWith e' data payload') : payload = payload' := by
  have hlen := h.length
  have hlen' := h'.length
  have he := h.lt
  have he' := h'.lt
  obtain rfl : e = e' := by omega
  refine map_toNat_injective (number_injective (by omega) ?_ h.symbols.toNat_lt
    h'.symbols.toNat_lt (h.value.trans h'.value.symm))
  rw [List.length_map, List.length_map]
  omega

/-- One sequence of bytes for a payload. -/
theorem PacksWith.data_unique (h : PacksWith e data payload) (h' : PacksWith e' data' payload) :
    data = data' := by
  have hlen := h.length
  have hlen' := h'.length
  have he := h.lt
  have he' := h'.lt
  obtain rfl : e = e' := by omega
  have hvalue := Nat.eq_of_mul_eq_mul_right (Nat.two_pow_pos e) (h.value.symm.trans h'.value)
  refine map_toNat_injective (number_injective (by omega) ?_ (byte_lt data) (byte_lt data') hvalue)
  rw [List.length_map, List.length_map]
  omega

/-- The groups of five bits of some bytes. -/
theorem packs_convertBits (data : List UInt8) : Packs data (convertBits 8 5 true data).2 := by
  obtain ⟨hlen, hlt, hall, hvalue⟩ := @convertLoop_spec 8 5 (by omega)
    (by omega) data 0 0 (by omega) fun b _ => b.toNat_lt
  rw [convertBits]
  generalize convertLoop 8 5 0 0 data = r at hlen hlt hall hvalue ⊢
  obtain ⟨out, acc, bits⟩ := r
  simp only [Nat.zero_mod, Nat.zero_mul, Nat.zero_add] at hlen hlt hall hvalue ⊢
  have hsymbols : Symbols out := fun d hd => UInt8.lt_iff_toNat_lt.mpr (hall d hd)
  by_cases hbits : bits = 0
  · subst hbits
    simp only [ne_eq, not_true_eq_false, decide_false, Bool.and_false, Bool.false_eq_true, if_false]
    refine ⟨0, hsymbols, by omega, by omega, ?_⟩
    rw [Nat.pow_zero, Nat.mod_one, Nat.add_zero, Nat.mul_one] at hvalue
    rw [Nat.pow_zero, Nat.mul_one]
    exact hvalue
  · simp only [Bool.not_true, Bool.false_and, Bool.false_eq_true, if_false, ne_eq, hbits,
      not_false_eq_true, decide_true, Bool.and_self, if_true]
    have hpow : 2 ^ bits * 2 ^ (5 - bits) = 32 := by
      rw [← pow_add, Nat.add_sub_cancel' hlt.le]
      rfl
    -- the last group: the bits that are left, moved up
    have hlast : (UInt8.ofNat ((acc <<< (5 - bits)) &&& (2 ^ 5 - 1))).toNat =
        acc % 2 ^ bits * 2 ^ (5 - bits) := by
      have hmod : acc * 2 ^ (5 - bits) % 2 ^ 5 = acc % 2 ^ bits * 2 ^ (5 - bits) := by
        have h := Nat.mul_mod_mul_right (2 ^ (5 - bits)) acc (2 ^ bits)
        rwa [hpow] at h
      have hsmall := Nat.mod_lt (acc * 2 ^ (5 - bits)) (Nat.two_pow_pos 5)
      rw [Nat.and_two_pow_sub_one_eq_mod, Nat.shiftLeft_eq, ← hmod]
      exact UInt8.toNat_ofNat_of_lt (hsmall.trans (by decide))
    refine ⟨5 - bits, ?_, by omega, ?_, ?_⟩
    · intro d hd
      rcases List.mem_append.mp hd with hd | hd
      · exact hsymbols d hd
      · rw [List.mem_singleton.mp hd, UInt8.lt_iff_toNat_lt, hlast]
        have hsmall := Nat.mod_lt acc (Nat.two_pow_pos bits)
        calc acc % 2 ^ bits * 2 ^ (5 - bits) < 2 ^ bits * 2 ^ (5 - bits) :=
              Nat.mul_lt_mul_of_pos_right hsmall (Nat.two_pow_pos _)
          _ = 32 := hpow
    · rw [List.length_append, List.length_singleton]
      omega
    · rw [List.map_append, List.map_singleton, number_concat, hlast]
      calc 32 * number 32 (out.map UInt8.toNat) + acc % 2 ^ bits * 2 ^ (5 - bits)
          = (number 32 (out.map UInt8.toNat) * 2 ^ bits + acc % 2 ^ bits) * 2 ^ (5 - bits) := by
            rw [← hpow]
            ring
        _ = number 256 (data.map UInt8.toNat) * 2 ^ (5 - bits) :=
            congrArg (· * 2 ^ (5 - bits)) hvalue

/-- The bytes of some groups of five bits, and the bits that are left. -/
theorem convertBits_symbols (h : Symbols payload) :
    ∃ rest, rest < 2 ^ (payload.length * 5 % 8) ∧
      payload.length * 5 = (convertBits 5 8 false payload).2.length * 8
        + payload.length * 5 % 8 ∧
      number 32 (payload.map UInt8.toNat) =
        number 256 ((convertBits 5 8 false payload).2.map UInt8.toNat)
          * 2 ^ (payload.length * 5 % 8) + rest := by
  obtain ⟨hlen, hlt, -, hvalue⟩ := @convertLoop_spec 5 8 (by omega)
    (by omega) payload 0 0 (by omega) fun b hb => UInt8.lt_iff_toNat_lt.mp (h b hb)
  have hout : (convertBits 5 8 false payload).2 = (convertLoop 5 8 0 0 payload).1 := by
    rw [convertBits]
    generalize convertLoop 5 8 0 0 payload = r
    obtain ⟨out, acc, bits⟩ := r
    by_cases hbits : bits = 0
    · simp [hbits]
    · simp [hbits]
  rw [hout]
  generalize convertLoop 5 8 0 0 payload = r at hlen hlt hvalue ⊢
  obtain ⟨out, acc, bits⟩ := r
  simp only [Nat.zero_mod, Nat.zero_mul, Nat.zero_add] at hlen hlt hvalue ⊢
  obtain rfl : payload.length * 5 % 8 = bits := by omega
  exact ⟨_, Nat.mod_lt _ (Nat.two_pow_pos _), by omega, hvalue.symm⟩

/-- The zeros behind the bytes are in the last symbol. -/
theorem number_mod (hne : payload ≠ []) (he : e ≤ 5) :
    number 32 (payload.map UInt8.toNat) % 2 ^ e = (payload.getLastD 0).toNat % 2 ^ e := by
  obtain ⟨init, last, rfl⟩ := List.eq_nil_or_concat' payload |>.resolve_left hne
  have hdvd : 2 ^ e ∣ 32 * number 32 (init.map UInt8.toNat) :=
    (pow_dvd_pow 2 he).mul_right _
  rw [List.map_append, List.map_singleton, number_concat, Nat.add_mod,
    Nat.mod_eq_zero_of_dvd hdvd, Nat.zero_add, Nat.mod_mod]
  simp

theorem and_mask_eq_zero_iff {last : UInt8} (he : e < 5) :
    last &&& UInt8.ofNat ((1 <<< e) - 1) = 0 ↔ last.toNat % 2 ^ e = 0 := by
  have hsmall : 2 ^ e - 1 < UInt8.size := by
    have hpow : 2 ^ e ≤ 2 ^ 5 := Nat.pow_le_pow_right (by omega) he.le
    have hsize : UInt8.size = 256 := rfl
    omega
  have hmask : (UInt8.ofNat (2 ^ e - 1)).toNat = 2 ^ e - 1 := UInt8.toNat_ofNat_of_lt hsmall
  rw [← UInt8.toNat_inj, UInt8.toNat_and, Nat.one_shiftLeft, hmask,
    Nat.and_two_pow_sub_one_eq_mod]
  rfl

/-- What the decoder checks is enough. -/
theorem packs_of_checks (h : Symbols payload) (hne : payload ≠ [])
    (hextra : payload.length * 5 % 8 < 5)
    (hmask : payload.getLastD 0 &&& UInt8.ofNat ((1 <<< (payload.length * 5 % 8)) - 1) = 0) :
    PacksWith (payload.length * 5 % 8) (convertBits 5 8 false payload).2 payload := by
  obtain ⟨rest, hrest, hlen, hvalue⟩ := convertBits_symbols h
  refine ⟨h, hextra, hlen, ?_⟩
  have hzero := number_mod hne hextra.le
  rw [(and_mask_eq_zero_iff hextra).mp hmask, hvalue, Nat.mul_add_mod_self_right,
    Nat.mod_eq_of_lt hrest] at hzero
  rw [hvalue, hzero, Nat.add_zero]

/-- What is packed passes the checks of the decoder. -/
theorem PacksWith.checks (h : PacksWith e data payload) (hne : payload ≠ []) :
    payload.length * 5 % 8 < 5 ∧
      payload.getLastD 0 &&& UInt8.ofNat ((1 <<< (payload.length * 5 % 8)) - 1) = 0 ∧
      (convertBits 5 8 false payload).2 = data := by
  have hlen := h.length
  have he := h.lt
  have hextra : payload.length * 5 % 8 = e := by omega
  have hmask : payload.getLastD 0 &&& UInt8.ofNat ((1 <<< (payload.length * 5 % 8)) - 1) = 0 := by
    rw [hextra, and_mask_eq_zero_iff he, ← number_mod hne he.le, h.value, Nat.mul_mod_left]
  rw [← hextra] at he
  exact ⟨he, hmask, (packs_of_checks h.symbols hne he hmask).data_unique h⟩

/-! ## The version byte -/

/-- The size of the hash by the version byte. -/
def hashSize (version : UInt8) : Nat :=
  if version &&& 0x04 ≠ 0 then (20 + 4 * (version &&& 0x03).toNat) * 2
  else 20 + 4 * (version &&& 0x03).toNat

/-- What is found by going through all version bytes. -/
theorem version_tables :
    (∀ n < 0x100, UInt8.ofNat n &&& 0x80 = 0 →
      encodedSize (hashSize (UInt8.ofNat n)) = .ok (UInt8.ofNat n &&& 7) ∧
      (UInt8.ofNat n >>> 3) &&& 0x1f < 16 ∧
      (((UInt8.ofNat n >>> 3) &&& 0x1f) <<< 3) ||| (UInt8.ofNat n &&& 7) = UInt8.ofNat n) ∧
    ∀ n < 16, ∀ size ∈ [20, 24, 28, 32, 40, 48, 56, 64], ∀ c ∈ (encodedSize size).toOption,
      ((UInt8.ofNat n <<< 3) ||| c) &&& 0x80 = 0 ∧
      hashSize ((UInt8.ofNat n <<< 3) ||| c) = size ∧
      (((UInt8.ofNat n <<< 3) ||| c) >>> 3) &&& 0x1f = UInt8.ofNat n := by
  decide +kernel

theorem encodedSize_eq_ok {size : Nat} {c : UInt8} (h : encodedSize size = .ok c) :
    size ∈ [20, 24, 28, 32, 40, 48, 56, 64] := by
  unfold encodedSize at h
  split_ifs at h <;> simp <;> omega

/-- The version byte for a type and a size. -/
theorem version_of_type {type c : UInt8} {size : Nat} (ht : type < 16)
    (hc : encodedSize size = .ok c) :
    ((type <<< 3) ||| c) &&& 0x80 = 0 ∧ hashSize ((type <<< 3) ||| c) = size ∧
      (((type <<< 3) ||| c) >>> 3) &&& 0x1f = type := by
  have h := version_tables.2 type.toNat ht size (encodedSize_eq_ok hc) c (by rw [hc]; rfl)
  rwa [UInt8.ofNat_toNat] at h

/-- The type and the size for a version byte. -/
theorem type_of_version {version : UInt8} (h : version &&& 0x80 = 0) :
    encodedSize (hashSize version) = .ok (version &&& 7) ∧ (version >>> 3) &&& 0x1f < 16 ∧
      (((version >>> 3) &&& 0x1f) <<< 3) ||| (version &&& 7) = version := by
  have hv := version_tables.1 version.toNat version.toNat_lt
  rw [UInt8.ofNat_toNat] at hv
  exact hv h

/-! ## The content -/

/-- What is packed for a content. -/
theorem packAddrData_eq_ok {content : CashAddrContent} :
    packAddrData content = .ok payload ↔ ∃ size, encodedSize content.hash.length = .ok size ∧
      Packs (((content.type <<< 3) ||| size) :: content.hash) payload := by
  rw [packAddrData]
  constructor
  · intro h
    obtain ⟨size, hsize, hpayload⟩ := Fallible.bind_eq_ok.mp h
    obtain rfl := Except.ok.inj hpayload
    exact ⟨size, hsize, packs_convertBits _⟩
  · rintro ⟨size, hsize, e, hpacks⟩
    obtain ⟨e', hpacks'⟩ := packs_convertBits (((content.type <<< 3) ||| size) :: content.hash)
    rw [hsize]
    exact congrArg Except.ok (hpacks'.payload_unique hpacks)

/-- What the decoder makes of a payload. -/
def contentOf (payload : List UInt8) : CashAddrContent :=
  let data := (convertBits 5 8 false payload).2
  { type := (data.getD 0 0 >>> 3) &&& 0x1f, hash := data.drop 1 }

/-- What the decoder checks of a payload. -/
structure Checked (payload : List UInt8) : Prop where
  nonempty : payload ≠ []
  extrabits : payload.length * 5 % 8 < 5
  padding : payload.getLastD 0 &&& UInt8.ofNat ((1 <<< (payload.length * 5 % 8)) - 1) = 0
  version : (convertBits 5 8 false payload).2.getD 0 0 &&& 0x80 = 0
  size : (convertBits 5 8 false payload).2.length =
    hashSize ((convertBits 5 8 false payload).2.getD 0 0) + 1

theorem decodeCashAddrContent_eq_iff {addr p : List UInt8} {content : CashAddrContent}
    (hhash : content.hash ≠ []) :
    decodeCashAddrContent addr p = content ↔
      ∃ payload, decode addr p = (p, payload) ∧ Checked payload ∧ contentOf payload = content := by
  have hempty : ({} : CashAddrContent) ≠ content := by
    rintro rfl
    exact hhash rfl
  cases hdecode : decode addr p with
  | mk q payload =>
      simp only [decodeCashAddrContent, hdecode]
      constructor
      · intro h
        split_ifs at h with hq hne hextra hpad hversion h4 hsize hsize
        all_goals first
          | exact absurd h hempty
          | skip
        · exact ⟨payload, by rw [not_not.mp hq], ⟨hne, not_le.mp hextra, not_not.mp hpad,
            not_not.mp hversion, by rw [not_not.mp hsize, hashSize, if_pos h4]⟩, h⟩
        · exact ⟨payload, by rw [not_not.mp hq], ⟨hne, not_le.mp hextra, not_not.mp hpad,
            not_not.mp hversion, by rw [not_not.mp hsize, hashSize, if_neg h4]⟩, h⟩
      · rintro ⟨payload', heq, hchecked, hcontent⟩
        obtain ⟨rfl, rfl⟩ := Prod.mk.inj heq
        have hsize := hchecked.size
        rw [if_neg (not_not_intro rfl), if_neg hchecked.nonempty,
          if_neg (not_le.mpr hchecked.extrabits), if_neg (not_not_intro hchecked.padding),
          if_neg (not_not_intro hchecked.version)]
        rw [hashSize] at hsize
        split_ifs at hsize ⊢ with h4 hbad hbad
        · exact absurd hsize hbad
        · exact hcontent
        · exact absurd hsize hbad
        · exact hcontent

/-- What is checked is what is packed. -/
theorem checked_iff {content : CashAddrContent} (h : Symbols payload) :
    Checked payload ∧ contentOf payload = content ↔
      content.type < 16 ∧ packAddrData content = .ok payload := by
  rw [packAddrData_eq_ok]
  constructor
  · rintro ⟨hchecked, rfl⟩
    have hpacks := packs_of_checks h hchecked.nonempty hchecked.extrabits hchecked.padding
    have hsize := hchecked.size
    obtain ⟨hencoded, htype, hversion⟩ := type_of_version hchecked.version
    rw [contentOf]
    generalize (convertBits 5 8 false payload).2 = data at hsize hencoded htype hversion hpacks ⊢
    cases data with
    | nil =>
        rw [List.length_nil] at hsize
        omega
    | cons version hash =>
        simp only [List.getD_cons_zero, List.length_cons, Nat.add_right_cancel_iff,
          List.drop_one, List.tail_cons] at hsize hencoded htype hversion ⊢
        refine ⟨htype, version &&& 7, ?_, ?_⟩
        · rw [hsize]
          exact hencoded
        · rw [hversion]
          exact ⟨_, hpacks⟩
  · rintro ⟨htype, size, hsize, e, hpacks⟩
    have hlen := hpacks.length
    have hne : payload ≠ [] := by
      rintro rfl
      rw [List.length_cons, List.length_nil] at hlen
      omega
    obtain ⟨hextra, hpad, hdata⟩ := hpacks.checks hne
    obtain ⟨hversion, hhash, htype'⟩ := version_of_type htype hsize
    refine ⟨⟨hne, hextra, hpad, ?_, ?_⟩, ?_⟩
    · rw [hdata]
      exact hversion
    · rw [hdata]
      exact congrArg (· + 1) hhash.symm
    · rw [contentOf, hdata]
      exact congrArg (fun t => { type := t, hash := content.hash : CashAddrContent }) htype'

/--
A text is decoded to a content iff it is what is encoded for the content, in one case
and with or without the prefix, and the type fits into its four bits.
-/
theorem decodeCashAddrContent_iff {addr p : List UInt8} {content : CashAddrContent}
    (hlower : LowerCase p) (hp : p ≠ []) (hhash : content.hash ≠ []) :
    decodeCashAddrContent addr p = content ↔ content.type < 16 ∧ UniformCase addr ∧
      ∃ text, encodeCashAddr p content = .ok text ∧
        (addr.map toLower = text ∨ p ++ colon :: addr.map toLower = text) := by
  rw [decodeCashAddrContent_eq_iff hhash]
  constructor
  · rintro ⟨payload, hdecode, hchecked⟩
    obtain ⟨hcase, hsymbols, htext⟩ := (decode_iff hp).mp hdecode
    obtain ⟨htype, hpack⟩ := (checked_iff hsymbols).mp hchecked
    refine ⟨htype, hcase, encode p payload, by rw [encodeCashAddr, hpack]; rfl, ?_⟩
    rcases htext with ⟨-, htext⟩ | ⟨-, htext⟩
    · exact .inl htext
    · exact .inr htext
  · rintro ⟨htype, hcase, text, hencode, htext⟩
    obtain ⟨payload, hpack, heq⟩ := Fallible.bind_eq_ok.mp hencode
    obtain rfl := Except.ok.inj heq
    obtain ⟨size, -, e, hpacks⟩ := packAddrData_eq_ok.mp hpack
    refine ⟨payload, ?_, (checked_iff hpacks.symbols).mpr ⟨htype, hpack⟩⟩
    refine (decode_iff hp).mpr ⟨hcase, hpacks.symbols, ?_⟩
    rcases htext with htext | htext
    · exact .inl ⟨hlower, htext⟩
    · exact .inr ⟨rfl, htext⟩

/-- The cash address of twenty zero bytes. -/
def zeroText : String := "bitcoincash:qqqqqqqqqqqqqqqqqqqqqqqqqqqqqqqqqqfnhks603"

theorem encodeCashAddr_zero :
    encodeCashAddr (utf8 "bitcoincash") { type := 0, hash := List.replicate 20 0 } =
      .ok (utf8 zeroText) := by
  have hpacks : PacksWith 2 ((((0 : UInt8) <<< 3) ||| 0) :: List.replicate 20 0)
      (List.replicate 34 0) :=
    ⟨List.forall_mem_replicate.mpr (.inr (by decide)), by decide, by decide, by decide⟩
  have hpack : packAddrData { type := 0, hash := List.replicate 20 0 } =
      .ok (List.replicate 34 0) :=
    packAddrData_eq_ok.mpr ⟨0, rfl, 2, hpacks⟩
  have htext : encode (utf8 "bitcoincash") (List.replicate 34 0) = utf8 zeroText := by
    decide +kernel
  rw [encodeCashAddr, hpack, ← htext]
  rfl

/-- The address is decoded to the twenty zero bytes. -/
theorem decodeCashAddrContent_zero :
    decodeCashAddrContent (utf8 zeroText) (utf8 "bitcoincash") =
      { type := 0, hash := List.replicate 20 0 } := by
  have hlower : LowerCase (utf8 "bitcoincash") := List.all_eq_true.mp (by decide)
  have hcase : UniformCase (utf8 zeroText) := fun h => absurd h.1 (by decide +kernel)
  have hsmall : (utf8 zeroText).map toLower = utf8 zeroText := by decide +kernel
  exact (decodeCashAddrContent_iff hlower (by decide) (by decide)).mpr
    ⟨by decide, hcase, utf8 zeroText, encodeCashAddr_zero, .inl hsmall⟩

end CashAddr
end Shulcrum
