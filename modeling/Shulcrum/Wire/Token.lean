import Shulcrum.Wire.Fields

/-!
# Token data of outputs

An output that carries a token has the token data in front of its script, after
a prefix byte, in the place where the script would be.  `UnwrapScriptPubKey`
takes what cannot be read as token data for a script.

**Results.**
* `exact_unserialize`: token data is accepted in one form, and only if it is valid.
* `serialize_of_valid`: what is accepted can be written.
* `unwrap_spec`, `unwrap_iff_wrap`: unwrapping is the inverse of wrapping.
-/

namespace Shulcrum
namespace Wire
namespace Token

open BTC Codec
open LitecoinBits (maxSize)
open Streams (writeCompactSize)

/-- `PREFIX_BYTE`. -/
def prefixByte : UInt8 := 0xef

/-- `Structure` and `Capability`: the bits of the bitfield. -/
def hasAmountBit : UInt8 := 0x10

def hasNFTBit : UInt8 := 0x20

def hasCommitmentLengthBit : UInt8 := 0x40

/-- `OutputData`; the amount is a signed integer of 64 bits. -/
structure OutputData where
  id : Hash
  bitfield : UInt8
  amount : BitVec 64 := 0
  commitment : Bytes := []
  deriving DecidableEq

namespace OutputData

def hasNFT (d : OutputData) : Bool := d.bitfield &&& hasNFTBit != 0

def hasAmount (d : OutputData) : Bool := d.bitfield &&& hasAmountBit != 0

def hasCommitmentLength (d : OutputData) : Bool := d.bitfield &&& hasCommitmentLengthBit != 0

/-- `IsValidBitfield`. -/
def isValidBitfield (d : OutputData) : Bool :=
  let s := d.bitfield &&& 0xf0
  if s ≥ 0x80 ∨ s = 0 then false
  else if d.bitfield &&& 0x0f > 2 then false
  else if ¬ d.hasNFT ∧ ¬ d.hasAmount then false
  else if ¬ d.hasNFT ∧ d.bitfield &&& 0x0f ≠ 0 then false
  else if ¬ d.hasNFT ∧ d.hasCommitmentLength then false
  else true

end OutputData

/-- The greatest amount of a token. -/
def int64Max : Nat := 2 ^ 63 - 1

def invalidBitfield (bitfield : UInt8) : String :=
  "Invalid token bitfield: 0x" ++
    String.ofList ((Nat.toDigits 16 bitfield.toNat).leftpad 2 '0')

def emptyCommitment : String := "Serialized token commitment may not be empty"

def amountOutOfRange : String := "Token amount out of range"

def zeroAmount : String := "Serialized token amount may not be 0"

/-! ## Reading -/

/-- The unserialization of `NFTCommitment`. -/
def readCommitment : Reader Bytes := do
  let commitment ← readBytes
  throwIf (commitment = []) emptyCommitment
  return commitment

/-- The unserialization of `SafeAmount`. -/
def readAmount : Reader (BitVec 64) := do
  let val ← readCompactSize false
  throwIf (val > int64Max) amountOutOfRange
  throwIf (val = 0) zeroAmount
  return BitVec.ofNat 64 val

/-- A field that is there if its bit is set. -/
def readIf {α : Type} (c : Bool) (r : Reader α) (otherwise : α) : Reader α :=
  if c then r else return otherwise

/-- The unserialization of `OutputData`. -/
def OutputData.unserialize : Reader OutputData := do
  let id ← readBlob 256
  let bitfield ← readUInt 8
  let head : OutputData := { id := id, bitfield := .ofBitVec bitfield }
  throwIf (¬ head.isValidBitfield) (invalidBitfield head.bitfield)
  let commitment ← readIf head.hasCommitmentLength readCommitment []
  let amount ← readIf head.hasAmount readAmount 0
  return { head with amount := amount, commitment := commitment }

/-- `UnwrapScriptPubKey` as the program calls it: token data that does not parse is part of the
script. -/
def unwrapScriptPubKey (wspk : Bytes) : Option OutputData × Bytes :=
  match wspk with
  | [] => (none, [])
  | first :: data =>
      if first = prefixByte then
        match OutputData.unserialize data with
        | .ok (tokenData, rest) => (some tokenData, rest)
        | .error _ => (none, wspk)
      else (none, wspk)

/-! ## Writing -/

/-- The serialization of `NFTCommitment`. -/
def writeCommitment (commitment : Bytes) : Except String Bytes :=
  if commitment = [] then .error emptyCommitment else .ok (writeBytes commitment)

/-- The serialization of `SafeAmount`. -/
def writeAmount (amount : BitVec 64) : Except String Bytes :=
  let val := amount.toNat
  if val > int64Max then .error amountOutOfRange
  else if val = 0 then .error zeroAmount
  else .ok (writeCompactSize val)

/-- A field that is written if its bit is set. -/
def writeIf (c : Bool) (w : Except String Bytes) : Except String Bytes :=
  if c then w else .ok []

/-- The serialization of `OutputData`. -/
def OutputData.serialize (d : OutputData) : Except String Bytes :=
  if ¬ d.isValidBitfield then .error (invalidBitfield d.bitfield)
  else do
    let commitment ← writeIf d.hasCommitmentLength (writeCommitment d.commitment)
    let amount ← writeIf d.hasAmount (writeAmount d.amount)
    return beBytes 32 d.id.toNat ++ (leBytes 1 d.bitfield.toNat ++ (commitment ++ amount))

/-- `WrapScriptPubKey`. -/
def wrapScriptPubKey (tokenData : Option OutputData) (scriptPubKey : Bytes) :
    Except String Bytes :=
  match tokenData with
  | none => .ok scriptPubKey
  | some d => do
      let data ← d.serialize
      return prefixByte :: (data ++ scriptPubKey)

/-! ## The form of token data -/

namespace OutputData

/-- Token data as the format allows it: a field is empty if its bit is not set. -/
structure Valid (d : OutputData) : Prop where
  bitfield : d.isValidBitfield
  commitment : if d.hasCommitmentLength then d.commitment.length ≤ maxSize ∧ d.commitment ≠ []
    else d.commitment = []
  amount : if d.hasAmount then d.amount.toNat ≤ int64Max ∧ d.amount ≠ 0 else d.amount = 0

/-- The bytes of valid token data. -/
def form (d : OutputData) : Bytes :=
  beBytes 32 d.id.toNat ++ (leBytes 1 d.bitfield.toNat ++
    ((if d.hasCommitmentLength then writeBytes d.commitment else []) ++
      if d.hasAmount then writeCompactSize d.amount.toNat else []))

end OutputData

/-- The bytes in place of the script. -/
def wrapped (tokenData : Option OutputData) (scriptPubKey : Bytes) : Bytes :=
  match tokenData with
  | none => scriptPubKey
  | some d => prefixByte :: (d.form ++ scriptPubKey)

/-- An output has no token data only if its script does not begin with some. -/
def Separated (tokenData : Option OutputData) (scriptPubKey : Bytes) : Prop :=
  match tokenData with
  | none => ∀ (d : OutputData) (rest : Bytes), d.Valid → scriptPubKey ≠ wrapped (some d) rest
  | some d => d.Valid

theorem exact_readIf {α : Type} {c : Bool} {r : Reader α} {w : α → Bytes} {v : α → Prop} {a : α}
    (hr : Exact r w v) :
    Exact (readIf c r a) (fun x => if c then w x else []) (fun x => if c then v x else x = a) := by
  cases c with
  | false => exact Exact.pure a
  | true => exact hr

theorem exact_readCommitment :
    Exact readCommitment writeBytes (fun x => x.length ≤ maxSize ∧ x ≠ []) :=
  exact_readBytes.check

theorem exact_readAmount :
    Exact readAmount (fun x => writeCompactSize x.toNat) (fun x => x.toNat ≤ int64Max ∧ x ≠ 0) := by
  intro s x rest
  simp only [readAmount, bind_eq_ok, throwIf_eq_ok, pure_eq_ok,
    exact_readCompactSize_unchecked _ _ _]
  constructor
  · rintro ⟨val, s₁, ⟨rfl, hval⟩, u, s₂, ⟨hle, rfl⟩, u', s₃, ⟨hne, rfl⟩, rfl, rfl⟩
    have htoNat : (BitVec.ofNat 64 val).toNat = val := by
      rw [BitVec.toNat_ofNat, Nat.mod_eq_of_lt hval]
    rw [htoNat]
    refine ⟨rfl, not_lt.mp hle, ?_⟩
    intro h0
    rw [h0] at htoNat
    exact hne htoNat.symm
  · rintro ⟨rfl, hle, hne⟩
    have hne' : x.toNat ≠ 0 := fun h0 => hne (BitVec.eq_of_toNat_eq h0)
    exact ⟨x.toNat, rest, ⟨rfl, x.isLt⟩, (), rest, ⟨not_lt.mpr hle, rfl⟩, (), rest, ⟨hne', rfl⟩,
      by rw [BitVec.ofNat_toNat, BitVec.setWidth_eq], rfl⟩

/-- Token data is accepted in one form, and only if it is valid. -/
theorem exact_unserialize :
    Exact OutputData.unserialize OutputData.form OutputData.Valid := by
  intro s d rest
  have hid : ∀ s x rest, (readBlob 256 : Reader (BitVec 256)) s = .ok (x, rest) ↔
      s = beBytes 32 x.toNat ++ rest ∧ True := exact_readBlob (by omega)
  have hbit : ∀ s x rest, (readUInt 8 : Reader (BitVec 8)) s = .ok (x, rest) ↔
      s = leBytes 1 x.toNat ++ rest ∧ True := exact_readUInt (by omega)
  simp only [OutputData.unserialize, bind_eq_ok, throwIf_eq_ok, pure_eq_ok, hid, hbit,
    exact_readIf exact_readCommitment _ _ _, exact_readIf exact_readAmount _ _ _, and_true]
  constructor
  · rintro ⟨id, s₁, rfl, bitfield, s₂, rfl, u, s₃, ⟨hvalid, rfl⟩, commitment, s₄, ⟨rfl, hc⟩,
      amount, s₅, ⟨rfl, ha⟩, rfl, rfl⟩
    refine ⟨?_, not_not.mp hvalid, hc, ha⟩
    simp only [OutputData.form, List.append_assoc]
    rfl
  · rintro ⟨rfl, hvalid, hc, ha⟩
    refine ⟨d.id, _, ?_, d.bitfield.toBitVec, _, rfl, (), _, ⟨not_not.mpr hvalid, rfl⟩,
      d.commitment, _, ⟨rfl, hc⟩, d.amount, rest, ⟨rfl, ha⟩, rfl, rfl⟩
    simp only [OutputData.form, List.append_assoc]
    rfl

theorem writeIf_eq {c : Bool} {w : Except String Bytes} {x : Bytes} (h : c = true → w = .ok x) :
    writeIf c w = .ok (if c then x else []) := by
  cases c with
  | false => rfl
  | true => exact h rfl

theorem writeCommitment_of_ne {commitment : Bytes} (h : commitment ≠ []) :
    writeCommitment commitment = .ok (writeBytes commitment) := if_neg h

theorem writeAmount_of_le {amount : BitVec 64} (hle : amount.toNat ≤ int64Max) (hne : amount ≠ 0) :
    writeAmount amount = .ok (writeCompactSize amount.toNat) := by
  have hzero : amount.toNat ≠ 0 := fun h => hne (BitVec.eq_of_toNat_eq h)
  simp only [writeAmount, if_neg (not_lt.mpr hle), if_neg hzero]

/-- Valid token data can be written. -/
theorem serialize_of_valid {d : OutputData} (h : d.Valid) : d.serialize = .ok d.form := by
  have hcommitment : writeIf d.hasCommitmentLength (writeCommitment d.commitment) =
      .ok (if d.hasCommitmentLength then writeBytes d.commitment else []) := by
    apply writeIf_eq
    intro hbit
    have hc := h.commitment
    rw [if_pos hbit] at hc
    exact writeCommitment_of_ne hc.2
  have hamount : writeIf d.hasAmount (writeAmount d.amount) =
      .ok (if d.hasAmount then writeCompactSize d.amount.toNat else []) := by
    apply writeIf_eq
    intro hbit
    have ha := h.amount
    rw [if_pos hbit] at ha
    exact writeAmount_of_le ha.1 ha.2
  rw [OutputData.serialize, if_neg (not_not.mpr h.bitfield), hcommitment, hamount]
  rfl

theorem wrapScriptPubKey_of_separated {tokenData : Option OutputData} {script : Bytes}
    (h : Separated tokenData script) :
    wrapScriptPubKey tokenData script = .ok (wrapped tokenData script) := by
  cases tokenData with
  | none => rfl
  | some d =>
      rw [wrapScriptPubKey, serialize_of_valid h]
      rfl

/-- Unwrapping is the inverse of wrapping. -/
theorem unwrap_spec (wspk : Bytes) (tokenData : Option OutputData) (script : Bytes) :
    unwrapScriptPubKey wspk = (tokenData, script) ↔
      wspk = wrapped tokenData script ∧ Separated tokenData script := by
  cases wspk with
  | nil =>
      cases tokenData with
      | none =>
          simp only [unwrapScriptPubKey, Prod.mk.injEq, true_and]
          constructor
          · rintro rfl
            exact ⟨rfl, fun d rest _ heq => by cases heq⟩
          · exact fun h => h.1
      | some d => simp [unwrapScriptPubKey, wrapped]
  | cons first data =>
      by_cases hfirst : first = prefixByte
      · subst hfirst
        cases hread : OutputData.unserialize data with
        | ok r =>
            obtain ⟨d, rest⟩ := r
            obtain ⟨rfl, hd⟩ := (exact_unserialize _ _ _).mp hread
            simp only [unwrapScriptPubKey, if_true, hread, Prod.mk.injEq]
            constructor
            · rintro ⟨rfl, rfl⟩
              exact ⟨rfl, hd⟩
            · rintro ⟨heq, hsep⟩
              cases tokenData with
              | none => exact absurd heq.symm (hsep d rest hd)
              | some d' =>
                  rw [wrapped, List.cons.injEq] at heq
                  obtain ⟨rfl, rfl⟩ := exact_unserialize.unique hd hsep heq.2
                  exact ⟨rfl, rfl⟩
        | error e =>
            have hnot : ∀ (d : OutputData) (rest : Bytes), d.Valid → data ≠ d.form ++ rest := by
              rintro d rest hd rfl
              have hok := (exact_unserialize _ _ rest).mpr ⟨rfl, hd⟩
              rw [hread] at hok
              cases hok
            simp only [unwrapScriptPubKey, if_true, hread, Prod.mk.injEq]
            constructor
            · rintro ⟨rfl, rfl⟩
              refine ⟨rfl, fun d rest hd heq => ?_⟩
              rw [wrapped, List.cons.injEq] at heq
              exact hnot d rest hd heq.2
            · rintro ⟨heq, hsep⟩
              cases tokenData with
              | none => exact ⟨rfl, heq⟩
              | some d =>
                  rw [wrapped, List.cons.injEq] at heq
                  exact absurd heq.2 (hnot d script hsep)
      · simp only [unwrapScriptPubKey, if_neg hfirst, Prod.mk.injEq]
        constructor
        · rintro ⟨rfl, rfl⟩
          refine ⟨rfl, fun d rest hd heq => ?_⟩
          rw [wrapped, List.cons.injEq] at heq
          exact hfirst heq.1
        · rintro ⟨heq, hsep⟩
          cases tokenData with
          | none => exact ⟨rfl, heq⟩
          | some d =>
              rw [wrapped, List.cons.injEq] at heq
              exact absurd heq.1 hfirst

/-- What stands in the place of the script is unwrapped to the only pair that wraps to it. -/
theorem unwrap_iff_wrap (wspk : Bytes) (tokenData : Option OutputData) (script : Bytes) :
    unwrapScriptPubKey wspk = (tokenData, script) ↔
      wrapScriptPubKey tokenData script = .ok wspk ∧ Separated tokenData script := by
  rw [unwrap_spec]
  constructor
  · rintro ⟨rfl, hsep⟩
    exact ⟨wrapScriptPubKey_of_separated hsep, hsep⟩
  · rintro ⟨hwrap, hsep⟩
    rw [wrapScriptPubKey_of_separated hsep, Except.ok.injEq] at hwrap
    exact ⟨hwrap.symm, hsep⟩

end Token
end Wire
end Shulcrum
