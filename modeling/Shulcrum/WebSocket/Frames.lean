import Shulcrum.WebSocket.Model

/-!
# Frames on the wire

A frame is written as its opcode, the length of its payload in one of three
forms, the masking key and the payload.  `parseFrame` is given an initial part
of a stream of frames: it returns the first frame once all of its bytes are
there, and nothing before.

**Results.**
* `applyMask_applyMask`: masking twice gives the bytes back.
* `parseLength_extended`: the length is read in the form it was written in.
* `parseFrame_recognizes`: `parseFrame` recognizes frames.
-/

namespace Shulcrum
namespace WebSocket

open BTC

/-- A frame as the sender sees it. -/
structure SentFrame where
  type : FrameType
  fin : Bool
  mask : Option Mask
  payload : Bytes

namespace SentFrame

/-- The bytes of the frame on the wire. -/
def wire (f : SentFrame) : Bytes := Ser.writeFragment f.type.opcode f.fin f.mask f.payload

/-- The payload as it stands on the wire. -/
def payloadSrc (f : SentFrame) : Bytes :=
  match f.mask with
  | none => f.payload
  | some m => applyMask m.bytes f.payload

/-- The frame as the parser sees it. -/
def view (f : SentFrame) : Deser.PartialFrame where
  type := f.type
  masked := f.mask.isSome
  fin := f.fin
  wire := f.wire
  payloadSrc := f.payloadSrc
  mask := f.mask.map Mask.bytes

end SentFrame

/-- A frame passes the mask check. -/
def Deser.MaskEnforcement.Admits (maskEnforcement : Deser.MaskEnforcement) (masked : Bool) :
    Prop :=
  match maskEnforcement with
  | .dontCare => True
  | .requireMasked => masked = true
  | .requireUnmasked => masked = false

/-- A frame that keeps to the protocol and to the limits of the receiver. -/
structure SentFrame.Valid (maskEnforcement : Deser.MaskEnforcement) (f : SentFrame) : Prop where
  admits : maskEnforcement.Admits f.mask.isSome
  control : f.type.isControl = true → f.fin = true ∧ f.payload.length ≤ 125
  size : f.wire.length ≤ intMax

/-- A frame that keeps to the protocol and whose payload has a size of type `int`. -/
structure SentFrame.Canonical (maskEnforcement : Deser.MaskEnforcement) (f : SentFrame) :
    Prop where
  admits : maskEnforcement.Admits f.mask.isSome
  control : f.type.isControl = true → f.fin = true ∧ f.payload.length ≤ 125
  payload : f.payload.length ≤ intMax

section Masking

@[simp] theorem length_applyMask (mask buf : Bytes) : (applyMask mask buf).length = buf.length := by
  simp [applyMask]

/-- Masking twice gives the bytes back. -/
theorem applyMask_applyMask (mask buf : Bytes) : applyMask mask (applyMask mask buf) = buf := by
  apply List.ext_getElem?
  intro i
  simp only [applyMask, List.getElem?_mapIdx, Option.map_map]
  cases buf[i]? with
  | none => rfl
  | some b => simp [Function.comp, UInt8.xor_assoc]

@[simp] theorem SentFrame.length_payloadSrc (f : SentFrame) :
    f.payloadSrc.length = f.payload.length := by
  unfold SentFrame.payloadSrc
  cases f.mask <;> simp

/-- The receiver gets the payload that was sent. -/
@[simp] theorem SentFrame.data_view (f : SentFrame) : f.view.data = f.payload := by
  unfold Deser.PartialFrame.data SentFrame.view SentFrame.payloadSrc
  cases f.mask with
  | none => rfl
  | some m => exact applyMask_applyMask m.bytes f.payload

end Masking

section Lengths

/-- The length byte without the mask bit. -/
def lenCode (n : Nat) : Nat := if n ≤ 125 then n else if n ≤ maxUShort then 126 else 127

/-- The extended length. -/
def extended (n : Nat) : Bytes :=
  if n ≤ 125 then [] else if n ≤ maxUShort then beBytes 2 n else beBytes 8 n

theorem lengthBytes_eq (n : Nat) (maskBit : UInt8) :
    Ser.lengthBytes n maskBit = (UInt8.ofNat (lenCode n) ||| maskBit) :: extended n := by
  unfold Ser.lengthBytes lenCode extended
  split_ifs <;> rfl

theorem lenCode_lt (n : Nat) : lenCode n < 128 := by
  unfold lenCode
  split_ifs <;> omega

/-- The length byte is read back. -/
theorem lengthByte_and (k : Nat) (hk : k < 128) (masked : Bool) :
    ((UInt8.ofNat k ||| if masked then 0x80 else 0x0) &&& 0x7F).toNat = k := by
  have hall : ∀ k : Fin 128, ∀ masked : Bool,
      ((UInt8.ofNat k ||| if masked then 0x80 else 0x0) &&& 0x7F).toNat = k := by decide
  exact hall ⟨k, hk⟩ masked

/-- The mask bit is read back. -/
theorem maskBit_and (k : Nat) (hk : k < 128) (masked : Bool) :
    ((UInt8.ofNat k ||| if masked then 0x80 else 0x0) &&& 0x80 != 0) = masked := by
  have hall : ∀ k : Fin 128, ∀ masked : Bool,
      ((UInt8.ofNat k ||| if masked then 0x80 else 0x0) &&& 0x80 != 0) = masked := by decide
  exact hall ⟨k, hk⟩ masked

/-- The FIN bit is read back. -/
theorem finBit_and (type : FrameType) (fin : Bool) :
    ((type.opcode ||| if fin then 0x80 else 0x0) &&& 0x80 != 0) = fin := by
  cases type <;> cases fin <;> decide

/-- The opcode is read back. -/
theorem frameTypeOf_opcode (type : FrameType) (fin : Bool) :
    Deser.frameTypeOf ((type.opcode ||| if fin then 0x80 else 0x0) &&& 0x0F) = .ok type := by
  cases type <;> cases fin <;> rfl

/-- The bytes at a place of an initial part of a list. -/
theorem take_drop_of_prefix {t ext rest : Bytes} {a b : UInt8}
    (ht : a :: b :: t <+: a :: b :: (ext ++ rest)) (hlen : ext.length ≤ t.length) :
    ((a :: b :: t).drop 2).take ext.length = ext := by
  have ht' : t <+: ext ++ rest := by simpa using ht
  obtain ⟨u, rfl⟩ : ext <+: t :=
    List.prefix_of_prefix_length_le (List.prefix_append _ _) ht' hlen
  simp

/-- The length is read in the form it was written in, once it is there. -/
theorem parseLength_extended {n header : Nat} {t rest : Bytes} {a b : UInt8} (hn : n ≤ intMax)
    (hheader : 2 ≤ header) (ht : a :: b :: t <+: a :: b :: (extended n ++ rest)) :
    Deser.parseLength (a :: b :: t) header (lenCode n) =
      .ok (if (a :: b :: t).length < header + (extended n).length ∧ extended n ≠ [] then none
        else some (header + (extended n).length, n)) := by
  have hread := take_drop_of_prefix ht
  unfold Deser.parseLength
  by_cases h1 : n ≤ 125
  · have hcode : lenCode n = n := by simp [lenCode, h1]
    have hext : extended n = [] := by simp [extended, h1]
    rw [if_neg (by omega), if_neg (by omega)]
    simp [hext, hcode]
  · by_cases h2 : n ≤ maxUShort
    · have hcode : lenCode n = 126 := by simp [lenCode, h1, h2]
      have hext : extended n = beBytes 2 n := by simp [extended, h1, h2]
      have hne : beBytes 2 n ≠ [] := by
        rw [← List.length_pos_iff]
        simp
      rw [hext] at hread
      rw [if_pos hcode, hext, length_beBytes]
      by_cases hlen : (a :: b :: t).length < header + 2
      · rw [if_pos hlen, if_pos ⟨hlen, hne⟩]
      · have hbytes := hread (by simp only [List.length_cons, length_beBytes] at hlen ⊢; omega)
        rw [length_beBytes] at hbytes
        have hvalue : ofBE (beBytes 2 n) = n := ofBE_beBytes (by unfold maxUShort at h2; omega)
        rw [if_neg hlen, hbytes, hvalue, if_neg (by omega : ¬n < lenCode n)]
        rw [if_neg (fun h => hlen h.1)]
    · have hcode : lenCode n = 127 := by simp [lenCode, h1, h2]
      have hext : extended n = beBytes 8 n := by simp [extended, h1, h2]
      have hne : beBytes 8 n ≠ [] := by
        rw [← List.length_pos_iff]
        simp
      rw [hext] at hread
      rw [if_neg (by omega), if_pos hcode, hext, length_beBytes]
      by_cases hlen : (a :: b :: t).length < header + 8
      · rw [if_pos hlen, if_pos ⟨hlen, hne⟩]
      · have hbytes := hread (by simp only [List.length_cons, length_beBytes] at hlen ⊢; omega)
        rw [length_beBytes] at hbytes
        have hlarge : intMax < int64Max := by decide
        have hbound : intMax < 256 ^ 8 := by decide
        have hvalue : ofBE (beBytes 8 n) = n := ofBE_beBytes (by omega)
        have hmin : ¬n < lenCode n := by
          unfold maxUShort at h2
          omega
        rw [if_neg hlen, hbytes, hvalue, if_neg hmin, if_neg (by omega : ¬int64Max < n),
          if_neg (by omega : ¬intMax < n)]
        rw [if_neg (fun h => hlen h.1)]

end Lengths

section Parsing

variable {maskEnforcement : Deser.MaskEnforcement}

/-- The size of the header without the extended length. -/
def baseHeader (masked : Bool) : Nat := if masked then 6 else 2

theorem SentFrame.wire_eq (f : SentFrame) :
    f.wire = (f.type.opcode ||| if f.fin then 0x80 else 0x0) ::
      (UInt8.ofNat (lenCode f.payload.length) ||| if f.mask.isSome then 0x80 else 0x0) ::
        (extended f.payload.length ++ Ser.body f.mask f.payload) := by
  rw [SentFrame.wire, Ser.writeFragment, lengthBytes_eq]
  rfl

theorem SentFrame.length_wire (f : SentFrame) :
    f.wire.length =
      baseHeader f.mask.isSome + (extended f.payload.length).length + f.payload.length := by
  rw [f.wire_eq]
  unfold Ser.body baseHeader
  cases f.mask with
  | none =>
      simp only [List.length_cons, List.length_append, Option.isSome_none]
      simp
      omega
  | some m =>
      simp only [List.length_cons, List.length_append, length_applyMask, m.length_eq,
        Option.isSome_some, if_true]
      omega

theorem SentFrame.wire_ne_nil (f : SentFrame) : f.wire ≠ [] := by
  rw [f.wire_eq]
  exact List.cons_ne_nil _ _

/-- The payload stands after the header. -/
theorem SentFrame.drop_header (f : SentFrame) :
    f.wire.drop (baseHeader f.mask.isSome + (extended f.payload.length).length) =
      f.payloadSrc := by
  rw [f.wire_eq]
  unfold Ser.body baseHeader SentFrame.payloadSrc
  cases f.mask with
  | none =>
      rw [show (if Option.isSome (none : Option Mask) then 6 else 2) = 2 from rfl, Nat.add_comm]
      simp
  | some m =>
      have hsix : (if Option.isSome (some m) then 6 else 2) +
          (extended f.payload.length).length =
          (extended f.payload.length ++ m.bytes).length + 2 := by
        simp [m.length_eq]
        omega
      rw [hsix]
      simp only [List.drop_succ_cons]
      rw [← List.append_assoc, List.drop_left]

/-- The masking key stands at the end of the header. -/
theorem SentFrame.mask_header (f : SentFrame) (rest : Bytes) :
    (if f.mask.isSome then
      some (((f.wire ++ rest).drop
        (baseHeader f.mask.isSome + (extended f.payload.length).length - 4)).take 4) else none) =
      f.mask.map Mask.bytes := by
  rw [f.wire_eq]
  unfold Ser.body baseHeader
  cases f.mask with
  | none => rfl
  | some m =>
      have htwo : (if Option.isSome (some m) then 6 else 2) +
          (extended f.payload.length).length - 4 = (extended f.payload.length).length + 2 := by
        simp
        omega
      rw [htwo]
      simp only [Option.isSome_some, if_true, Option.map_some, Option.some.injEq,
        List.cons_append, List.drop_succ_cons, List.append_assoc]
      rw [List.drop_left, ← m.length_eq, List.take_left]

theorem SentFrame.Valid.canonical {f : SentFrame} (hf : f.Valid maskEnforcement) :
    f.Canonical maskEnforcement where
  admits := hf.admits
  control := hf.control
  payload := by
    have hsize := hf.size
    have hlen := f.length_wire
    omega

/-- A canonical frame passes the checks. -/
theorem SentFrame.Canonical.checks {f : SentFrame} (hf : f.Canonical maskEnforcement) :
    Deser.enforceMask maskEnforcement f.mask.isSome = .ok () ∧
      Deser.checkControl f.type f.fin (lenCode f.payload.length) = .ok () := by
  constructor
  · have hadmits := hf.admits
    unfold Deser.MaskEnforcement.Admits at hadmits
    unfold Deser.enforceMask
    cases maskEnforcement <;> simp_all
  · unfold Deser.checkControl
    by_cases hctl : f.type.isControl = true
    · obtain ⟨hfin, hlen⟩ := hf.control hctl
      have hcode : lenCode f.payload.length = f.payload.length := by simp [lenCode, hlen]
      rw [if_neg (by simp [hfin]), if_neg (by rw [hcode]; omega)]
    · rw [if_neg (by simp [hctl]), if_neg (by simp [hctl])]

/-- The first frame is returned once all of its bytes are there. -/
theorem parseFrame_wire {f : SentFrame} (hf : f.Canonical maskEnforcement) {rest t : Bytes}
    (ht : t <+: f.wire ++ rest) :
    Deser.parseFrame maskEnforcement t =
      .ok (if f.wire.length ≤ t.length then some f.view else none) := by
  have hlenWire := f.length_wire
  have htwo : 2 ≤ baseHeader f.mask.isSome := by
    unfold baseHeader
    split_ifs <;> omega
  match t, ht with
  | [], _ =>
      rw [if_neg (by simp only [List.length_nil]; omega)]
      rfl
  | [_], _ =>
      rw [if_neg (by simp only [List.length_cons, List.length_nil]; omega)]
      rfl
  | b0 :: b1 :: t, ht =>
      obtain ⟨u, hu⟩ := ht
      have hu' := hu
      rw [f.wire_eq] at hu'
      simp only [List.cons_append, List.cons.injEq, List.append_assoc] at hu'
      obtain ⟨rfl, rfl, htail⟩ := hu'
      -- the two bytes in front give the type, the FIN bit, the mask bit and the length code
      obtain ⟨hmask, hcontrol⟩ := hf.checks
      have hlength := parseLength_extended hf.payload htwo
        (show _ :: _ :: t <+: _ :: _ :: (extended f.payload.length ++
            (Ser.body f.mask f.payload ++ rest)) from ⟨u, by simp [htail]⟩)
        (a := f.type.opcode ||| if f.fin then 0x80 else 0x0)
        (b := UInt8.ofNat (lenCode f.payload.length) ||| if f.mask.isSome then 0x80 else 0x0)
      unfold Deser.parseFrame
      simp only [maskBit_and _ (lenCode_lt _), lengthByte_and _ (lenCode_lt _), finBit_and,
        frameTypeOf_opcode, hmask, hcontrol, bind, Except.bind]
      rw [show (if f.mask.isSome then 6 else 2) = baseHeader f.mask.isSome from rfl, hlength]
      clear hlength htail
      generalize (f.type.opcode ||| if f.fin then 0x80 else 0x0) ::
        (UInt8.ofNat (lenCode f.payload.length) ||| if f.mask.isSome then 0x80 else 0x0) :: t = d
        at hu ⊢
      by_cases hwhole : f.wire.length ≤ d.length
      · obtain ⟨v, rfl⟩ : f.wire <+: d :=
          List.prefix_of_prefix_length_le (List.prefix_append _ _) ⟨u, hu⟩ hwhole
        rw [if_pos hwhole, if_neg (by omega)]
        simp only [← hlenWire, if_neg (by omega : ¬(f.wire ++ v).length < f.wire.length),
          List.take_left, f.drop_header, f.mask_header]
        rfl
      · rw [if_neg hwhole]
        by_cases hext : d.length < baseHeader f.mask.isSome + (extended f.payload.length).length ∧
            extended f.payload.length ≠ []
        · rw [if_pos hext]
          rfl
        · rw [if_neg hext]
          simp only [← hlenWire, if_pos (by omega : d.length < f.wire.length)]
          rfl

/-- `parseFrame` recognizes frames. -/
theorem parseFrame_recognizes :
    Framing.Recognizes (Deser.parseFrame maskEnforcement) (fun pf => pf.wire.length)
      SentFrame.wire SentFrame.view (SentFrame.Valid maskEnforcement) where
  nil := rfl
  pos := SentFrame.wire_ne_nil
  size_view := fun _ => rfl
  parse_initial := fun _ _ _ hf ht => parseFrame_wire hf.canonical ht

end Parsing

end WebSocket
end Shulcrum
