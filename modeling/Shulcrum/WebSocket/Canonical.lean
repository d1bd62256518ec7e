import Shulcrum.WebSocket.Frames

/-!
# Canonical frames

The canonical form of a frame has no reserved bit set and gives the length in the
shortest of the three forms.  `parseFrame` does not look at the reserved bits.  It
checks that the length needs its form, except that the long form passes for the
lengths from 127 to 65535.

**Results.**
* `parseFrame_clearReserved`: the reserved bits make no difference.
* `parseFrame_eq_some`: what the parser has seen when it returns a frame.
* `wire_of_parseFrame`: the bytes of a frame that is returned are canonical, apart
  from the reserved bits, unless they give a short length in the long form.
* `parseFrame_canonical`: canonical frames are returned, and these only.
-/

namespace Shulcrum
namespace WebSocket

open BTC Deser

variable {maskEnforcement : MaskEnforcement} {b0 b1 : UInt8} {d rest : Bytes} {pf : PartialFrame}

section Reserved

/-- The bytes without the three reserved bits. -/
def clearReserved : Bytes → Bytes
  | [] => []
  | b0 :: rest => (b0 &&& 0x8F) :: rest

/-- The first byte is looked at in these two ways only. -/
theorem and_clearReserved (b : UInt8) :
    (b &&& 0x8F) &&& 0x80 = b &&& 0x80 ∧ (b &&& 0x8F) &&& 0x0F = b &&& 0x0F := by
  constructor
  · rw [UInt8.and_assoc]
    rfl
  · rw [UInt8.and_assoc]
    rfl

theorem parseLength_cons (b c b1 : UInt8) (rest : Bytes) (header lenByte : Nat) :
    parseLength (b :: b1 :: rest) header lenByte =
      parseLength (c :: b1 :: rest) header lenByte := by
  simp [parseLength]

/-- The forms of the length. -/
theorem parseLength_eq_some {header lenByte header' n : Nat}
    (h : parseLength d header lenByte = .ok (some (header', n))) :
    (lenByte ≠ 126 ∧ lenByte ≠ 127 ∧ header' = header ∧ n = lenByte) ∨
    (lenByte = 126 ∧ header' = header + 2 ∧ header + 2 ≤ d.length ∧
      n = ofBE ((d.drop 2).take 2) ∧ 126 ≤ n) ∨
    (lenByte = 127 ∧ header' = header + 8 ∧ header + 8 ≤ d.length ∧
      n = ofBE ((d.drop 2).take 8) ∧ 127 ≤ n ∧ n ≤ intMax) := by
  simp only [parseLength] at h
  split_ifs at h with h126 hshort hmin h127 hshort hmin hlarge hbig
  · cases h
  · cases h
    exact Or.inr (Or.inl ⟨h126, rfl, by omega, rfl, by omega⟩)
  · cases h
  · cases h
    exact Or.inr (Or.inr ⟨h127, rfl, by omega, rfl, by omega, by omega⟩)
  · cases h
    exact Or.inl ⟨h126, h127, rfl, rfl⟩

/-- The reserved bits make no difference, except that they stand in the bytes of the frame. -/
theorem parseFrame_clearReserved (maskEnforcement : MaskEnforcement) (d : Bytes) :
    parseFrame maskEnforcement d =
      (parseFrame maskEnforcement (clearReserved d)).map
        (Option.map fun pf => { pf with wire := d.take pf.wire.length }) := by
  match d with
  | [] => rfl
  | [_] => rfl
  | b0 :: b1 :: rest =>
      obtain ⟨hfin, hop⟩ := and_clearReserved b0
      rw [clearReserved, parseFrame, parseFrame]
      simp only [hfin, hop, bind, Except.bind]
      cases enforceMask maskEnforcement (b1 &&& 0x80 != 0) with
      | error e => rfl
      | ok u =>
          cases frameTypeOf (b0 &&& 0x0F) with
          | error e => rfl
          | ok type =>
              cases hcontrol : checkControl type (b0 &&& 0x80 != 0) (b1 &&& 0x7F).toNat with
              | error e =>
                  simp only [hcontrol]
                  rfl
              | ok u' =>
                  simp only [hcontrol]
                  rw [parseLength_cons b0 (b0 &&& 0x8F)]
                  cases hlength : parseLength ((b0 &&& 0x8F) :: b1 :: rest)
                      (if (b1 &&& 0x80 != 0) = true then 6 else 2) (b1 &&& 0x7F).toNat with
                  | error e => rfl
                  | ok r =>
                      cases r with
                      | none => rfl
                      | some r =>
                          obtain ⟨header, n⟩ := r
                          -- the payload and the key stand behind the first byte
                          have hheader : (if (b1 &&& 0x80 != 0) = true then 6 else 2) ≤ header := by
                            rcases parseLength_eq_some hlength with h | h | h <;> omega
                          simp only [List.length_cons]
                          by_cases hshort : rest.length + 1 + 1 < header + n
                          · rw [if_pos hshort, if_pos hshort]
                            rfl
                          · rw [if_neg hshort, if_neg hshort]
                            by_cases hmasked : (b1 &&& 0x80 != 0) = true
                            · rw [if_pos hmasked] at hheader
                              obtain ⟨k, rfl⟩ := Nat.exists_eq_add_of_le' hheader
                              have hsum : k + 6 + n = (k + 4 + n) + 1 + 1 := by omega
                              simp [Except.map, pure, Except.pure, hmasked, hsum]
                            · rw [if_neg hmasked] at hheader
                              obtain ⟨k, rfl⟩ := Nat.exists_eq_add_of_le' hheader
                              have hsum : k + 2 + n = (k + n) + 1 + 1 := by omega
                              simp [Except.map, pure, Except.pure, hmasked, hsum]

end Reserved

section Converse

/-- What the parser has seen when it returns a frame. -/
theorem parseFrame_eq_some (h : parseFrame maskEnforcement (b0 :: b1 :: rest) = .ok (some pf)) :
    ∃ header n, enforceMask maskEnforcement (b1 &&& 0x80 != 0) = .ok () ∧
      frameTypeOf (b0 &&& 0x0F) = .ok pf.type ∧
      checkControl pf.type (b0 &&& 0x80 != 0) (b1 &&& 0x7F).toNat = .ok () ∧
      parseLength (b0 :: b1 :: rest) (baseHeader (b1 &&& 0x80 != 0)) (b1 &&& 0x7F).toNat =
        .ok (some (header, n)) ∧
      header + n ≤ (b0 :: b1 :: rest).length ∧
      pf =
        { type := pf.type
          masked := b1 &&& 0x80 != 0
          fin := b0 &&& 0x80 != 0
          wire := (b0 :: b1 :: rest).take (header + n)
          payloadSrc := ((b0 :: b1 :: rest).take (header + n)).drop header
          mask := if b1 &&& 0x80 != 0 then
            some (((b0 :: b1 :: rest).drop (header - 4)).take 4) else none } := by
  rw [parseFrame] at h
  simp only [bind, Except.bind] at h
  cases hmask : enforceMask maskEnforcement (b1 &&& 0x80 != 0) with
  | error e =>
      rw [hmask] at h
      cases h
  | ok u =>
      cases htype : frameTypeOf (b0 &&& 0x0F) with
      | error e =>
          rw [hmask, htype] at h
          cases h
      | ok type =>
          cases hcontrol : checkControl type (b0 &&& 0x80 != 0) (b1 &&& 0x7F).toNat with
          | error e =>
              simp only [hmask, htype, hcontrol] at h
              cases h
          | ok u' =>
              simp only [hmask, htype, hcontrol] at h
              cases hlength : parseLength (b0 :: b1 :: rest)
                  (if (b1 &&& 0x80 != 0) = true then 6 else 2) (b1 &&& 0x7F).toNat with
              | error e =>
                  rw [hlength] at h
                  cases h
              | ok r =>
                  rw [hlength] at h
                  cases r with
                  | none => cases h
                  | some r =>
                      obtain ⟨header, n⟩ := r
                      simp only at h
                      split_ifs at h with hshort hm
                      · cases h
                      · cases h
                        exact ⟨header, n, rfl, rfl, hcontrol, hlength, by omega, by simp [hm]⟩
                      · cases h
                        exact ⟨header, n, rfl, rfl, hcontrol, hlength, by omega, by simp [hm]⟩

/-- A frame gives a length from 127 on that fits into 16 bits in the 8-byte form. -/
def NonMinimal : Bytes → Prop
  | _ :: b1 :: rest =>
      b1 &&& 0x7F = 127 ∧ 127 ≤ ofBE (rest.take 8) ∧ ofBE (rest.take 8) ≤ maxUShort
  | _ => False

/-- The first byte of a frame without the reserved bits. -/
theorem firstByte_eq {type : FrameType} (h : frameTypeOf (b0 &&& 0x0F) = .ok type) :
    (type.opcode ||| if (b0 &&& 0x80 != 0) = true then 0x80 else 0x0) = b0 &&& 0x8F := by
  have hopcode : type.opcode = b0 &&& 0x0F := by
    rw [frameTypeOf] at h
    split_ifs at h with h1 h2 h3 h4 h5 h6 <;> cases h
    · exact h1.symm
    · exact h2.symm
    · exact h3.symm
    · exact h4.symm
    · exact h5.symm
    · exact h6.symm
  have hall : ∀ i : Fin 256, (UInt8.ofNat i.val &&& 0x0F |||
      if (UInt8.ofNat i.val &&& 0x80 != 0) = true then 0x80 else 0x0) =
        UInt8.ofNat i.val &&& 0x8F := by
    decide +kernel
  have hb := hall ⟨b0.toNat, b0.toNat_lt⟩
  rw [hopcode]
  simpa using hb

/-- The second byte of a frame. -/
theorem secondByte_eq {k : Nat} (h : (b1 &&& 0x7F).toNat = k) :
    (UInt8.ofNat k ||| if (b1 &&& 0x80 != 0) = true then 0x80 else 0x0) = b1 := by
  have hall : ∀ i : Fin 256, (UInt8.ofNat (UInt8.ofNat i.val &&& 0x7F).toNat |||
      if (UInt8.ofNat i.val &&& 0x80 != 0) = true then 0x80 else 0x0) = UInt8.ofNat i.val := by
    decide +kernel
  have hb := hall ⟨b1.toNat, b1.toNat_lt⟩
  rw [← h]
  simpa using hb

/-- The length was given in its shortest form, unless it was given in the long form. -/
theorem extended_of_parseLength {header header' n : Nat} (hheader : 2 ≤ header)
    (h : parseLength (b0 :: b1 :: rest) header (b1 &&& 0x7F).toNat = .ok (some (header', n)))
    (hmin : ¬ NonMinimal (b0 :: b1 :: rest)) :
    lenCode n = (b1 &&& 0x7F).toNat ∧ n ≤ intMax ∧ header' = header + (extended n).length ∧
      rest.take (extended n).length = extended n := by
  have hlt : (b1 &&& 0x7F).toNat < 128 := by
    rw [UInt8.toNat_and]
    exact Nat.lt_succ_of_le Nat.and_le_right
  have hints : 127 < intMax ∧ maxUShort < intMax := by decide
  have hushort : maxUShort = 65535 := rfl
  have htake : ∀ k : Nat, k ≤ rest.length → beBytes k (ofBE (rest.take k)) = rest.take k := by
    intro k hk
    have hbytes := beBytes_ofBE (rest.take k)
    rwa [List.length_take, Nat.min_eq_left hk] at hbytes
  rcases parseLength_eq_some h with ⟨h126, h127, rfl, rfl⟩ | ⟨h126, rfl, hlen, hn, hle⟩ |
      ⟨h127, rfl, hlen, hn, hge, hle⟩
  · have hsmall : (b1 &&& 0x7F).toNat ≤ 125 := by omega
    refine ⟨by rw [lenCode, if_pos hsmall], by omega, ?_, ?_⟩
    · rw [extended, if_pos hsmall]
      rfl
    · rw [extended, if_pos hsmall]
      rfl
  · rw [List.drop_succ_cons, List.drop_succ_cons, List.drop_zero] at hn
    simp only [List.length_cons] at hlen
    have hbound : ofBE (rest.take 2) < 256 ^ 2 := by
      have hofLE := ofLE_lt (rest.take 2).reverse
      rwa [List.length_reverse, List.length_take, Nat.min_eq_left (by omega)] at hofLE
    have hext : extended n = rest.take 2 := by
      rw [extended, if_neg (by omega), if_pos (by omega), hn, htake 2 (by omega)]
    have hextlen : (extended n).length = 2 := by
      rw [hext, List.length_take]
      omega
    refine ⟨?_, by omega, by rw [hextlen], by rw [hextlen, hext]⟩
    rw [lenCode, if_neg (by omega), if_pos (by omega), h126]
  · rw [List.drop_succ_cons, List.drop_succ_cons, List.drop_zero] at hn
    simp only [List.length_cons] at hlen
    have hlong : maxUShort < n := by
      by_contra hshort
      refine hmin ⟨?_, by omega, by omega⟩
      rw [← UInt8.toNat_inj]
      exact h127
    have hext : extended n = rest.take 8 := by
      rw [extended, if_neg (by omega), if_neg (by omega), hn, htake 8 (by omega)]
    have hextlen : (extended n).length = 8 := by
      rw [hext, List.length_take]
      omega
    refine ⟨?_, hle, by rw [hextlen], by rw [hextlen, hext]⟩
    rw [lenCode, if_neg (by omega), if_neg (by omega), h127]

/-- The fields of a frame, given the parts of its bytes. -/
theorem parts_of_wire {ext key payload tail : Bytes} {header : Nat}
    (hheader : header = key.length + 2 + ext.length) :
    (b0 :: b1 :: (ext ++ (key ++ (payload ++ tail)))).take (header + payload.length) =
        b0 :: b1 :: (ext ++ (key ++ payload)) ∧
      (b0 :: b1 :: (ext ++ (key ++ payload))).drop header = payload ∧
      (b0 :: b1 :: (ext ++ (key ++ (payload ++ tail)))).drop (header - key.length) =
        key ++ (payload ++ tail) := by
  subst hheader
  have hsum : key.length + 2 + ext.length + payload.length =
      (ext ++ (key ++ payload)).length + 1 + 1 := by
    simp only [List.length_append]
    omega
  have hsum' : key.length + 2 + ext.length = (ext ++ key).length + 1 + 1 := by
    simp only [List.length_append]
    omega
  have hsum'' : key.length + 2 + ext.length - key.length = ext.length + 1 + 1 := by omega
  refine ⟨?_, ?_, ?_⟩
  · rw [hsum, List.take_succ_cons, List.take_succ_cons]
    have hassoc : ext ++ (key ++ (payload ++ tail)) = (ext ++ (key ++ payload)) ++ tail := by
      simp
    rw [hassoc, List.take_left]
  · rw [hsum', List.drop_succ_cons, List.drop_succ_cons, ← List.append_assoc, List.drop_left]
  · rw [hsum'', List.drop_succ_cons, List.drop_succ_cons, List.drop_left]

/-- The mask check and the checks on control frames, as the canonical form demands them. -/
theorem canonical_of_checks {f : SentFrame} (hsize : f.payload.length ≤ intMax)
    (hmask : enforceMask maskEnforcement f.mask.isSome = .ok ())
    (hcontrol : checkControl f.type f.fin (lenCode f.payload.length) = .ok ()) :
    f.Canonical maskEnforcement where
  admits := by
    unfold enforceMask at hmask
    unfold MaskEnforcement.Admits
    cases maskEnforcement with
    | dontCare => trivial
    | requireMasked =>
        rw [Option.isSome_iff_ne_none]
        simpa using hmask
    | requireUnmasked => simpa using hmask
  control := by
    intro hctl
    unfold checkControl at hcontrol
    split_ifs at hcontrol with hfin hlen
    refine ⟨by simpa [hctl] using hfin, ?_⟩
    by_contra hlarge
    refine hlen ⟨hctl, ?_⟩
    unfold lenCode
    split_ifs <;> omega
  payload := hsize

/-- The frame whose payload stands on the wire as the given bytes. -/
def SentFrame.ofSrc (type : FrameType) (fin : Bool) (mask : Option Mask) (src : Bytes) :
    SentFrame where
  type := type
  fin := fin
  mask := mask
  payload := mask.elim src fun m => applyMask m.bytes src

theorem SentFrame.ofSrc_spec (type : FrameType) (fin : Bool) (mask : Option Mask) (src : Bytes) :
    (ofSrc type fin mask src).payloadSrc = src ∧
      (ofSrc type fin mask src).payload.length = src.length ∧
      Ser.body mask (ofSrc type fin mask src).payload = mask.elim [] Mask.bytes ++ src := by
  cases mask with
  | none => exact ⟨rfl, rfl, rfl⟩
  | some m =>
      have htwice := applyMask_applyMask m.bytes src
      refine ⟨htwice, length_applyMask m.bytes src, ?_⟩
      simp only [Ser.body, ofSrc, Option.elim_some, htwice]

/-- The masking key that the mask bit announces. -/
theorem exists_mask {masked : Bool} {key : Bytes} (h : baseHeader masked = key.length + 2) :
    ∃ mask : Option Mask, mask.isSome = masked ∧ mask.elim [] Mask.bytes = key ∧
      mask.map Mask.bytes = if masked then some key else none := by
  unfold baseHeader at h
  cases masked with
  | false =>
      have hnil : key = [] := List.length_eq_zero_iff.mp (by simpa using h)
      exact ⟨none, rfl, hnil.symm, rfl⟩
  | true => exact ⟨some ⟨key, by simpa using h.symm⟩, rfl, rfl, rfl⟩

/--
The bytes of a frame that is returned are canonical, apart from the reserved bits,
unless they give a short length in the long form.
-/
theorem wire_of_parseFrame (h : parseFrame maskEnforcement d = .ok (some pf))
    (hmin : ¬ NonMinimal d) :
    ∃ f : SentFrame, f.Canonical maskEnforcement ∧ clearReserved pf.wire = f.wire ∧
      pf.wire <+: d ∧ pf = { f.view with wire := pf.wire } := by
  match d, h with
  | b0 :: b1 :: rest, h =>
      obtain ⟨header, n, hmask, htype, hcontrol, hlength, hle, hpf⟩ := parseFrame_eq_some h
      have htwo : 2 ≤ baseHeader (b1 &&& 0x80 != 0) := by
        unfold baseHeader
        split_ifs <;> omega
      obtain ⟨hcode, hsize, rfl, hext⟩ := extended_of_parseLength htwo hlength hmin
      -- after the two bytes stand the extended length, the key and the payload
      obtain ⟨key, payload, tail, hrest, hkey, rfl⟩ : ∃ key payload tail,
          rest = extended n ++ (key ++ (payload ++ tail)) ∧
            baseHeader (b1 &&& 0x80 != 0) = key.length + 2 ∧ payload.length = n := by
        generalize hbase : baseHeader (b1 &&& 0x80 != 0) = base at *
        have hsplit : rest = extended n ++ rest.drop (extended n).length := by
          conv_lhs => rw [← List.take_append_drop (extended n).length rest, hext]
        have hlen := congrArg List.length hsplit
        rw [List.length_append] at hlen
        simp only [List.length_cons] at hle
        refine ⟨(rest.drop (extended n).length).take (base - 2),
          ((rest.drop (extended n).length).drop (base - 2)).take n,
          ((rest.drop (extended n).length).drop (base - 2)).drop n, ?_, ?_, ?_⟩
        · rw [List.take_append_drop, List.take_append_drop]
          exact hsplit
        · rw [List.length_take]
          omega
        · rw [List.length_take, List.length_drop]
          omega
      subst hrest
      obtain ⟨htake, hdrop, hkeydrop⟩ := @parts_of_wire b0 b1 (extended payload.length) key
        payload tail (baseHeader (b1 &&& 0x80 != 0) + (extended payload.length).length) (by omega)
      rw [htake, hdrop] at hpf
      have hprefix : b0 :: b1 :: (extended payload.length ++ (key ++ payload)) <+:
          b0 :: b1 :: (extended payload.length ++ (key ++ (payload ++ tail))) :=
        ⟨tail, by simp⟩
      have hfirst := firstByte_eq htype
      have hsecond := secondByte_eq hcode.symm
      obtain ⟨mask, hsome, helim, hmap⟩ := exists_mask hkey
      obtain ⟨hsrc, hlen, hbody⟩ :=
        SentFrame.ofSrc_spec pf.type (b0 &&& 0x80 != 0) mask payload
      have hmaskBytes : (if (b1 &&& 0x80 != 0) = true then
          some (((b0 :: b1 :: (extended payload.length ++ (key ++ (payload ++ tail)))).drop
            (baseHeader (b1 &&& 0x80 != 0) + (extended payload.length).length - 4)).take 4)
          else none) = mask.map Mask.bytes := by
        rw [hmap]
        split_ifs with hm
        · have hfour : key.length = 4 := by
            have hsix : baseHeader true = 6 := rfl
            rw [hm, hsix] at hkey
            omega
          rw [hfour] at hkeydrop
          rw [hkeydrop, ← hfour, List.take_left]
        · rfl
      rw [hmaskBytes] at hpf
      have hwire : (SentFrame.ofSrc pf.type (b0 &&& 0x80 != 0) mask payload).wire =
          (b0 &&& 0x8F) :: b1 :: (extended payload.length ++ (key ++ payload)) := by
        have hfields : (SentFrame.ofSrc pf.type (b0 &&& 0x80 != 0) mask payload).mask = mask := rfl
        rw [SentFrame.wire_eq, hlen, hfields, hbody, hsome, helim, hsecond]
        exact congrArg (· :: _) hfirst
      refine ⟨SentFrame.ofSrc pf.type (b0 &&& 0x80 != 0) mask payload,
        canonical_of_checks (by rwa [hlen]) ?_ ?_, ?_, ?_, ?_⟩
      · rw [← hsome] at hmask
        exact hmask
      · rw [hlen, hcode]
        exact hcontrol
      · rw [hpf, hwire]
        rfl
      · rw [hpf]
        exact hprefix
      · rw [hpf]
        simp only [SentFrame.view, hsrc, PartialFrame.mk.injEq, true_and]
        exact ⟨rfl, hsome.symm, rfl, rfl⟩

end Converse

section Claim

/--
If the bytes without the reserved bits begin with a canonical frame that the policy
allows, this frame is returned.  And if a frame is returned whose length was not
given in the long form although it fits into 16 bits, then its bytes without the
reserved bits are its canonical form, and the policy allows it.
-/
theorem parseFrame_canonical (maskEnforcement : MaskEnforcement) (d : Bytes) :
    (∀ f : SentFrame, f.Canonical maskEnforcement → f.wire <+: clearReserved d →
      parseFrame maskEnforcement d =
        .ok (some { f.view with wire := d.take f.wire.length })) ∧
    ∀ pf, parseFrame maskEnforcement d = .ok (some pf) → ¬ NonMinimal d →
      ∃ f : SentFrame, f.Canonical maskEnforcement ∧ clearReserved pf.wire = f.wire ∧
        pf.wire <+: d ∧ pf = { f.view with wire := pf.wire } := by
  constructor
  · rintro f hf ⟨rest, hrest⟩
    have hprefix : clearReserved d <+: f.wire ++ rest := by rw [hrest]
    have hparse := parseFrame_wire hf hprefix
    have hle : f.wire.length ≤ (clearReserved d).length := by
      rw [← hrest, List.length_append]
      omega
    rw [parseFrame_clearReserved, hparse, if_pos hle]
    rfl
  · intro pf h hmin
    exact wire_of_parseFrame h hmin

/-- A text frame with one byte. -/
def oneByte : SentFrame where
  type := .text
  fin := true
  mask := none
  payload := [65]

theorem canonical_oneByte : oneByte.Canonical .dontCare where
  admits := trivial
  control := nofun
  payload := by decide

/-- The frame is returned although all reserved bits are set. -/
theorem parseFrame_canonical_oneByte :
    parseFrame .dontCare [0xF1, 0x01, 65, 66] =
      .ok (some { oneByte.view with wire := [0xF1, 0x01, 65] }) :=
  (parseFrame_canonical .dontCare [0xF1, 0x01, 65, 66]).1 oneByte canonical_oneByte
    ⟨[66], by decide⟩

/-- The empty text frame with its reserved bits set is returned, but no frame is written so. -/
theorem parseFrame_reserved :
    ∃ pf, parseFrame .dontCare [0xF1, 0x00] = .ok (some pf) ∧
      ∀ f : SentFrame, f.wire ≠ pf.wire := by
  refine ⟨{ type := .text, masked := false, fin := true, wire := [0xF1, 0x00], payloadSrc := []
            mask := none }, by decide, ?_⟩
  intro f hwire
  rw [f.wire_eq, List.cons.injEq] at hwire
  have hfirst : ∀ (type : FrameType) (fin : Bool),
      (type.opcode ||| if fin = true then 0x80 else 0x0) ≠ 0xF1 := by
    intro type fin
    cases type <;> cases fin <;> decide
  exact hfirst f.type f.fin hwire.1

end Claim

end WebSocket
end Shulcrum
