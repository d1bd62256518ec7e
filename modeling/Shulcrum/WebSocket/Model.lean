import Shulcrum.Header.Codec
import Shulcrum.Lib.Framing

/-!
# WebSocket frames

The framing of messages (`Ser::wrapPayload`) and the parser of a read buffer
(`Deser::parseBuffer`).  A message is cut into fragments, each in a frame of its
own; control frames may stand between the fragments of a message.

A frame of the source points into the read buffer; here it carries the bytes it
points to.  Byte strings are far shorter than `2 ^ 60`, so sums of their sizes
do not wrap around in `std::size_t`.
-/

namespace Shulcrum
namespace WebSocket

open BTC

abbrev Bytes := List UInt8

/-- What the functions of this module throw. -/
inductive Error where
  | badArgs (msg : String)
  | messageTooBig (msg : String)
  | protocolError (msg : String)
  | internalError (msg : String)
  deriving DecidableEq, Repr

inductive FrameType where
  | text
  | binary
  | ctlClose
  | ctlPing
  | ctlPong
  | continuation
  deriving DecidableEq, Repr

/-- The opcode of RFC 6455. -/
def FrameType.opcode : FrameType → UInt8
  | .text => 0x1
  | .binary => 0x2
  | .ctlClose => 0x8
  | .ctlPing => 0x9
  | .ctlPong => 0xA
  | .continuation => 0x0

/-- Control frames have the high bit of the low nibble set. -/
def FrameType.isControl (t : FrameType) : Bool := t.opcode &&& 0x08 != 0

/-- `std::numeric_limits<int>::max()`. -/
def intMax : Nat := 2 ^ 31 - 1

/-- `std::numeric_limits<std::int64_t>::max()`. -/
def int64Max : Nat := 2 ^ 63 - 1

/-- `std::numeric_limits<std::uint16_t>::max()`. -/
def maxUShort : Nat := 2 ^ 16 - 1

/-- The four bytes of a masking key. -/
structure Mask where
  bytes : Bytes
  length_eq : bytes.length = 4

/-- The bytes xor'd with the masking key. -/
def applyMask (mask buf : Bytes) : Bytes := buf.mapIdx fun i b => b ^^^ mask.getD (i % 4) 0

namespace Ser

/-- The length byte, with the mask bit, and the extended length. -/
def lengthBytes (n : Nat) (maskBit : UInt8) : Bytes :=
  if n ≤ 125 then [UInt8.ofNat n ||| maskBit]
  else if n ≤ maxUShort then (126 ||| maskBit) :: beBytes 2 n
  else (127 ||| maskBit) :: beBytes 8 n

/-- The masking key and the payload as they are sent. -/
def body (mask : Option Mask) (payload : Bytes) : Bytes :=
  match mask with
  | none => payload
  | some m => m.bytes ++ applyMask m.bytes payload

/-- One round of the loop of `wrapPayload`. -/
def writeFragment (opcode : UInt8) (fin : Bool) (mask : Option Mask) (payload : Bytes) : Bytes :=
  (opcode ||| if fin then 0x80 else 0x0) ::
    (lengthBytes payload.length (if mask.isSome then 0x80 else 0x0) ++ body mask payload)

/-- The loop of `wrapPayload`: `left` fragments are still to be written, the next
of them is number `i`.  Fragments after the first one are continuation frames. -/
def writeFragments (fragmentSize : Nat) (mask : Nat → Option Mask) :
    (left i : Nat) → (opcode : UInt8) → (src : Bytes) → List Bytes
  | 0, _, _, _ => []
  | left + 1, i, opcode, src =>
      writeFragment opcode (left == 0) (mask i) (src.take fragmentSize) ::
        writeFragments fragmentSize mask left (i + 1) FrameType.continuation.opcode
          (src.drop fragmentSize)

/-- The number of fragments. -/
def nFragments (dsize fragmentSize : Nat) : Nat :=
  max 1 (dsize / fragmentSize + if 1 < fragmentSize ∧ dsize % fragmentSize ≠ 0 then 1 else 0)

/-- The most bytes a fragment adds to its payload. -/
def perFragmentOverhead (isMasked : Bool) (fragmentSize : Nat) : Nat :=
  2 + (if isMasked then 4 else 0) +
    if 125 < fragmentSize then (if fragmentSize ≤ maxUShort then 2 else 8) else 0

/-- The fragments of `wrapPayload`, each as it is sent.  The masking keys are drawn
at random, one for each fragment. -/
def wrapFragments (data : Bytes) (type : FrameType) (isMasked : Bool) (fragmentSize : Nat)
    (masks : Nat → Mask) : Except Error (List Bytes) :=
  let isCtl := type.isControl
  let fragmentSize := if isCtl then 125 else fragmentSize
  if fragmentSize = 0 then .error (.badArgs "fragmentSize may not be 0")
  else if int64Max < fragmentSize then
    .error (.badArgs "fragmentSize cannot exceed a 63-bit size")
  else if isCtl ∧ 125 < data.length then
    .error (.badArgs "control frames may not exceed 125 bytes of payload data")
  else
    let dsize := data.length
    let fragmentSize := max (min dsize fragmentSize) 1
    let count := nFragments dsize fragmentSize
    let retSize := dsize + perFragmentOverhead isMasked fragmentSize * count
    if intMax < retSize then
      .error (.messageTooBig s!"resulting buffer size of {retSize} is too large")
    else
      .ok (writeFragments fragmentSize (fun i => if isMasked then some (masks i) else none)
        count 0 type.opcode data)

/-- `Ser::wrapPayload`: the fragments one after the other. -/
def wrapPayload (data : Bytes) (type : FrameType) (isMasked : Bool) (fragmentSize : Nat)
    (masks : Nat → Mask) : Except Error Bytes :=
  match wrapFragments data type isMasked fragmentSize masks with
  | .error e => .error e
  | .ok fragments => .ok fragments.flatten

end Ser

namespace Deser

structure Frame where
  type : FrameType
  masked : Bool
  payload : Bytes
  deriving DecidableEq, Repr

def Frame.isControl (f : Frame) : Bool := f.type.isControl

inductive MaskEnforcement where
  | dontCare
  | requireMasked
  | requireUnmasked
  deriving DecidableEq, Repr

/-- A frame in the read buffer: all of its bytes, and the bytes of its payload and of
its masking key. -/
structure PartialFrame where
  type : FrameType
  masked : Bool
  fin : Bool
  wire : Bytes
  payloadSrc : Bytes
  mask : Option Bytes
  deriving DecidableEq, Repr

/-- `PartialFrame::loadDataFromSrc`: what is appended to the destination. -/
def PartialFrame.data (pf : PartialFrame) : Bytes :=
  match pf.mask with
  | some m => if pf.masked then applyMask m pf.payloadSrc else pf.payloadSrc
  | none => pf.payloadSrc

def kMessageTooBig1 : String := "invalid payload length (>INT_MAX!)"

def kNonMinimalEncoding : String := "non-minimal length encoding encountered"

/-- A number below 16 as the source prints it: two hexadecimal digits. -/
def hexByte (op : UInt8) : String := "0x0" ++ String.singleton (Nat.digitChar op.toNat)

/-- The mask bit against what is required. -/
def enforceMask (maskEnforcement : MaskEnforcement) (isMasked : Bool) : Except Error Unit :=
  if maskEnforcement = .requireMasked ∧ ¬isMasked then
    .error (.protocolError "encountered an unmasked frame, however masked frames are required")
  else if maskEnforcement = .requireUnmasked ∧ isMasked then
    .error (.protocolError "encountered a masked frame, however unmasked frames are required")
  else .ok ()

/-- The cases of the `switch` on the opcode. -/
def frameTypeOf (opByte : UInt8) : Except Error FrameType :=
  if opByte = 0x9 then .ok .ctlPing
  else if opByte = 0xA then .ok .ctlPong
  else if opByte = 0x8 then .ok .ctlClose
  else if opByte = 0x1 then .ok .text
  else if opByte = 0x2 then .ok .binary
  else if opByte = 0x0 then .ok .continuation
  else .error (.protocolError s!"unknown frame opcode: {hexByte opByte}")

/-- What only a control frame must satisfy. -/
def checkControl (type : FrameType) (isFin : Bool) (lenByte : Nat) : Except Error Unit :=
  if type.isControl ∧ ¬isFin then .error (.protocolError "fragmented control frame")
  else if type.isControl ∧ 125 < lenByte then
    .error (.protocolError "control frame has illegal size")
  else .ok ()

/-- The size of the header and of the payload; nothing if the extended length is not
there yet.  `header` is the size of the header without the extended length. -/
def parseLength (d : Bytes) (header lenByte : Nat) : Except Error (Option (Nat × Nat)) :=
  if lenByte = 126 then
    if d.length < header + 2 then .ok none
    else
      let parsedLen := ofBE ((d.drop 2).take 2)
      if parsedLen < lenByte then .error (.protocolError kNonMinimalEncoding)
      else .ok (some (header + 2, parsedLen))
  else if lenByte = 127 then
    if d.length < header + 8 then .ok none
    else
      let parsedLen := ofBE ((d.drop 2).take 8)
      if parsedLen < lenByte then .error (.protocolError kNonMinimalEncoding)
      else if int64Max < parsedLen then
        .error (.protocolError
          "invalid payload length (length cannot exceeded a 63-bit integer)")
      else if intMax < parsedLen then .error (.messageTooBig kMessageTooBig1)
      else .ok (some (header + 8, parsedLen))
  else .ok (some (header, lenByte))

/-- `parseFrame`: the first frame of the bytes, if it is there as a whole. -/
def parseFrame (maskEnforcement : MaskEnforcement) :
    Bytes → Except Error (Option PartialFrame)
  | b0 :: b1 :: rest => do
      let d := b0 :: b1 :: rest
      let isFin := b0 &&& 0x80 != 0
      let opByte := b0 &&& 0x0F
      let isMasked := b1 &&& 0x80 != 0
      let lenByte := (b1 &&& 0x7F).toNat
      enforceMask maskEnforcement isMasked
      let type ← frameTypeOf opByte
      checkControl type isFin lenByte
      match ← parseLength d (if isMasked then 6 else 2) lenByte with
      | none => return none
      | some (header, parsedLen) =>
          let total := header + parsedLen
          if d.length < total then return none
          else
            return some
              { type := type
                masked := isMasked
                fin := isFin
                wire := d.take total
                payloadSrc := (d.take total).drop header
                mask := if isMasked then some ((d.drop (header - 4)).take 4) else none }
  | _ => .ok none

/-- The inner loop over the data frames: the frames up to the one with the FIN bit, and
the frames after it; nothing if there is none.  The frame at which the loop starts is
the only one that may not be a continuation frame. -/
def searchFin : (start : Bool) → List PartialFrame →
    Except Error (Option (List PartialFrame × List PartialFrame))
  | _, [] => .ok none
  | start, pf :: rest =>
      if start ∧ pf.type = .continuation then
        .error (.protocolError "encountered a fragment start frame with opcode set to 0")
      else if ¬start ∧ pf.type ≠ .continuation then
        .error (.protocolError
          s!"encountered a continue frame with non-zero opcode: {hexByte pf.type.opcode}")
      else if pf.fin then .ok (some ([pf], rest))
      else
        match searchFin false rest with
        | .error e => .error e
        | .ok none => .ok none
        | .ok (some (maybes, rest)) => .ok (some (pf :: maybes, rest))

/-- The outer loop over the data frames: the accepted frames and those that are kept.
It goes round at most once for each frame. -/
def acceptDataFrames : Nat → List PartialFrame →
    Except Error (List PartialFrame × List PartialFrame)
  | 0, frames => .ok ([], frames)
  | _ + 1, [] => .ok ([], [])
  | n + 1, pf :: rest =>
      if pf.fin then
        if pf.type = .continuation then
          .error (.protocolError ("encountered a 'continue' frame with the FIN bit set, " ++
            "but without a corresponding start frame"))
        else
          match acceptDataFrames n rest with
          | .error e => .error e
          | .ok (accepted, kept) => .ok (pf :: accepted, kept)
      else
        match searchFin true (pf :: rest) with
        | .error e => .error e
        | .ok none => .ok ([], pf :: rest)
        | .ok (some (maybes, rest)) =>
            match acceptDataFrames n rest with
            | .error e => .error e
            | .ok (accepted, kept) => .ok (maybes ++ accepted, kept)

/-- The frame that the data of an accepted frame is appended to. -/
def destination (tmpFrame : Option Frame) (pf : PartialFrame) : Except Error Frame :=
  if pf.type = .text ∨ pf.type = .binary then
    .ok { type := pf.type, masked := pf.masked, payload := [] }
  else
    match pf.type, tmpFrame with
    | .continuation, some f => .ok f
    | type, f =>
        let valid := if f.isSome then "valid" else "invalid"
        .error (.protocolError ("parseBuffer: Unexpected state in processing frame -- " ++
          s!"type={type.opcode.toNat} tmpFrame={valid}"))

/-- The accepted data frames with fragments collapsed down into one frame. -/
def collapse : Option Frame → List PartialFrame → Except Error (List Frame)
  | none, [] => .ok []
  | some _, [] =>
      .error (.internalError
        "parseBuffer: Unexpected state -- tmpFrame was not pushed back .. FIXME!")
  | tmpFrame, pf :: rest =>
      match destination tmpFrame pf with
      | .error e => .error e
      | .ok f =>
          if intMax < f.payload.length + pf.payloadSrc.length then
            .error (.messageTooBig kMessageTooBig1)
          else
            let f := { f with payload := f.payload ++ pf.data }
            if pf.fin then
              match collapse none rest with
              | .error e => .error e
              | .ok frames => .ok (f :: frames)
            else collapse (some f) rest

/-- Conversion to `int`. -/
def toInt32 (n : Int) : Int := n.bmod (2 ^ 32)

/-- `keepAtEndLen`, computed in `int`. -/
def keepAtEndLen (len pos : Nat) : Int := toInt32 (toInt32 len - toInt32 pos)

/-- A control frame as it is returned. -/
def PartialFrame.toFrame (pf : PartialFrame) : Frame :=
  { type := pf.type, masked := pf.masked, payload := pf.data }

/-- `Deser::parseBuffer`: the frames it returns and the buffer it leaves. -/
def parseBuffer (maskEnforcement : MaskEnforcement) (buf : Bytes) :
    Except Error (List Frame × Bytes) := do
  let (allFrames, pos) ←
    Framing.greedy (parseFrame maskEnforcement) (fun pf => pf.wire.length) buf.length buf
  let ctlFrames := allFrames.filter fun pf => pf.type.isControl
  let allDataFrames := allFrames.filter fun pf => !pf.type.isControl
  let (accepted, kept) ← acceptDataFrames allDataFrames.length allDataFrames
  let messages ← collapse none accepted
  let keepLen := keepAtEndLen buf.length pos
  if keepLen < 0 then .error (.internalError "keepAtEndLen < 0! FIXME!")
  else
    return (ctlFrames.map PartialFrame.toFrame ++ messages,
      kept.flatMap (fun pf => pf.wire) ++ (buf.drop pos).take keepLen.toNat)

/-- `Wrapper::on_readyRead` for one chunk after the other: the chunk is appended to the
buffer, which is then parsed. -/
def parseChunks (maskEnforcement : MaskEnforcement) :
    Bytes → List Bytes → Except Error (List Frame × Bytes)
  | buf, [] => .ok ([], buf)
  | buf, chunk :: chunks => do
      let (frames, buf) ← parseBuffer maskEnforcement (buf ++ chunk)
      let (more, buf) ← parseChunks maskEnforcement buf chunks
      return (frames ++ more, buf)

end Deser

end WebSocket
end Shulcrum
