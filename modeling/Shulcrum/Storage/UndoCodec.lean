import Shulcrum.Header.PoW
import Shulcrum.Lib.Cursor
import Shulcrum.Storage.Index
import Shulcrum.VarInt

/-!
# The byte format of undo records

`Serialize<UndoInfo>` writes version 3 of the format: a header with the counts
and the total length, the fixed part, and three lists.  `Deserialize<UndoInfo>`
also reads the two older versions.  The (de)serializer of token data is a
parameter, and so is the memory: whether a container can reserve room for a
number of elements.

**Results.**
* `safe_readUndoInfo`: no byte outside the buffer is looked at.
* `deserialize_or_rejected_iff`: a buffer is read as a record or rejected, unless
  its header passes the checks and asks for more script hashes than fit into
  memory.
-/

namespace Shulcrum
namespace Storage
namespace UndoCodec

open BTC Cursor

section Items

/-- The hash with the given bytes. -/
def hashOfBytes (b : List UInt8) : Hash := BitVec.ofNat 256 (ofBE b)

/-- The bytes of an output index: two, or three if it is large or `wide` is set. -/
def outNSize (wide : Bool) (n : Nat) : Nat := if wide ∨ n > 65535 then 3 else 2

/-- `TXO::toBytes`. -/
def txoToBytes (wide : Bool) (txo : TXO) : List UInt8 :=
  hashBytes txo.txHash ++ leBytes (outNSize wide txo.outN) txo.outN

/-- `Deserialize<TXO>`; a wrong size gives an invalid object. -/
def txoFromBytes (b : List UInt8) : Option TXO :=
  if b.length = 34 ∨ b.length = 35 then some ⟨hashOfBytes (b.take 32), ofLE (b.drop 32)⟩ else none

/-- The default value of `CompactTXO`, which is not valid. -/
def invalidCompactTXO : CompactTXO := ⟨0xffffffffffff, 0xffffff⟩

/-- `CompactTXO::toBytes` in little endian order. -/
def compactToBytes (wide : Bool) (ctxo : CompactTXO) : List UInt8 :=
  leBytes 6 ctxo.txNum ++ leBytes (outNSize wide ctxo.n) ctxo.n

/-- `Deserialize<CompactTXO>`. -/
def compactFromBytes (b : List UInt8) : Option CompactTXO :=
  if b.length = 8 ∨ b.length = 9 then
    let ctxo : CompactTXO := ⟨ofLE (b.take 6), ofLE (b.drop 6)⟩
    if ctxo = invalidCompactTXO then none else some ctxo
  else none

/-- `TXOInfo::kNoBlockHeight`. -/
def noBlockHeight : Nat := 0xffffffff

/-- `token::PREFIX_BYTE`. -/
def tokenPrefixByte : UInt8 := 0xef

/-- `BTC::SerializeTokenDataWithPrefix`; the token data is given by its bytes. -/
def tokenToBytes : Option TokenData → List UInt8
  | none => []
  | some t => tokenPrefixByte :: t

/-- `TXOInfo::toBytes`. -/
def infoToBytes (info : TXOInfo) : List UInt8 :=
  leBytes 8 info.amount ++ leBytes 4 (info.confirmedHeight.getD noBlockHeight) ++
    leBytes 6 info.txNum ++ hashBytes info.hashX ++ tokenToBytes info.tokenDataPtr

variable (deserToken : List UInt8 → Option TokenData)

/-- `BTC::DeserializeTokenDataWithPrefix`; `none` if it throws. -/
def tokenFromBytes : List UInt8 → Option (Option TokenData)
  | [] => some none
  | p :: rest => if p = tokenPrefixByte then (deserToken rest).map some else none

/-- `TXOInfo::minSerSize`. -/
def infoMinSize : Nat := 50

/-- `Deserialize<TXOInfo>`; the amount is a signed integer. -/
def infoFromBytes (b : List UInt8) : Option TXOInfo :=
  if b.length < infoMinSize then none
  else
    let amount := ofLE (b.take 8)
    let cheight := ofLE ((b.drop 8).take 4)
    match tokenFromBytes deserToken (b.drop 50) with
    | none => none
    | some tokenDataPtr =>
        if amount < 2 ^ 63 then
          some
            { amount := amount
              hashX := hashOfBytes ((b.drop 18).take 32)
              confirmedHeight := if cheight = noBlockHeight then none else some cheight
              txNum := ofLE ((b.drop 12).take 6)
              tokenDataPtr := tokenDataPtr }
        else none

end Items

section Header

/-- `UndoInfoSerHeader`. -/
structure SerHeader where
  magic : Nat := 0xf12c
  ver : Nat := 3
  len : Nat := 0
  nScriptHashes : Nat
  nAddUndos : Nat
  nDelUndos : Nat

namespace SerHeader

/-- `computeTotalSize_V1` and `computeTotalSize_V2`, with the sizes of a `TXO` and a
`CompactTXO`. -/
def computeTotalSize (txoSize compactSize : Nat) (h : SerHeader) : Nat :=
  -- the product with the `int` constant is a 32-bit integer
  let shSize := h.nScriptHashes * 32 % 2 ^ 32
  20 + 4 + 32 + 16 + shSize + h.nAddUndos * (txoSize + 32 + compactSize) +
    h.nDelUndos * (txoSize + infoMinSize)

def computeTotalSizeV1 : SerHeader → Nat := computeTotalSize 34 8

def computeTotalSizeV2 : SerHeader → Nat := computeTotalSize 35 9

/-- `computeMinimumSize_V3`. -/
def computeMinimumSizeV3 : SerHeader → Nat := computeTotalSizeV2

/-- `UndoInfoSerHeader::toBytes`. -/
def toBytes (h : SerHeader) : List UInt8 :=
  leBytes 2 h.magic ++ leBytes 2 h.ver ++ leBytes 4 h.len ++ leBytes 4 h.nScriptHashes ++
    leBytes 4 h.nAddUndos ++ leBytes 4 h.nDelUndos

/-- The checks of `Deserialize<UndoInfo>` on the header. -/
def Sane (h : SerHeader) (size : Nat) : Prop :=
  -- `int(hdr.len) == ba.size()`
  (h.len < 2 ^ 31 ∧ h.len = size) ∧ h.magic = 0xf12c ∧
    (h.ver = 3 ∧ h.computeMinimumSizeV3 ≤ h.len ∨ h.ver = 2 ∧ h.len = h.computeTotalSizeV2 ∨
      h.ver = 1 ∧ h.len = h.computeTotalSizeV1)

instance (h : SerHeader) (size : Nat) : Decidable (h.Sane size) :=
  inferInstanceAs (Decidable (_ ∧ _ ∧ _))

end SerHeader
end Header

section Serialize

/-- An entry of `addUndos`. -/
def addUndoToBytes (a : TXO × HashX × CompactTXO) : List UInt8 :=
  txoToBytes true a.1 ++ hashBytes a.2.1 ++ compactToBytes true a.2.2

/-- An entry of `delUndos`, with the size of its second part. -/
def delUndoToBytes (d : TXO × TXOInfo) : List UInt8 :=
  txoToBytes true d.1 ++ VarInt.encode false ((infoToBytes d.2).length % 2 ^ 32) ++
    infoToBytes d.2

/-- `BlkInfo::toBytes`, padded to 16 bytes. -/
def blkInfoToBytes (b : BlkInfo) : List UInt8 :=
  leBytes 8 b.txNum0 ++ leBytes 4 b.nTx ++ [0, 0, 0, 0]

/-- What follows the header. -/
def bodyToBytes (u : UndoInfo) : List UInt8 :=
  leBytes 4 u.height ++ (hashBytes u.hash ++ (blkInfoToBytes u.blkInfo ++
    (u.scriptHashes.flatMap hashBytes ++
      (u.addUndos.flatMap addUndoToBytes ++ u.delUndos.flatMap delUndoToBytes))))

/-- `Serialize<UndoInfo>`. -/
def serialize (u : UndoInfo) : List UInt8 :=
  let hdr : SerHeader :=
    { nScriptHashes := u.scriptHashes.length % 2 ^ 32
      nAddUndos := u.addUndos.length % 2 ^ 32
      nDelUndos := u.delUndos.length % 2 ^ 32 }
  let hdr := { hdr with len := hdr.computeMinimumSizeV3 % 2 ^ 32 }
  let bytes := hdr.toBytes ++ bodyToBytes u
  if bytes.length < hdr.len then []
  -- the length is written over the one in the header
  else bytes.take 4 ++ leBytes 4 bytes.length ++ bytes.drop 8

end Serialize

section Deserialize

variable (deserToken : List UInt8 → Option TokenData) (canReserve : Nat → Bool) (b : List UInt8)

/-- The value of an object that was read, if it is valid. -/
def valid {α : Type} (o : Option α) (msg : String) : Reader α := fun cur =>
  match o with
  | none => .error (.rejected msg)
  | some a => .ok (a, cur)

/-- A little-endian integer. -/
def readUInt (k : Nat) : Reader Nat := do
  let x ← view b k
  return ofLE x

/-- `UndoInfoSerHeader::fromBytes`. -/
def readHeader : Reader SerHeader := do
  let magic ← readUInt b 2
  let ver ← readUInt b 2
  let len ← readUInt b 4
  let nScriptHashes ← readUInt b 4
  let nAddUndos ← readUInt b 4
  let nDelUndos ← readUInt b 4
  return ⟨magic, ver, len, nScriptHashes, nAddUndos, nDelUndos⟩

/-- `Deserialize<BlkInfo>`. -/
def readBlkInfo : Reader BlkInfo := do
  let x ← view b 16
  return ⟨ofLE (x.take 8), ofLE ((x.drop 8).take 4)⟩

/-- One round of the loop over the script hashes. -/
def readScriptHash : Reader HashX := do
  check (fun cur => cur + 32 ≤ b.length) ""
  let x ← view b 32
  return hashOfBytes x

/-- A `TXO` after its bounds check. -/
def readTXO (txoSize : Nat) : Reader TXO := do
  check (fun cur => cur + txoSize ≤ b.length) ""
  let x ← view b txoSize
  valid (txoFromBytes x) ""

/-- One round of the loop over `addUndos`. -/
def readAddUndo (txoSize compactSize : Nat) : Reader (TXO × HashX × CompactTXO) := do
  let txo ← readTXO b txoSize
  let hashX ← readScriptHash b
  check (fun cur => cur + compactSize ≤ b.length) ""
  let x ← view b compactSize
  let ctxo ← valid (compactFromBytes x) ""
  return (txo, hashX, ctxo)

/-- The size of a `TXOInfo` from version 3 on: a `VarInt` that must fit into 32 bits. -/
def readInfoSize : Reader Nat := fun cur =>
  match VarInt.deserialize false (b.drop cur) with
  | .error e => .error (.rejected e)
  | .ok (v, rest) =>
      let payloadLen := b.length - cur - rest.length - 1
      if payloadLen > 4 then
        .error (.rejected "Overflow in converting VarInt to destination value")
      else .ok (v, b.length - rest.length)

/-- The size of a `TXOInfo`, which is fixed in the older versions. -/
def readSize (ver : Nat) : Reader Nat :=
  if ver = 1 ∨ ver = 2 then ret infoMinSize else readInfoSize b

/-- One round of the loop over `delUndos`. -/
def readDelUndo (ver txoSize : Nat) : Reader (TXO × TXOInfo) := do
  let txo ← readTXO b txoSize
  check (fun cur => cur + infoMinSize ≤ b.length) ""
  let size ← readSize b ver
  -- a size that is negative as an `int` is too small
  check (fun cur => size < 2 ^ 31 ∧ infoMinSize ≤ size ∧ cur + size ≤ b.length)
    "deser of VarInt size for a TXOInfo returned an error"
  let x ← view b size
  let info ← valid (infoFromBytes deserToken x) "deser fail on TXOInfo object"
  return (txo, info)

/-- The set of the script hashes read, each once. -/
def insertAll (l : List HashX) : List HashX :=
  l.foldl (fun set sh => if sh ∈ set then set else set ++ [sh]) []

/-- `Deserialize<UndoInfo>` after the check of the size: the version and the record. -/
def readUndoInfo : Reader (Nat × UndoInfo) := do
  let hdr ← readHeader b
  check (fun _ => hdr.Sane b.length) "Header sanity check fail"
  let txoSize := if hdr.ver = 1 then 34 else 35
  let compactSize := if hdr.ver = 1 then 8 else 9
  let height ← readUInt b 4
  check (fun cur => cur - 4 < b.length) ""
  let hash ← view b 32
  check (fun cur => cur - 32 < b.length) ""
  let blkInfo ← readBlkInfo b
  check (fun cur => cur - 16 ≤ b.length) ""
  reserve (canReserve hdr.nScriptHashes)
  let scriptHashes ← many (readScriptHash b) hdr.nScriptHashes
  reserve (canReserve hdr.nAddUndos)
  let addUndos ← many (readAddUndo b txoSize compactSize) hdr.nAddUndos
  reserve (canReserve hdr.nDelUndos)
  let delUndos ← many (readDelUndo deserToken b hdr.ver txoSize) hdr.nDelUndos
  check (fun cur => cur = b.length) "cur != end"
  return (hdr.ver,
    { height := height, hash := hashOfBytes hash, blkInfo := blkInfo
      scriptHashes := insertAll scriptHashes, addUndos := addUndos, delUndos := delUndos })

/-- `Deserialize<UndoInfo>`; a rejected buffer gives a cleared object. -/
def deserialize : Except Cursor.Failure (Nat × UndoInfo) :=
  if b.length > 20 then (readUndoInfo deserToken canReserve b 0).map Prod.fst
  else .error (.rejected "Short byte count")

end Deserialize

section Safety

variable {deserToken : List UInt8 → Option TokenData} {canReserve : Nat → Bool} {b : List UInt8}

theorem safe_valid {α : Type} {o : Option α} {msg : String} {pre : Nat → Prop} :
    Safe pre (valid o msg) pre := by
  intro cur hcur
  cases o with
  | none =>
      refine ⟨by simp [valid], ?_⟩
      intro a next h
      cases h
  | some a =>
      refine ⟨by simp [valid], ?_⟩
      intro a' next h
      cases h
      exact hcur

theorem safe_readUInt {c k : Nat} (h : c + k ≤ b.length) :
    Safe (fun cur => cur = c) (readUInt b k) (fun cur => cur = c + k) :=
  (Safe.view_at h).bind fun _ => Safe.ret

theorem safe_readScriptHash {pre : Nat → Prop} :
    Safe pre (readScriptHash b) (fun cur => cur ≤ b.length) := by
  refine Safe.check.bind fun _ => ?_
  refine (Safe.view.weaken (fun _ h => h.2) fun _ h => h).bind fun _ => ?_
  exact Safe.ret

theorem safe_readTXO {txoSize : Nat} {pre : Nat → Prop} :
    Safe pre (readTXO b txoSize) (fun cur => cur ≤ b.length) := by
  refine Safe.check.bind fun _ => ?_
  refine (Safe.view.weaken (fun _ h => h.2) fun _ h => h).bind fun _ => ?_
  exact safe_valid

theorem safe_readAddUndo {txoSize compactSize : Nat} {pre : Nat → Prop} :
    Safe pre (readAddUndo b txoSize compactSize) (fun cur => cur ≤ b.length) := by
  refine safe_readTXO.bind fun _ => ?_
  refine safe_readScriptHash.bind fun _ => ?_
  refine Safe.check.bind fun _ => ?_
  refine (Safe.view.weaken (fun _ h => h.2) fun _ h => h).bind fun _ => ?_
  exact safe_valid.bind fun _ => Safe.ret

theorem safe_readInfoSize {pre : Nat → Prop} :
    Safe pre (readInfoSize b) (fun cur => cur ≤ b.length) := by
  intro cur _
  unfold readInfoSize
  cases VarInt.deserialize false (b.drop cur) with
  | error e =>
      refine ⟨by simp, ?_⟩
      intro a next h
      cases h
  | ok r =>
      simp only
      split_ifs
      · refine ⟨by simp, ?_⟩
        intro a next h
        cases h
      · refine ⟨by simp, ?_⟩
        intro a next h
        cases h
        omega

theorem safe_readSize {ver : Nat} :
    Safe (fun cur => cur ≤ b.length) (readSize b ver) (fun cur => cur ≤ b.length) := by
  unfold readSize
  split_ifs
  · exact Safe.ret
  · exact safe_readInfoSize

theorem safe_readDelUndo {ver txoSize : Nat} {pre : Nat → Prop} :
    Safe pre (readDelUndo deserToken b ver txoSize) (fun cur => cur ≤ b.length) := by
  refine safe_readTXO.bind fun _ => ?_
  refine Safe.check.bind fun _ => ?_
  refine (safe_readSize.weaken (fun _ h => h.1) fun _ h => h).bind fun size => ?_
  refine Safe.check.bind fun _ => ?_
  refine (Safe.view.weaken (fun _ h => h.2.2.2) fun _ h => h).bind fun _ => ?_
  exact safe_valid.bind fun _ => Safe.ret

/-- The checks of the header leave room for the fixed part. -/
theorem SerHeader.Sane.size_le {h : SerHeader} {size : Nat} (hs : h.Sane size) : 72 ≤ size := by
  obtain ⟨⟨-, hlen⟩, -, hver⟩ := hs
  have hmin : ∀ x y, 72 ≤ h.computeTotalSize x y := by
    intro x y
    simp only [SerHeader.computeTotalSize]
    omega
  have h1 : 72 ≤ h.computeTotalSizeV1 := hmin _ _
  have h2 : 72 ≤ h.computeTotalSizeV2 := hmin _ _
  have h3 : h.computeMinimumSizeV3 = h.computeTotalSizeV2 := rfl
  rcases hver with ⟨-, hv⟩ | ⟨-, hv⟩ | ⟨-, hv⟩ <;> omega

/-- The largest number of script hashes that a record of two gibibytes can have. -/
def maxElements : Nat := 67108864

/-- The checks of the header bound the counts whose products do not wrap. -/
theorem SerHeader.Sane.counts_le {h : SerHeader} {size : Nat} (hs : h.Sane size) :
    h.nAddUndos ≤ maxElements ∧ h.nDelUndos ≤ maxElements := by
  obtain ⟨⟨hlt, -⟩, -, hver⟩ := hs
  have hmin : ∀ x y, 34 ≤ x → h.nAddUndos * 32 ≤ h.computeTotalSize x y ∧
      h.nDelUndos * 32 ≤ h.computeTotalSize x y := by
    intro x y hx
    have hadd : h.nAddUndos * 32 ≤ h.nAddUndos * (x + 32 + y) :=
      Nat.mul_le_mul_left _ (by omega)
    have hdel : h.nDelUndos * 32 ≤ h.nDelUndos * (x + infoMinSize) :=
      Nat.mul_le_mul_left _ (by omega)
    simp only [SerHeader.computeTotalSize]
    omega
  have h1 : h.nAddUndos * 32 ≤ h.computeTotalSizeV1 ∧ h.nDelUndos * 32 ≤ h.computeTotalSizeV1 :=
    hmin 34 8 (by decide)
  have h2 : h.nAddUndos * 32 ≤ h.computeTotalSizeV2 ∧ h.nDelUndos * 32 ≤ h.computeTotalSizeV2 :=
    hmin 35 9 (by decide)
  have h3 : h.computeMinimumSizeV3 = h.computeTotalSizeV2 := rfl
  unfold maxElements
  rcases hver with ⟨-, hv⟩ | ⟨-, hv⟩ | ⟨-, hv⟩ <;> omega

/-- The header at the front of a buffer. -/
def headerAt (b : List UInt8) : SerHeader :=
  { magic := ofLE (b.take 2)
    ver := ofLE ((b.drop 2).take 2)
    len := ofLE ((b.drop 4).take 4)
    nScriptHashes := ofLE ((b.drop 8).take 4)
    nAddUndos := ofLE ((b.drop 12).take 4)
    nDelUndos := ofLE ((b.drop 16).take 4) }

theorem readUInt_eq {k cur : Nat} (h : cur + k ≤ b.length) :
    readUInt b k cur = .ok (ofLE ((b.drop cur).take k), cur + k) := by
  have hdef : readUInt b k cur = Cursor.bind (view b k) (fun x => ret (ofLE x)) cur := rfl
  rw [hdef, Cursor.bind, Cursor.view, if_pos h]
  rfl

theorem readHeader_eq (h : 20 < b.length) : readHeader b 0 = .ok (headerAt b, 20) := by
  unfold readHeader
  rw [bind_of_ok (readUInt_eq (by omega)), bind_of_ok (readUInt_eq (by omega)),
    bind_of_ok (readUInt_eq (by omega)), bind_of_ok (readUInt_eq (by omega)),
    bind_of_ok (readUInt_eq (by omega)), bind_of_ok (readUInt_eq (by omega))]
  rfl

/-- The memory for the script hashes that the header of a buffer asks for is there. -/
def HasRoom (canReserve : Nat → Bool) (b : List UInt8) : Prop :=
  (headerAt b).Sane b.length → canReserve (headerAt b).nScriptHashes = true

/-- The part of the reader after the header, up to the first request for memory. -/
theorem readUndoInfo_of_full (hsane : (headerAt b).Sane b.length)
    (hfull : canReserve (headerAt b).nScriptHashes = false) :
    readUndoInfo deserToken canReserve b 0 = .error .badAlloc := by
  have hsize := hsane.size_le
  have hhash : view b 32 24 = .ok ((b.drop 24).take 32, 56) := by
    rw [Cursor.view, if_pos (by omega)]
  have hblk : readBlkInfo b 56 = .ok (⟨ofLE (((b.drop 56).take 16).take 8),
      ofLE ((((b.drop 56).take 16).drop 8).take 4)⟩, 72) := by
    have hview : view b 16 56 = .ok ((b.drop 56).take 16, 72) := by
      rw [Cursor.view, if_pos (by omega)]
    unfold readBlkInfo
    rw [bind_of_ok hview]
    rfl
  have hfail : reserve (canReserve (headerAt b).nScriptHashes) 72 = .error .badAlloc := by
    rw [Cursor.reserve, hfull]
    rfl
  unfold readUndoInfo
  rw [bind_of_ok (readHeader_eq (by omega)),
    check_bind_of (c := fun _ => (headerAt b).Sane b.length) hsane,
    bind_of_ok (readUInt_eq (by omega)),
    check_bind_of (c := fun cur => cur - 4 < b.length) (by omega), bind_of_ok hhash,
    check_bind_of (c := fun cur => cur - 32 < b.length) (by omega), bind_of_ok hblk,
    check_bind_of (c := fun cur => cur - 16 ≤ b.length) (by omega), bind_of_error hfail]

/-- No byte outside the buffer is looked at, and the memory that is asked for is there. -/
theorem safe_readUndoInfo (hmem : ∀ n ≤ maxElements, canReserve n = true)
    (hroom : HasRoom canReserve b) (h : 20 < b.length) :
    Safe (fun cur => cur = 0) (readUndoInfo deserToken canReserve b) (fun _ => True) := by
  rintro cur rfl
  unfold readUndoInfo
  rw [bind_of_ok (readHeader_eq h)]
  by_cases hsane : (headerAt b).Sane b.length
  · have hsize := hsane.size_le
    obtain ⟨hadd, hdel⟩ := hsane.counts_le
    have hhead : Safe (fun cur => cur = 20)
        (check (fun _ => (headerAt b).Sane b.length) "Header sanity check fail")
        (fun cur => cur = 20 ∧ (headerAt b).Sane b.length) := Safe.check
    refine Safe.bind hhead (fun _ => ?_) 20 rfl
    refine ((safe_readUInt (by omega)).weaken (fun _ h => h.1) fun _ h => h).bind fun _ => ?_
    refine Safe.check.bind fun _ => ?_
    refine ((Safe.view_at (by omega)).weaken (fun _ h => h.1) fun _ h => h).bind fun _ => ?_
    refine Safe.check.bind fun _ => ?_
    refine Safe.bind (?_ : Safe _ (readBlkInfo b) (fun cur => cur = 20 + 4 + 32 + 16)) fun _ => ?_
    · exact (Safe.bind (Safe.view_at (by omega)) fun _ => Safe.ret).weaken (fun _ h => h.1)
        fun _ h => h
    refine Safe.check.bind fun _ => ?_
    refine (Safe.reserve (hroom hsane)).bind fun _ => ?_
    refine ((safe_readScriptHash.many _).weaken (fun cur h => by omega) fun _ h => h).bind
      fun _ => ?_
    refine (Safe.reserve (hmem _ hadd)).bind fun _ => ?_
    refine (safe_readAddUndo.many _).bind fun _ => ?_
    refine (Safe.reserve (hmem _ hdel)).bind fun _ => ?_
    refine (safe_readDelUndo.many _).bind fun _ => ?_
    refine Safe.check.bind fun _ => ?_
    exact Safe.ret.weaken (fun _ _ => trivial) fun _ h => h
  · -- the header is rejected
    rw [check_bind_of_not (c := fun _ => (headerAt b).Sane b.length) hsane]
    refine ⟨by simp, ?_⟩
    intro a next hok
    cases hok

/-- A buffer is read as a record or rejected if the memory for its script hashes is there. -/
theorem deserialize_or_rejected (deserToken : List UInt8 → Option TokenData)
    (hmem : ∀ n ≤ maxElements, canReserve n = true) (hroom : HasRoom canReserve b) :
    (∃ r, deserialize deserToken canReserve b = .ok r) ∨
      ∃ msg, deserialize deserToken canReserve b = .error (.rejected msg) := by
  unfold deserialize
  split_ifs with hlen
  · have hsafe : Safe _ (readUndoInfo deserToken canReserve b) _ :=
      safe_readUndoInfo hmem hroom hlen
    obtain ⟨hrej, -⟩ := hsafe 0 rfl
    cases hread : readUndoInfo deserToken canReserve b 0 with
    | ok r => exact Or.inl ⟨r.1, rfl⟩
    | error e =>
        obtain ⟨msg, rfl⟩ := hrej e hread
        exact Or.inr ⟨msg, rfl⟩
  · exact Or.inr ⟨_, rfl⟩

/-- Without this memory the reader throws. -/
theorem deserialize_of_full (deserToken : List UInt8 → Option TokenData)
    (hfull : ¬ HasRoom canReserve b) : deserialize deserToken canReserve b = .error .badAlloc := by
  unfold HasRoom at hfull
  push Not at hfull
  obtain ⟨hsane, hno⟩ := hfull
  have hsize := hsane.size_le
  rw [deserialize, if_pos (by omega), readUndoInfo_of_full hsane (Bool.eq_false_iff.mpr hno)]
  rfl

theorem deserialize_or_rejected_iff (deserToken : List UInt8 → Option TokenData)
    (hmem : ∀ n ≤ maxElements, canReserve n = true) :
    ((∃ r, deserialize deserToken canReserve b = .ok r) ∨
        ∃ msg, deserialize deserToken canReserve b = .error (.rejected msg)) ↔
      HasRoom canReserve b := by
  constructor
  · intro h
    by_contra hfull
    have hthrow := deserialize_of_full deserToken hfull
    rcases h with ⟨r, hr⟩ | ⟨msg, hmsg⟩
    · rw [hthrow] at hr
      cases hr
    · rw [hthrow] at hmsg
      cases hmsg
  · exact deserialize_or_rejected deserToken hmem

/-- No byte outside the buffer is looked at, whatever the header says. -/
theorem deserialize_inBounds (deserToken : List UInt8 → Option TokenData)
    (hmem : ∀ n ≤ maxElements, canReserve n = true) :
    deserialize deserToken canReserve b ≠ .error .outOfBounds := by
  intro h
  by_cases hroom : HasRoom canReserve b
  · rcases deserialize_or_rejected deserToken hmem hroom with ⟨r, hr⟩ | ⟨msg, hmsg⟩
    · rw [h] at hr
      cases hr
    · rw [h] at hmsg
      cases hmsg
  · rw [deserialize_of_full deserToken hroom] at h
    cases h

end Safety

end UndoCodec
end Storage
end Shulcrum
