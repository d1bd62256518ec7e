import Shulcrum.Lib.Copying
import Shulcrum.Streams

/-!
# MimbleWimble blobs

`EatTxMimbleBlob` and `EatBlockMimbleBlob` take the extension part of a
transaction or a block from a stream and keep its bytes.  Runs of bytes are
copied.  Counts, amounts and heights are decoded and encoded again.

**Results.**
* `inverse_readCompactSize`, `inverse_readVarInt`: the writers are inverse to the
  readers.
* `copies_eatTxBody`: the body is copied, whatever its features are.
* `mimbleBlob_exact`: the blob is what was consumed, and is read again as itself.
-/

namespace Shulcrum
namespace LitecoinBits

open BTC Copying
open Streams (writeCompactSize)

/-! ## Numbers -/

/-- `MAX_SIZE`. -/
def maxSize : Nat := 0x02000000

/-- A little-endian integer of `k` bytes, as the `ser_readdata` functions read it. -/
def readData (k : Nat) : StateT (List UInt8) (Except String) Nat := do
  return ofLE (← read k)

/-- The payload of a CompactSize number after its marker, which must need it. -/
def readPayload (k least : Nat) : StateT (List UInt8) (Except String) Nat := do
  let nSizeRet ← readData k
  if nSizeRet < least then throw "non-canonical ReadCompactSize()" else return nSizeRet

/-- What a first byte asks for. -/
def readSize (chSize : Nat) : StateT (List UInt8) (Except String) Nat :=
  if chSize < 253 then return chSize
  else if chSize = 253 then readPayload 2 253
  else if chSize = 254 then readPayload 4 0x10000
  else readPayload 8 0x100000000

/-- `ReadCompactSize`.  The program sets no flag on its streams that would disable the range
check. -/
def readCompactSize : StateT (List UInt8) (Except String) Nat := do
  let chSize ← readData 1
  let nSizeRet ← readSize chSize
  if nSizeRet > maxSize then throw "ReadCompactSize(): size too large" else return nSizeRet

/-- The greatest number of 64 bits. -/
def uint64Max : Nat := 2 ^ 64 - 1

/-- The loop of `ReadVarInt` with 64 bits; `n` is what was read so far. -/
def readVarIntLoop (n : Nat) : List UInt8 → Except String (Nat × List UInt8)
  | [] => .error "VectorReader::read(): end of data"
  | chData :: s =>
      if n > uint64Max >>> 7 then .error "ReadVarInt(): size too large"
      else
        let n := (n <<< 7) ||| (chData.toNat &&& 0x7f)
        if chData.toNat &&& 0x80 = 0 then .ok (n, s)
        else if n = uint64Max then .error "ReadVarInt(): size too large"
        else readVarIntLoop (n + 1) s

/-- `ReadVarInt`. -/
def readVarInt : StateT (List UInt8) (Except String) Nat := readVarIntLoop 0

/-- The loop of `WriteVarInt`, with the digits `tmp` that follow.  The last digit is the first to
be found. -/
def writeVarIntLoop (n : Nat) (tmp : List UInt8) : List UInt8 :=
  let tmp := UInt8.ofNat ((n &&& 0x7f) ||| (if tmp.isEmpty then 0 else 0x80)) :: tmp
  if n ≤ 0x7f then tmp else writeVarIntLoop ((n >>> 7) - 1) tmp
termination_by n
decreasing_by
  rw [Nat.shiftRight_eq_div_pow]
  omega

/-- `WriteVarInt`. -/
def writeVarInt (n : Nat) : List UInt8 := writeVarIntLoop n []

/-! ## The eater -/

/-- `detail::Eater`. -/
abbrev Eater (α : Type) := Copier String UInt8 α

namespace Eater

/-- `RdWr`. -/
def rdWr (nbytes : Nat) : Eater (List UInt8) := readWrite (read nbytes) id

/-- The byte that `RdWr(1)` points to. -/
def rdWrByte : Eater UInt8 := do
  return (← rdWr 1).headD 0

/-- `RdWrSz`. -/
def rdWrSz : Eater Nat := readWrite readCompactSize writeCompactSize

/-- `RdWrByteVector`. -/
def rdWrByteVector : Eater Nat := do
  let nbytes ← rdWrSz
  let _ ← rdWr nbytes
  return nbytes

/-- `RdWrVarInt`. -/
def rdWrVarInt : Eater Nat := readWrite readVarInt writeVarInt

/-- `RdWrHeight`. -/
def rdWrHeight : Eater Nat := do
  let nHeight ← rdWrVarInt
  if nHeight > 2 ^ 31 - 1 ∨ Int32.ofNat nHeight < 0 then
    throw "mimble: Height is out of range"
  else return nHeight

/-- `RdWrAmount`. -/
def rdWrAmount : Eater Nat := do
  let nAmount ← rdWrVarInt
  if nAmount > 2 ^ 63 - 1 ∨ Int64.ofNat nAmount < 0 then
    throw "mimble: Amount is out of range"
  else return nAmount

/-- What is there if a feature bit is set. -/
def ifFeature {α : Type} (features bit : UInt8) (m : Eater α) : Eater Unit :=
  if features &&& bit ≠ 0 then m >>= fun _ => pure () else pure ()

/-- `class Input`. -/
def eatInput : Eater Unit := do
  let features ← rdWrByte
  let _ ← rdWr (32 + 33 + 33)
  ifFeature features 0x1 (rdWr 33)
  ifFeature features 0x2 rdWrByteVector
  let _ ← rdWr 64

/-- `class Output`. -/
def eatOutput : Eater Unit := do
  let _ ← rdWr (33 + 33 + 33)
  let features ← rdWrByte
  ifFeature features 0x1 (rdWr (33 + 1 + 8 + 16))
  ifFeature features 0x2 rdWrByteVector
  let _ ← rdWr (675 + 64)

/-- `class PegOutCoin`. -/
def eatPegOutCoin : Eater Unit := do
  let _ ← rdWrAmount
  let spkSz ← rdWrByteVector
  if spkSz = 0 then throw "mimble: Pegout scriptPubKey must not be empty" else pure ()

/-- `class Kernel`. -/
def eatKernel : Eater Unit := do
  let features ← rdWrByte
  ifFeature features 0x1 rdWrAmount
  ifFeature features 0x2 rdWrAmount
  ifFeature features 0x4 (rdWrSz >>= times eatPegOutCoin)
  ifFeature features 0x8 rdWrHeight
  ifFeature features 0x10 (rdWr 33)
  ifFeature features 0x20 rdWrByteVector
  let _ ← rdWr (33 + 64)

/-- `EatTxBody`. -/
def eatTxBody : Eater Unit := do
  rdWrSz >>= times eatInput
  rdWrSz >>= times eatOutput
  rdWrSz >>= times eatKernel

/-- The statements of `EatTxMimbleBlob`; of the transaction it only asks if it has outputs. -/
def eatTx (voutEmpty : Bool) : Eater Unit := do
  let opt ← rdWrByte
  if opt = 0 then
    if voutEmpty then throw "mimble: Missing HogEx output" else pure ()
  else
    let _ ← rdWr (32 + 32)
    eatTxBody

/-- The statements of `EatBlockMimbleBlob`. -/
def eatBlock : Eater Unit := do
  let opt ← rdWrByte
  if opt = 0 then pure ()
  else
    let _ ← rdWrHeight
    let _ ← rdWr (32 * 5)
    let _ ← rdWrVarInt
    let _ ← rdWrVarInt
    eatTxBody

/-- The blob, and what is left of the stream. -/
def blob (m : Eater Unit) (s : List UInt8) : Except String (List UInt8 × List UInt8) :=
  match m ⟨s, []⟩ with
  | .error e => .error e
  | .ok (_, t) => .ok (t.output, t.input)

end Eater

/-- `EatTxMimbleBlob`. -/
def eatTxMimbleBlob (voutEmpty : Bool) (s : List UInt8) :
    Except String (List UInt8 × List UInt8) := (Eater.eatTx voutEmpty).blob s

/-- `EatBlockMimbleBlob`. -/
def eatBlockMimbleBlob (s : List UInt8) : Except String (List UInt8 × List UInt8) :=
  Eater.eatBlock.blob s

/-! ## The numbers are written as they were read -/

variable {α β : Type} {s rest : List UInt8} {n k : Nat}

theorem stateT_bind_eq_ok {m : StateT (List UInt8) (Except String) α}
    {f : α → StateT (List UInt8) (Except String) β} {b : β} :
    (m >>= f) s = .ok (b, rest) ↔ ∃ a s', m s = .ok (a, s') ∧ f a s' = .ok (b, rest) := by
  have hdef : (m >>= f) s = m s >>= fun r => f r.1 r.2 := rfl
  rw [hdef, Fallible.bind_eq_ok]
  constructor
  · rintro ⟨⟨a, s'⟩, hm, hf⟩
    exact ⟨a, s', hm, hf⟩
  · rintro ⟨a, s', hm, hf⟩
    exact ⟨(a, s'), hm, hf⟩

theorem read_eq_ok {x : List UInt8} :
    read n s = .ok (x, rest) ↔ s = x ++ rest ∧ x.length = n := by
  constructor
  · intro h
    unfold BTC.read at h
    split_ifs at h with hlen
    simp only [Except.ok.injEq, Prod.mk.injEq] at h
    obtain ⟨rfl, rfl⟩ := h
    exact ⟨(List.take_append_drop n s).symm, List.length_take_of_le (not_lt.mp hlen)⟩
  · rintro ⟨rfl, hx⟩
    exact read_append hx rest

theorem inverse_read (n : Nat) : Inverse (read n) id where
  canonical := fun h => (read_eq_ok.mp h).1
  again := fun h _ => read_eq_ok.mpr ⟨rfl, (read_eq_ok.mp h).2⟩

theorem readData_eq_ok : readData k s = .ok (n, rest) ↔ s = leBytes k n ++ rest ∧ n < 256 ^ k := by
  rw [readData, stateT_bind_eq_ok]
  constructor
  · rintro ⟨x, s', hread, hret⟩
    obtain ⟨rfl, rfl⟩ := read_eq_ok.mp hread
    cases hret
    rw [leBytes_ofLE]
    exact ⟨rfl, ofLE_lt x⟩
  · rintro ⟨rfl, hn⟩
    refine ⟨leBytes k n, rest, read_eq_ok.mpr ⟨rfl, length_leBytes k n⟩, ?_⟩
    rw [ofLE_leBytes hn]
    rfl

theorem readPayload_eq_ok {least : Nat} :
    readPayload k least s = .ok (n, rest) ↔ s = leBytes k n ++ rest ∧ least ≤ n ∧ n < 256 ^ k := by
  rw [readPayload, stateT_bind_eq_ok]
  constructor
  · rintro ⟨m, s', hread, hret⟩
    obtain ⟨rfl, hlt⟩ := readData_eq_ok.mp hread
    split_ifs at hret with hleast
    · cases hret
    · cases hret
      exact ⟨rfl, not_lt.mp hleast, hlt⟩
  · rintro ⟨rfl, hleast, hlt⟩
    refine ⟨n, rest, readData_eq_ok.mpr ⟨rfl, hlt⟩, ?_⟩
    rw [if_neg (not_lt.mpr hleast)]
    rfl

/-- A CompactSize number is accepted in its shortest form only. -/
theorem readCompactSize_eq_ok :
    readCompactSize s = .ok (n, rest) ↔ s = writeCompactSize n ++ rest ∧ n ≤ maxSize := by
  rw [readCompactSize, stateT_bind_eq_ok]
  constructor
  · rintro ⟨chSize, s', hfirst, hrest⟩
    obtain ⟨rfl, hch⟩ := readData_eq_ok.mp hfirst
    obtain ⟨m, s'', hpayload, hret⟩ := stateT_bind_eq_ok.mp hrest
    have hm : m = n ∧ s'' = rest ∧ n ≤ maxSize := by
      split_ifs at hret with hmax
      · cases hret
      · cases hret
        exact ⟨rfl, rfl, not_lt.mp hmax⟩
    obtain ⟨rfl, rfl, hmax⟩ := hm
    refine ⟨?_, hmax⟩
    rw [readSize] at hpayload
    split_ifs at hpayload with h1 h2 h3
    · cases hpayload
      rw [writeCompactSize, if_pos h1]
    · obtain ⟨rfl, hge, hlt⟩ := readPayload_eq_ok.mp hpayload
      have h16 : m < 2 ^ 16 := hlt
      rw [writeCompactSize, if_neg (not_lt.mpr hge), if_pos h16, h2]
      rfl
    · obtain ⟨rfl, hge, hlt⟩ := readPayload_eq_ok.mp hpayload
      have h16 : ¬ m < 2 ^ 16 := not_lt.mpr hge
      have h32 : m < 2 ^ 32 := hlt
      rw [writeCompactSize, if_neg (by omega), if_neg h16, if_pos h32, h3]
      rfl
    · obtain ⟨rfl, hge, hlt⟩ := readPayload_eq_ok.mp hpayload
      rw [maxSize] at hmax
      omega
  · rintro ⟨rfl, hmax⟩
    have hret : ∀ s', (if n > maxSize then throw "ReadCompactSize(): size too large" else
        return n : StateT (List UInt8) (Except String) Nat) s' = .ok (n, s') := by
      intro s'
      rw [if_neg (not_lt.mpr hmax)]
      rfl
    rw [writeCompactSize]
    rw [maxSize] at hmax
    split_ifs with h1 h2 h3
    · refine ⟨n, rest, readData_eq_ok.mpr ⟨rfl, by omega⟩, ?_⟩
      rw [readSize, if_pos h1]
      exact stateT_bind_eq_ok.mpr ⟨n, rest, rfl, hret rest⟩
    · refine ⟨253, leBytes 2 n ++ rest, readData_eq_ok.mpr ⟨rfl, by omega⟩, ?_⟩
      rw [readSize, if_neg (by omega), if_pos rfl]
      exact stateT_bind_eq_ok.mpr ⟨n, rest,
        readPayload_eq_ok.mpr ⟨rfl, not_lt.mp h1, h2⟩, hret rest⟩
    · refine ⟨254, leBytes 4 n ++ rest, readData_eq_ok.mpr ⟨rfl, by omega⟩, ?_⟩
      rw [readSize, if_neg (by omega), if_neg (by omega), if_pos rfl]
      exact stateT_bind_eq_ok.mpr ⟨n, rest,
        readPayload_eq_ok.mpr ⟨rfl, not_lt.mp h2, h3⟩, hret rest⟩
    · omega

theorem inverse_readCompactSize : Inverse readCompactSize writeCompactSize where
  canonical := fun h => (readCompactSize_eq_ok.mp h).1
  again := fun h _ => readCompactSize_eq_ok.mpr ⟨rfl, (readCompactSize_eq_ok.mp h).2⟩

/-- The digits that must have been read for the loop to have this number. -/
def continued (n : Nat) : List UInt8 :=
  if n = 0 then []
  else continued ((n - 1) >>> 7) ++ [UInt8.ofNat (((n - 1) &&& 0x7f) ||| 0x80)]
termination_by n
decreasing_by
  rw [Nat.shiftRight_eq_div_pow]
  omega

/-- Digits that are not the last. -/
theorem writeVarIntLoop_of_ne_nil {tmp : List UInt8} (htmp : tmp ≠ []) (n : Nat) :
    writeVarIntLoop n tmp = continued (n + 1) ++ tmp := by
  induction n using Nat.strong_induction_on generalizing tmp with
  | _ n ih =>
      have hempty : tmp.isEmpty = false := List.isEmpty_eq_false_iff.mpr htmp
      rw [writeVarIntLoop, continued, if_neg (Nat.succ_ne_zero n), Nat.add_sub_cancel, hempty,
        if_neg Bool.false_ne_true]
      split_ifs with hn
      · have hzero : n >>> 7 = 0 := by
          rw [Nat.shiftRight_eq_div_pow]
          omega
        rw [hzero, continued, if_pos rfl]
        rfl
      · have hpos : n >>> 7 ≠ 0 := by
          rw [Nat.shiftRight_eq_div_pow]
          omega
        have hlt : n >>> 7 - 1 < n := by
          rw [Nat.shiftRight_eq_div_pow]
          omega
        rw [ih _ hlt (List.cons_ne_nil _ _), Nat.sub_add_cancel (Nat.one_le_iff_ne_zero.mpr hpos),
          List.append_assoc]
        rfl

theorem writeVarInt_eq (n : Nat) :
    writeVarInt n = continued (n >>> 7) ++ [UInt8.ofNat (n &&& 0x7f)] := by
  rw [writeVarInt, writeVarIntLoop, List.isEmpty_nil, if_pos rfl, Nat.or_zero]
  split_ifs with hn
  · have hzero : n >>> 7 = 0 := by
      rw [Nat.shiftRight_eq_div_pow]
      omega
    rw [hzero, continued, if_pos rfl]
    rfl
  · have hpos : n >>> 7 ≠ 0 := by
      rw [Nat.shiftRight_eq_div_pow]
      omega
    rw [writeVarIntLoop_of_ne_nil (List.cons_ne_nil _ _),
      Nat.sub_add_cancel (Nat.one_le_iff_ne_zero.mpr hpos)]

/-- The digit of a byte and the number before it. -/
theorem shift_or_digit (m : Nat) (chData : UInt8) :
    ((m <<< 7) ||| (chData.toNat &&& 0x7f)) >>> 7 = m ∧
      ((m <<< 7) ||| (chData.toNat &&& 0x7f)) &&& 0x7f = chData.toNat &&& 0x7f := by
  have hmask : ∀ x : Nat, x &&& 0x7f = x % 128 := fun x => Nat.and_two_pow_sub_one_eq_mod x 7
  have hlt : chData.toNat % 128 < 2 ^ 7 := Nat.mod_lt _ (by decide)
  rw [hmask, ← Nat.shiftLeft_add_eq_or_of_lt hlt, Nat.shiftLeft_eq, Nat.shiftRight_eq_div_pow,
    hmask]
  constructor
  · omega
  · omega

/-- A byte is its digit, and the bit that says if another one follows. -/
theorem ofNat_digit {chData : UInt8} :
    (chData.toNat &&& 0x80 = 0 → UInt8.ofNat (chData.toNat &&& 0x7f) = chData) ∧
      (chData.toNat &&& 0x80 ≠ 0 → UInt8.ofNat ((chData.toNat &&& 0x7f) ||| 0x80) = chData) := by
  have hall : ∀ x < 0x100, (x &&& 0x80 = 0 → x &&& 0x7f = x) ∧
      (x &&& 0x80 ≠ 0 → (x &&& 0x7f) ||| 0x80 = x) := by decide +kernel
  obtain ⟨hlast, hmore⟩ := hall chData.toNat chData.toNat_lt
  constructor
  · intro h
    rw [hlast h, UInt8.ofNat_toNat]
  · intro h
    rw [hmore h, UInt8.ofNat_toNat]

/-- The loop reads digits that continue what was read, and reads them again. -/
theorem readVarIntLoop_spec {m v : Nat} (h : readVarIntLoop m s = .ok (v, rest)) :
    ∃ used, s = used ++ rest ∧ continued m ++ used = writeVarInt v ∧
      ∀ rest', readVarIntLoop m (used ++ rest') = .ok (v, rest') := by
  induction s generalizing m with
  | nil => cases h
  | cons chData s ih =>
      have hagain : ∀ used rest', readVarIntLoop m (chData :: used ++ rest') =
          readVarIntLoop m (chData :: (used ++ rest')) := fun _ _ => rfl
      obtain ⟨hhigh, hdigit⟩ := shift_or_digit m chData
      rw [readVarIntLoop] at h
      dsimp only at h
      split_ifs at h with hbig hlast hmax
      · cases h
        have hbyte := ofNat_digit.1 hlast
        refine ⟨[chData], rfl, ?_, fun rest' => ?_⟩
        · rw [writeVarInt_eq, hhigh, hdigit, hbyte]
        · rw [List.singleton_append, readVarIntLoop]
          dsimp only
          rw [if_neg hbig, if_pos hlast]
      · obtain ⟨used, rfl, hcont, hread⟩ := ih h
        have hbyte := ofNat_digit.2 hlast
        refine ⟨chData :: used, rfl, ?_, fun rest' => ?_⟩
        · rw [continued, if_neg (Nat.succ_ne_zero _), Nat.add_sub_cancel, hhigh, hdigit, hbyte]
            at hcont
          rw [← hcont, List.append_assoc]
          rfl
        · rw [hagain, readVarIntLoop]
          dsimp only
          rw [if_neg hbig, if_neg hlast, if_neg hmax, hread]

theorem inverse_readVarInt : Inverse readVarInt writeVarInt := by
  have hspec : ∀ {s v rest}, readVarInt s = .ok (v, rest) →
      s = writeVarInt v ++ rest ∧
        ∀ rest', readVarInt (writeVarInt v ++ rest') = .ok (v, rest') := by
    intro s v rest h
    obtain ⟨used, hs, hused, hread⟩ := readVarIntLoop_spec h
    rw [continued, if_pos rfl, List.nil_append] at hused
    rw [← hused]
    exact ⟨hs, hread⟩
  exact ⟨fun h => (hspec h).1, fun h => (hspec h).2⟩

/-! ## The blob is what was consumed -/

namespace Eater

theorem copies_rdWr (nbytes : Nat) : Copies (rdWr nbytes) := (inverse_read nbytes).copies

theorem copies_rdWrByte : Copies rdWrByte := .bind (copies_rdWr 1) fun _ => .pure _

theorem copies_rdWrSz : Copies rdWrSz := inverse_readCompactSize.copies

theorem copies_rdWrByteVector : Copies rdWrByteVector :=
  .bind copies_rdWrSz fun nbytes => .bind (copies_rdWr nbytes) fun _ => .pure nbytes

theorem copies_rdWrVarInt : Copies rdWrVarInt := inverse_readVarInt.copies

theorem copies_rdWrHeight : Copies rdWrHeight :=
  .bind copies_rdWrVarInt fun nHeight => .ite (.throw _) (.pure nHeight)

theorem copies_rdWrAmount : Copies rdWrAmount :=
  .bind copies_rdWrVarInt fun nAmount => .ite (.throw _) (.pure nAmount)

theorem copies_ifFeature {m : Eater α} (hm : Copies m) (features bit : UInt8) :
    Copies (ifFeature features bit m) := .ite (.bind hm fun _ => .pure ()) (.pure ())

/-- A counted list. -/
theorem copies_counted {m : Eater Unit} (hm : Copies m) : Copies (rdWrSz >>= times m) :=
  .bind copies_rdWrSz fun n => hm.times n

theorem copies_eatInput : Copies eatInput := by
  refine .bind copies_rdWrByte fun features => ?_
  refine .bind (copies_rdWr _) fun _ => ?_
  refine .bind (copies_ifFeature (copies_rdWr _) features _) fun _ => ?_
  refine .bind (copies_ifFeature copies_rdWrByteVector features _) fun _ => ?_
  exact .bind (copies_rdWr _) fun _ => .pure ()

theorem copies_eatOutput : Copies eatOutput := by
  refine .bind (copies_rdWr _) fun _ => ?_
  refine .bind copies_rdWrByte fun features => ?_
  refine .bind (copies_ifFeature (copies_rdWr _) features _) fun _ => ?_
  refine .bind (copies_ifFeature copies_rdWrByteVector features _) fun _ => ?_
  exact .bind (copies_rdWr _) fun _ => .pure ()

theorem copies_eatPegOutCoin : Copies eatPegOutCoin := by
  refine .bind copies_rdWrAmount fun _ => ?_
  exact .bind copies_rdWrByteVector fun _ => .ite (.throw _) (.pure ())

theorem copies_eatKernel : Copies eatKernel := by
  refine .bind copies_rdWrByte fun features => ?_
  refine .bind (copies_ifFeature copies_rdWrAmount features _) fun _ => ?_
  refine .bind (copies_ifFeature copies_rdWrAmount features _) fun _ => ?_
  refine .bind (copies_ifFeature (copies_counted copies_eatPegOutCoin) features _) fun _ => ?_
  refine .bind (copies_ifFeature copies_rdWrHeight features _) fun _ => ?_
  refine .bind (copies_ifFeature (copies_rdWr _) features _) fun _ => ?_
  refine .bind (copies_ifFeature copies_rdWrByteVector features _) fun _ => ?_
  exact .bind (copies_rdWr _) fun _ => .pure ()

theorem copies_eatTxBody : Copies eatTxBody :=
  .bind (copies_counted copies_eatInput) fun _ =>
    .bind (copies_counted copies_eatOutput) fun _ => copies_counted copies_eatKernel

theorem copies_eatTx (voutEmpty : Bool) : Copies (eatTx voutEmpty) := by
  refine .bind copies_rdWrByte fun opt => .ite (.ite (.throw _) (.pure ())) ?_
  exact .bind (copies_rdWr _) fun _ => copies_eatTxBody

theorem copies_eatBlock : Copies eatBlock := by
  refine .bind copies_rdWrByte fun opt => .ite (.pure ()) ?_
  refine .bind copies_rdWrHeight fun _ => ?_
  refine .bind (copies_rdWr _) fun _ => ?_
  exact .bind copies_rdWrVarInt fun _ => .bind copies_rdWrVarInt fun _ => copies_eatTxBody

/-- A blob is what was taken from the stream, and it is taken again. -/
theorem blob_exact {m : Eater Unit} (hm : Copies m) {mwBlob : List UInt8}
    (h : m.blob s = .ok (mwBlob, rest)) :
    s = mwBlob ++ rest ∧ ∀ rest', m.blob (mwBlob ++ rest') = .ok (mwBlob, rest') := by
  rw [blob] at h
  cases hrun : m ⟨s, []⟩ with
  | error e => simp [hrun] at h
  | ok r =>
      obtain ⟨u, t⟩ := r
      simp only [hrun, Except.ok.injEq, Prod.mk.injEq] at h
      obtain ⟨rfl, rfl⟩ := h
      obtain ⟨hs, hagain⟩ := hm.run hrun
      refine ⟨hs, fun rest' => ?_⟩
      simp only [blob, hagain rest']

end Eater

/-- The blob of a transaction or of a block is what was consumed, and is read again as itself. -/
theorem mimbleBlob_exact (voutEmpty : Bool) (s mwBlob rest : List UInt8) :
    (eatTxMimbleBlob voutEmpty s = .ok (mwBlob, rest) →
      s = mwBlob ++ rest ∧
        ∀ rest', eatTxMimbleBlob voutEmpty (mwBlob ++ rest') = .ok (mwBlob, rest')) ∧
    (eatBlockMimbleBlob s = .ok (mwBlob, rest) →
      s = mwBlob ++ rest ∧ ∀ rest', eatBlockMimbleBlob (mwBlob ++ rest') = .ok (mwBlob, rest')) :=
  ⟨Eater.blob_exact (Eater.copies_eatTx voutEmpty), Eater.blob_exact Eater.copies_eatBlock⟩

/-- A body without inputs and outputs, and with one kernel: a fee, a coin that is pegged out, and
a lock height. -/
def smallBody : List UInt8 :=
  [0, 0, 1, 0x0d, 0x10, 1, 3, 2, 0x51, 0x52, 0x80, 0x7f] ++ List.replicate 97 7

/-- A transaction and a block with that body, of height 128. -/
def smallTx : List UInt8 := 1 :: (List.replicate 64 5 ++ smallBody)

def smallBlock : List UInt8 :=
  [1, 0x80, 0x00] ++ (List.replicate 160 9 ++ ([5, 0x80, 0x7f] ++ smallBody))

theorem mimbleBlob_exact_small :
    (∀ rest, eatTxMimbleBlob false (smallTx ++ rest) = .ok (smallTx, rest)) ∧
      ∀ rest, eatBlockMimbleBlob (smallBlock ++ rest) = .ok (smallBlock, rest) := by
  have htx : eatTxMimbleBlob false (smallTx ++ [8, 8]) = .ok (smallTx, [8, 8]) := by decide +kernel
  have hblock : eatBlockMimbleBlob (smallBlock ++ [8, 8]) = .ok (smallBlock, [8, 8]) := by
    decide +kernel
  exact ⟨((mimbleBlob_exact false _ _ _).1 htx).2, ((mimbleBlob_exact false _ _ _).2 hblock).2⟩

end LitecoinBits
end Shulcrum
