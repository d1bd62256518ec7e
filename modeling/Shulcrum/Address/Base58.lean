import Shulcrum.Header.PoW
import Shulcrum.Lib.Fallible
import Shulcrum.Lib.Radix
import Shulcrum.SubsMgr.StatusHash

/-!
# Base58

Bytes are written in base 58 with one digit `1` for each leading zero byte.
Both directions work on an array whose size is an estimate, and assert that it
was large enough.  Reading allows blanks before and after the text, and ends at
a zero byte.  The estimates, `int` in the source, do not wrap for the lengths
that occur.

**Results.**
* `encodeBase58_eq`, `decodeBase58_eq`: the estimates suffice.
* `decodeBase58_iff`: what is read is what is written, between blanks.
* `decodeBase58Check_eq_ok`: the data in front of a checksum.
-/

namespace Shulcrum
namespace Base58

open Radix
open SubsMgr.StatusHash (utf8)

/-! ## The code -/

/-- All alphanumeric characters except for `0`, `I`, `O` and `l`. -/
def pszBase58 : List UInt8 := utf8 "123456789ABCDEFGHJKLMNPQRSTUVWXYZabcdefghijkmnopqrstuvwxyz"

/-- `B58CarryTable`: the value of each character, or -1. -/
def b58CarryTable : UInt8 → Int :=
  pszBase58.zipIdx.foldl (fun table p => Function.update table p.1 p.2) fun _ => -1

/-- `IsSpace`. -/
def isSpace (c : UInt8) : Bool :=
  c == 0x20 || c == 0x0c || c == 0x0a || c == 0x0d || c == 0x09 || c == 0x0b

/-- The characters up to the terminating zero. -/
def cStr (str : List UInt8) : List UInt8 := str.takeWhile (· != 0)

/-- `EncodeBase58`. -/
def encodeBase58 (vch : List UInt8) : Except Exception (List UInt8) :=
  let zeroes := (vch.takeWhile (· == 0)).length
  let rest := vch.dropWhile (· == 0)
  let size := rest.length * 138 / 100 + 1
  match rest.foldlM (fun s b => push 58 256 s b.toNat) (List.replicate size 0, 0) with
  | none => .error .assertionFailed
  | some s =>
      .ok (List.replicate zeroes 0x31 ++ (digitsOf s).map fun d => pszBase58.getD d 0)

/-- The loop of `DecodeBase58`: the array and what is left of the text, or none
if a character is not in the alphabet. -/
def decodeLoop : List Nat × Nat → List UInt8 →
    Except Exception (Option ((List Nat × Nat) × List UInt8))
  | s, [] => .ok (some (s, []))
  | s, c :: psz =>
      if isSpace c then .ok (some (s, c :: psz))
      else if b58CarryTable c < 0 then .ok none
      else
        match push 256 58 s (b58CarryTable c).toNat with
        | none => .error .assertionFailed
        | some s' => decodeLoop s' psz

/-- `DecodeBase58`. -/
def decodeBase58 (str : List UInt8) : Except Exception (Option (List UInt8)) :=
  let psz := (cStr str).dropWhile isSpace
  let zeroes := (psz.takeWhile (· == 0x31)).length
  let psz := psz.dropWhile (· == 0x31)
  let size := psz.length * 733 / 1000 + 1
  match decodeLoop (List.replicate size 0, 0) psz with
  | .error e => .error e
  | .ok none => .ok none
  | .ok (some (s, psz)) =>
      if psz.dropWhile isSpace ≠ [] then .ok none
      else .ok (some (List.replicate zeroes 0 ++ (digitsOf s).map UInt8.ofNat))

section Check

variable (C : BTC.Crypto)

/-- The first four bytes of the hash. -/
def checksum (vch : List UInt8) : List UInt8 := (BTC.hashBytes (BTC.hash C vch)).take 4

/-- `EncodeBase58Check`. -/
def encodeBase58Check (vch : List UInt8) : Except Exception (List UInt8) :=
  encodeBase58 (vch ++ checksum C vch)

/-- `DecodeBase58Check`. -/
def decodeBase58Check (str : List UInt8) : Except Exception (Option (List UInt8)) :=
  match decodeBase58 str with
  | .error e => .error e
  | .ok none => .ok none
  | .ok (some vch) =>
      if vch.length < 4 then .ok none
      else
        let data := vch.take (vch.length - 4)
        if checksum C data ≠ vch.drop (vch.length - 4) then .ok none else .ok (some data)

end Check

/-! ## The alphabet -/

/-- The value of a character of the alphabet. -/
def value (c : UInt8) : Nat := (b58CarryTable c).toNat

/-- The character for a value. -/
def digit (d : Nat) : UInt8 := pszBase58.getD d 0

/-- What is found by going through the alphabet and all bytes. -/
theorem alphabet_tables :
    (∀ d < 58, 0 ≤ b58CarryTable (digit d) ∧ value (digit d) = d ∧ isSpace (digit d) = false ∧
      digit d ≠ 0) ∧
    (∀ n < 0x100, 0 ≤ b58CarryTable (UInt8.ofNat n) →
      value (UInt8.ofNat n) < 58 ∧ digit (value (UInt8.ofNat n)) = UInt8.ofNat n ∧
        isSpace (UInt8.ofNat n) = false ∧ UInt8.ofNat n ≠ 0) := by
  decide +kernel

theorem value_digit {d : Nat} (h : d < 58) : value (digit d) = d := (alphabet_tables.1 d h).2.1

theorem table_of_nonneg {c : UInt8} (h : 0 ≤ b58CarryTable c) :
    value c < 58 ∧ digit (value c) = c ∧ isSpace c = false ∧ c ≠ 0 := by
  have hc := alphabet_tables.2 c.toNat c.toNat_lt
  rw [UInt8.ofNat_toNat] at hc
  exact hc h

/-! ## What the two directions compute -/

/-- A character that starts no part of the text that is skipped. -/
def valid (c : UInt8) : Bool := 0 ≤ b58CarryTable c

/-- The text for bytes. -/
def textOf (vch : List UInt8) : List UInt8 := (toBase 58 256 (vch.map UInt8.toNat)).map digit

/-- The bytes for a text in the alphabet. -/
def bytesOf (word : List UInt8) : List UInt8 :=
  (toBase 256 58 (word.map value)).map UInt8.ofNat

theorem table_of_valid {c : UInt8} (h : valid c = true) :
    value c < 58 ∧ digit (value c) = c ∧ isSpace c = false ∧ c ≠ 0 :=
  table_of_nonneg (of_decide_eq_true h)

theorem valid_digit {d : Nat} (h : d < 58) : valid (digit d) = true :=
  decide_eq_true (alphabet_tables.1 d h).1

theorem digit_zero : digit 0 = 0x31 := by decide

theorem isOne_iff {c : UInt8} (h : valid c = true) : (c == 0x31) = (value c == 0) := by
  obtain ⟨-, hdigit, -⟩ := table_of_valid h
  have hzero : value 0x31 = 0 := value_digit (d := 0) (by omega)
  rw [Bool.eq_iff_iff, beq_iff_eq, beq_iff_eq]
  constructor
  · rintro rfl
    exact hzero
  · intro hv
    rw [← hdigit, hv, digit_zero]

theorem valid_of_mem_textOf {vch : List UInt8} {c : UInt8} (h : c ∈ textOf vch) :
    valid c = true := by
  obtain ⟨d, hd, rfl⟩ := List.mem_map.mp h
  exact valid_digit (lt_of_mem_toBase (by omega) hd)

theorem toNat_lt_of_mem {vch : List UInt8} : ∀ x ∈ vch.map UInt8.toNat, x < 256 := by
  intro x hx
  obtain ⟨b, -, rfl⟩ := List.mem_map.mp hx
  exact b.toNat_lt

theorem value_lt_of_mem {word : List UInt8} (h : ∀ c ∈ word, valid c = true) :
    ∀ x ∈ word.map value, x < 58 := by
  intro x hx
  obtain ⟨c, hc, rfl⟩ := List.mem_map.mp hx
  exact (table_of_valid (h c hc)).1

/-- The bytes are those that the text was made from. -/
theorem bytesOf_textOf (vch : List UInt8) : bytesOf (textOf vch) = vch := by
  have hvalues : (textOf vch).map value = toBase 58 256 (vch.map UInt8.toNat) := by
    rw [textOf, List.map_map]
    refine (List.map_congr_left fun d hd => ?_).trans (List.map_id _)
    exact value_digit (lt_of_mem_toBase (by omega) hd)
  rw [bytesOf, hvalues, toBase_toBase (by omega) toNat_lt_of_mem, List.map_map]
  refine (List.map_congr_left fun b _ => ?_).trans (List.map_id _)
  exact UInt8.ofNat_toNat

/-- The text is the one the bytes were read from. -/
theorem textOf_bytesOf {word : List UInt8} (h : ∀ c ∈ word, valid c = true) :
    textOf (bytesOf word) = word := by
  have hbytes : (bytesOf word).map UInt8.toNat = toBase 256 58 (word.map value) := by
    rw [bytesOf, List.map_map]
    refine (List.map_congr_left fun d hd => ?_).trans (List.map_id _)
    exact UInt8.toNat_ofNat_of_lt (lt_of_mem_toBase (b := 256) (by omega) hd)
  rw [textOf, hbytes, toBase_toBase (by omega) (value_lt_of_mem h), List.map_map]
  refine (List.map_congr_left fun c hc => ?_).trans (List.map_id _)
  exact (table_of_valid (h c hc)).2.1

/-- The array of the encoder is large enough. -/
theorem encodeBase58_eq (vch : List UInt8) : encodeBase58 vch = .ok (textOf vch) := by
  obtain ⟨hzeroes, hsignificant⟩ := zeroes_map (f := UInt8.toNat) (p := (· == 0)) (l := vch)
    fun b _ => by
      rw [Bool.eq_iff_iff, beq_iff_eq, beq_iff_eq, ← UInt8.toNat_inj]
      rfl
  have hsize : 256 ^ 100 ≤ 58 ^ 138 := by norm_num
  have hroom := pow_le_size (b := 58) (m := 256) (by omega) (by omega) hsize
    (vch.dropWhile (· == 0)).length
  obtain ⟨s, hrun, hs⟩ := foldlM_push (b := 58) (m := 256) (by omega)
    ((vch.dropWhile (· == 0)).map UInt8.toNat) toNat_lt_of_mem
    (holds_zero (by omega) ((vch.dropWhile (· == 0)).length * 138 / 100 + 1))
    (by rwa [List.length_map, Nat.zero_add, Nat.one_mul])
  rw [List.foldlM_map] at hrun
  have hdigits := hs.digitsOf_eq (by omega)
  rw [extend_zero] at hdigits
  simp only [encodeBase58, hrun, hdigits]
  rw [textOf, toBase, hzeroes, hsignificant, List.map_append, List.map_replicate, digit_zero]
  rfl

/-- The loop goes through the characters of the alphabet. -/
theorem decodeLoop_append {size : Nat} (tail word : List UInt8) :
    ∀ {n : Nat} {s : List Nat × Nat}, (∀ c ∈ word, valid c = true) → Holds 256 size n s →
      (n + 1) * 58 ^ (word ++ tail).length ≤ 256 ^ size →
      ∃ s', decodeLoop s (word ++ tail) = decodeLoop s' tail ∧
        Holds 256 size (extend 58 n (word.map value)) s' := by
  induction word with
  | nil => exact fun _ h _ => ⟨_, rfl, h⟩
  | cons c word ih =>
      intro n s hvalid h hroom
      obtain ⟨hc, hword⟩ := List.forall_mem_cons.mp hvalid
      obtain ⟨hlt, -, hspace, -⟩ := table_of_valid hc
      obtain ⟨s₁, hpush, h₁, hroom₁⟩ := h.push (by omega) hlt hroom
      obtain ⟨s', hrun, h'⟩ := ih hword h₁ hroom₁
      have hnonneg : ¬ b58CarryTable c < 0 := not_lt.mpr (of_decide_eq_true hc)
      refine ⟨s', ?_, h'⟩
      rw [value] at hpush
      simp only [List.cons_append, decodeLoop, hspace, Bool.false_eq_true, if_false,
        if_neg hnonneg, hpush]
      exact hrun

/-- What comes after the characters of the alphabet must be blank. -/
theorem decodeLoop_tail {tail : List UInt8} (hhead : ∀ c ∈ tail.head?, valid c = false)
    (s : List Nat × Nat) :
    decodeLoop s tail = .ok (some (s, tail)) ∨
      decodeLoop s tail = .ok none ∧ tail.dropWhile isSpace ≠ [] := by
  cases tail with
  | nil => exact .inl rfl
  | cons c tail =>
      cases hspace : isSpace c with
      | true => exact .inl (by rw [decodeLoop, if_pos hspace])
      | false =>
          have hc := of_decide_eq_false (hhead c rfl)
          refine .inr ⟨?_, by simp [hspace]⟩
          rw [decodeLoop, if_neg (by simp [hspace]), if_pos (not_le.mp hc)]

theorem while_append {p : UInt8 → Bool} {word tail : List UInt8}
    (hhead : ∀ c ∈ tail.head?, p c = false) :
    (word ++ tail).takeWhile p = word.takeWhile p ∧
      (word ++ tail).dropWhile p = word.dropWhile p ++ tail := by
  induction word with
  | nil =>
      cases tail with
      | nil => exact ⟨rfl, rfl⟩
      | cons c tail =>
          have hc := hhead c rfl
          simp [hc]
  | cons d word ih =>
      cases hd : p d with
      | true => simp [hd, ih.1, ih.2]
      | false => simp [hd]

/-- The array of the decoder is large enough; what is read is the text in the
alphabet, if only blanks follow. -/
theorem decodeBase58_append {str word tail : List UInt8}
    (hstr : (cStr str).dropWhile isSpace = word ++ tail) (hword : ∀ c ∈ word, valid c = true)
    (hhead : ∀ c ∈ tail.head?, valid c = false) :
    decodeBase58 str =
      .ok (if tail.dropWhile isSpace = [] then some (bytesOf word) else none) := by
  have hone : ∀ c ∈ tail.head?, (c == 0x31) = false := by
    intro c hc
    have hinvalid := hhead c hc
    by_contra hne
    have hc' : c = digit 0 := by
      rw [digit_zero]
      simpa using hne
    rw [hc', valid_digit (by omega)] at hinvalid
    cases hinvalid
  obtain ⟨htake, hdrop⟩ := @while_append _ word _ hone
  obtain ⟨hzeroes, hsignificant⟩ := zeroes_map (f := value) (p := (· == 0x31)) (l := word)
    fun c hc => isOne_iff (hword c hc)
  have hrest : ∀ c ∈ word.dropWhile (· == 0x31), valid c = true := fun c hc =>
    hword c ((List.dropWhile_sublist _).subset hc)
  have hsize : 58 ^ 86 ≤ 256 ^ 63 := by norm_num
  have hroom : 58 ^ (word.dropWhile (· == 0x31) ++ tail).length ≤
      256 ^ ((word.dropWhile (· == 0x31) ++ tail).length * 733 / 1000 + 1) :=
    (pow_le_size (b := 256) (m := 58) (by omega) (by omega) hsize _).trans
      (Nat.pow_le_pow_right (by omega) (by omega))
  obtain ⟨s, hrun, hs⟩ := decodeLoop_append tail _ hrest
    (holds_zero (by omega) ((word.dropWhile (· == 0x31) ++ tail).length * 733 / 1000 + 1))
    (by rwa [Nat.zero_add, Nat.one_mul])
  have hdigits := hs.digitsOf_eq (by omega)
  rw [extend_zero] at hdigits
  have hbytes : bytesOf word = List.replicate (word.takeWhile (· == 0x31)).length 0
      ++ (digitsOf s).map UInt8.ofNat := by
    rw [bytesOf, toBase, hzeroes, hsignificant, hdigits, List.map_append, List.map_replicate]
    rfl
  rcases decodeLoop_tail hhead s with htail | ⟨htail, hne⟩
  · simp only [decodeBase58, hstr, htake, hdrop, hrun, htail, ← hbytes]
    by_cases hblank : tail.dropWhile isSpace = []
    · rw [if_pos hblank, if_neg (not_not_intro hblank)]
    · rw [if_neg hblank, if_pos hblank]
  · simp only [decodeBase58, hstr, hdrop, hrun, htail, if_neg hne]

/-- Blanks around a text. -/
def Spaces (s : List UInt8) : Prop := ∀ c ∈ s, isSpace c = true

/-- The text in the alphabet and what follows it. -/
theorem decodeBase58_eq (str : List UInt8) :
    ∃ word tail, (cStr str).dropWhile isSpace = word ++ tail ∧ (∀ c ∈ word, valid c = true) ∧
      decodeBase58 str =
        .ok (if tail.dropWhile isSpace = [] then some (bytesOf word) else none) := by
  have hsplit := List.takeWhile_append_dropWhile (p := valid)
    (l := (cStr str).dropWhile isSpace)
  have hword : ∀ c ∈ ((cStr str).dropWhile isSpace).takeWhile valid, valid c = true :=
    fun c hc => List.mem_takeWhile_imp hc
  refine ⟨_, _, hsplit.symm, hword, decodeBase58_append hsplit.symm hword ?_⟩
  intro c hc
  have hhead := List.head?_dropWhile_not valid ((cStr str).dropWhile isSpace)
  rw [Option.mem_def.mp hc] at hhead
  simpa using hhead

theorem dropWhile_eq_nil {q : List UInt8} (h : Spaces q) : q.dropWhile isSpace = [] :=
  List.dropWhile_eq_nil_iff.mpr h

theorem not_valid_of_isSpace {c : UInt8} (h : isSpace c = true) : valid c = false := by
  cases hc : valid c with
  | false => rfl
  | true =>
      rw [(table_of_valid hc).2.2.1] at h
      cases h

theorem not_valid_head {q : List UInt8} (h : Spaces q) : ∀ c ∈ q.head?, valid c = false :=
  fun c hc => not_valid_of_isSpace (h c (List.mem_of_mem_head? hc))

/-- Blanks are skipped on both sides of a text in the alphabet. -/
theorem dropWhile_isSpace_append {p w q : List UInt8} (hp : Spaces p)
    (hw : ∀ c ∈ w, valid c = true) (hq : Spaces q) :
    ∃ q', Spaces q' ∧ (p ++ (w ++ q)).dropWhile isSpace = w ++ q' := by
  have hfirst : (p ++ (w ++ q)).dropWhile isSpace = (w ++ q).dropWhile isSpace := by
    rw [List.dropWhile_append, dropWhile_eq_nil hp]
    rfl
  rw [hfirst]
  cases w with
  | nil => exact ⟨[], fun c hc => by simp at hc, dropWhile_eq_nil hq⟩
  | cons c w =>
      have hc := (table_of_valid (hw c List.mem_cons_self)).2.2.1
      exact ⟨q, hq, by simp [hc]⟩

/--
A text never exhausts the arrays, and it is read as `v` iff it is, up to a zero
byte and between blanks, what is written for `v`.
-/
theorem decodeBase58_iff (str v : List UInt8) :
    (∃ r, decodeBase58 str = .ok r) ∧
      (decodeBase58 str = .ok (some v) ↔ ∃ p w q, Spaces p ∧ encodeBase58 v = .ok w ∧
        Spaces q ∧ cStr str = p ++ (w ++ q)) := by
  obtain ⟨word, tail, hsplit, hword, heq⟩ := decodeBase58_eq str
  refine ⟨⟨_, heq⟩, ?_, ?_⟩
  · intro h
    rw [heq] at h
    have hread := Except.ok.inj h
    split_ifs at hread with hblank
    obtain rfl := Option.some.inj hread
    refine ⟨(cStr str).takeWhile isSpace, word, tail, fun c hc => List.mem_takeWhile_imp hc,
      ?_, List.dropWhile_eq_nil_iff.mp hblank, ?_⟩
    · rw [encodeBase58_eq, textOf_bytesOf hword]
    · rw [← hsplit]
      exact List.takeWhile_append_dropWhile.symm
  · rintro ⟨p, w, q, hp, hw, hq, hstr⟩
    rw [encodeBase58_eq] at hw
    obtain rfl := Except.ok.inj hw
    have hvalid : ∀ c ∈ textOf v, valid c = true := fun c hc => valid_of_mem_textOf hc
    obtain ⟨q', hq', hdrop⟩ := dropWhile_isSpace_append hp hvalid hq
    rw [← hstr] at hdrop
    rw [decodeBase58_append hdrop hvalid (not_valid_head hq'), if_pos (dropWhile_eq_nil hq'),
      bytesOf_textOf]

section Check

variable (C : BTC.Crypto)

theorem length_checksum (vch : List UInt8) : (checksum C vch).length = 4 := by
  rw [checksum, List.length_take, BTC.length_hashBytes]
  rfl

/-- The data in front of a checksum. -/
theorem decodeBase58Check_eq_ok {str v : List UInt8} :
    decodeBase58Check C str = .ok (some v) ↔ decodeBase58 str = .ok (some (v ++ checksum C v)) := by
  have hlen := length_checksum C v
  rw [decodeBase58Check]
  constructor
  · intro h
    split at h
    · cases h
    · cases h
    · next vch hvch =>
        by_cases hshort : vch.length < 4
        · rw [if_pos hshort] at h
          cases h
        · by_cases hsum : checksum C (vch.take (vch.length - 4)) ≠ vch.drop (vch.length - 4)
          · simp only [if_neg hshort, if_pos hsum] at h
            cases h
          · simp only [if_neg hshort, if_neg hsum] at h
            obtain rfl := Option.some.inj (Except.ok.inj h)
            rw [not_not.mp hsum, List.take_append_drop]
            exact hvch
  · intro h
    have htake : (v ++ checksum C v).take ((v ++ checksum C v).length - 4) = v := by
      rw [List.length_append, hlen, Nat.add_sub_cancel]
      exact List.take_left
    have hdrop : (v ++ checksum C v).drop ((v ++ checksum C v).length - 4) = checksum C v := by
      rw [List.length_append, hlen, Nat.add_sub_cancel]
      exact List.drop_left
    have hlong : ¬ (v ++ checksum C v).length < 4 := by
      rw [List.length_append, hlen]
      omega
    simp only [h, if_neg hlong, htake, hdrop, ne_eq, not_true_eq_false, if_false]

theorem decodeBase58Check_ok (str : List UInt8) : ∃ r, decodeBase58Check C str = .ok r := by
  obtain ⟨⟨r, hr⟩, -⟩ := decodeBase58_iff str []
  rw [decodeBase58Check, hr]
  cases r with
  | none => exact ⟨_, rfl⟩
  | some vch =>
      by_cases hshort : vch.length < 4
      · exact ⟨_, if_pos hshort⟩
      · by_cases hsum : checksum C (vch.take (vch.length - 4)) ≠ vch.drop (vch.length - 4)
        · exact ⟨none, by simp only [if_neg hshort, if_pos hsum]⟩
        · exact ⟨some (vch.take (vch.length - 4)), by simp only [if_neg hshort, if_neg hsum]⟩

end Check

end Base58
end Shulcrum
