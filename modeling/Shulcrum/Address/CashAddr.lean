import Shulcrum.Address.PolyMod
import Shulcrum.SubsMgr.StatusHash

/-!
# Cash addresses

A cash address is a prefix of letters, a colon, and symbols of five bits, of
which the last eight are the checksum.  The prefix may be left out where it is
known, and the whole may be written in capital letters.

**Results.**
* `scan_iff`: what the first pass over the text lets through.
* `decode_iff`: the text is that of `Encode`, up to capitals and the known prefix.
* `decode_burst`: wrong characters within a window of eight are detected.
-/

namespace Shulcrum
namespace CashAddr

open SubsMgr.StatusHash (utf8)

/-! ## The code -/

/-- `CHARSET`. -/
def charset : List UInt8 := utf8 "qpzry9x8gf2tvdw0s3jn54khce6mua7l"

/-- `CHARSET_REV`. -/
def charsetRev : List Int :=
  [-1, -1, -1, -1, -1, -1, -1, -1, -1, -1, -1, -1, -1, -1, -1, -1, -1, -1, -1,
   -1, -1, -1, -1, -1, -1, -1, -1, -1, -1, -1, -1, -1, -1, -1, -1, -1, -1, -1,
   -1, -1, -1, -1, -1, -1, -1, -1, -1, -1, 15, -1, 10, 17, 21, 20, 26, 30, 7,
   5, -1, -1, -1, -1, -1, -1, -1, 29, -1, 24, 13, 25, 9, 8, 23, -1, 18, 22,
   31, 27, 19, -1, 1, 0, 3, 16, 11, 28, 12, 14, 6, 4, 2, -1, -1, -1, -1,
   -1, -1, 29, -1, 24, 13, 25, 9, 8, 23, -1, 18, 22, 31, 27, 19, -1, 1, 0,
   3, 16, 11, 28, 12, 14, 6, 4, 2, -1, -1, -1, -1, -1]

/-- The separator. -/
def colon : UInt8 := 0x3a

/-- `LowerCase`. -/
def lowerCase (c : UInt8) : UInt8 := c ||| 0x20

/-- `Encode`. -/
def encode (pfx payload : List UInt8) : List UInt8 :=
  pfx ++ colon :: (payload ++ createChecksum pfx payload).map fun c =>
    charset.getD (c % 32).toNat 0

def isLower (c : UInt8) : Bool := 0x61 ≤ c && c ≤ 0x7a

def isUpper (c : UInt8) : Bool := 0x41 ≤ c && c ≤ 0x5a

def isNumber (c : UInt8) : Bool := 0x30 ≤ c && c ≤ 0x39

/-- What the first pass of `Decode` knows. -/
structure Scan where
  lower : Bool := false
  upper : Bool := false
  hasNumber : Bool := false
  prefixSize : Nat := 0

/-- The first pass of `Decode`, from character `i`; none if the text is rejected. -/
def scan (s : Scan) : Nat → List UInt8 → Option Scan
  | _, [] => some s
  | i, c :: str =>
      if isLower c then scan { s with lower := true } (i + 1) str
      else if isUpper c then scan { s with upper := true } (i + 1) str
      else if isNumber c then scan { s with hasNumber := true } (i + 1) str
      else if c = colon then
        if s.hasNumber ∨ i = 0 ∨ s.prefixSize ≠ 0 then none
        else scan { s with prefixSize := i } (i + 1) str
      else none

/-- The value of a character, none for an invalid one. -/
def symbol (c : UInt8) : Option UInt8 :=
  if c > 127 ∨ charsetRev.getD c.toNat (-1) = -1 then none
  else some (UInt8.ofNat (charsetRev.getD c.toNat (-1)).toNat)

/-- `Decode`: the prefix and the payload, both empty if the text is rejected. -/
def decode (str defaultPrefix : List UInt8) : List UInt8 × List UInt8 :=
  match scan {} 0 str with
  | none => ([], [])
  | some s =>
      if s.upper && s.lower then ([], [])
      else
        let pfx := if s.prefixSize = 0 then defaultPrefix
          else (str.take s.prefixSize).map lowerCase
        let prefixSize := if s.prefixSize = 0 then 0 else s.prefixSize + 1
        if (str.drop prefixSize).length < checksumSize then ([], [])
        else
          match (str.drop prefixSize).mapM symbol with
          | none => ([], [])
          | some values =>
              if verifyChecksum pfx values then
                (pfx, values.take (values.length - checksumSize))
              else ([], [])

/-! ## Characters -/

/-- A letter or a number. -/
def isAlnum (c : UInt8) : Bool := isLower c || isUpper c || isNumber c

/-- Letters in lower case, other characters as they are. -/
def toLower (c : UInt8) : UInt8 := if isUpper c then lowerCase c else c

/-- The character for a symbol. -/
def char (d : UInt8) : UInt8 := charset.getD (d % 32).toNat 0

/-- What is found by going through all bytes. -/
theorem character_tables :
    (∀ n < 0x100, ∀ d ∈ symbol (UInt8.ofNat n),
      d < 32 ∧ char d = toLower (UInt8.ofNat n) ∧ isAlnum (UInt8.ofNat n) = true) ∧
    (∀ n < 32, symbol (char (UInt8.ofNat n)) = some (UInt8.ofNat n) ∧
      isUpper (char (UInt8.ofNat n)) = false) ∧
    (∀ n < 0x100, symbol (toLower (UInt8.ofNat n)) = symbol (UInt8.ofNat n)) ∧
    (∀ n < 0x100, isLower (UInt8.ofNat n) = true → lowerCase (UInt8.ofNat n) = UInt8.ofNat n) ∧
    (∀ n < 0x100, isLower (toLower (UInt8.ofNat n)) =
      (isLower (UInt8.ofNat n) || isUpper (UInt8.ofNat n))) ∧
    (∀ n < 0x100, toLower (UInt8.ofNat n) = colon → UInt8.ofNat n = colon) ∧
    (∀ n < 0x100, isLower (UInt8.ofNat n) = true →
      isUpper (UInt8.ofNat n) = false ∧ isNumber (UInt8.ofNat n) = false) ∧
    ∀ n < 0x100, isUpper (UInt8.ofNat n) = true → isNumber (UInt8.ofNat n) = false := by
  decide +kernel

theorem forall_byte {P : UInt8 → Prop} (h : ∀ n < 0x100, P (UInt8.ofNat n)) (c : UInt8) : P c := by
  have hc := h c.toNat c.toNat_lt
  rwa [UInt8.ofNat_toNat] at hc

theorem symbol_eq_some {c d : UInt8} (h : symbol c = some d) :
    d < 32 ∧ char d = toLower c ∧ isAlnum c = true :=
  forall_byte (P := fun c => ∀ d ∈ symbol c, d < 32 ∧ char d = toLower c ∧ isAlnum c = true)
    character_tables.1 c d h

theorem symbol_char {d : UInt8} (h : d < 32) : symbol (char d) = some d := by
  have hd := (character_tables.2.1 d.toNat h).1
  rwa [UInt8.ofNat_toNat] at hd

theorem isUpper_char {d : UInt8} (h : d < 32) : isUpper (char d) = false := by
  have hd := (character_tables.2.1 d.toNat h).2
  rwa [UInt8.ofNat_toNat] at hd

theorem symbol_toLower (c : UInt8) : symbol (toLower c) = symbol c :=
  forall_byte (P := fun c => symbol (toLower c) = symbol c) character_tables.2.2.1 c

theorem lowerCase_of_isLower {c : UInt8} (h : isLower c = true) : lowerCase c = c :=
  forall_byte (P := fun c => isLower c = true → lowerCase c = c) character_tables.2.2.2.1 c h

theorem isLower_toLower (c : UInt8) : isLower (toLower c) = (isLower c || isUpper c) :=
  forall_byte (P := fun c => isLower (toLower c) = (isLower c || isUpper c))
    character_tables.2.2.2.2.1 c

theorem eq_colon_of_toLower {c : UInt8} (h : toLower c = colon) : c = colon :=
  forall_byte (P := fun c => toLower c = colon → c = colon) character_tables.2.2.2.2.2.1 c h

theorem not_of_isLower {c : UInt8} (h : isLower c = true) :
    isUpper c = false ∧ isNumber c = false :=
  forall_byte (P := fun c => isLower c = true → isUpper c = false ∧ isNumber c = false)
    character_tables.2.2.2.2.2.2.1 c h

theorem isNumber_of_isUpper {c : UInt8} (h : isUpper c = true) : isNumber c = false :=
  forall_byte (P := fun c => isUpper c = true → isNumber c = false)
    character_tables.2.2.2.2.2.2.2 c h

theorem not_isAlnum_colon : isAlnum colon = false := by decide

theorem toLower_colon : toLower colon = colon := by decide

/-- A letter. -/
def isLetter (c : UInt8) : Bool := isLower c || isUpper c

theorem lowerCase_of_isLetter {c : UInt8} (h : isLetter c = true) : lowerCase c = toLower c := by
  rw [toLower]
  cases hupper : isUpper c with
  | true => rfl
  | false =>
      rw [isLetter, hupper, Bool.or_false] at h
      exact lowerCase_of_isLower h

theorem isAlnum_of_isLetter {c : UInt8} (h : isLetter c = true) : isAlnum c = true := by
  rw [isAlnum, ← isLetter, h, Bool.true_or]

/-- A symbol is read from its character, in capitals or not. -/
theorem mapM_symbol_iff {body values : List UInt8} :
    body.mapM symbol = some values ↔ Symbols values ∧ body.map toLower = values.map char := by
  induction body generalizing values with
  | nil =>
      rw [List.mapM_nil, List.map_nil]
      constructor
      · intro h
        obtain rfl := Option.some.inj h
        exact ⟨fun d hd => (List.not_mem_nil hd).elim, rfl⟩
      · rintro ⟨-, h⟩
        rw [List.map_eq_nil_iff.mp h.symm]
        rfl
  | cons c body ih =>
      rw [List.mapM_cons, List.map_cons]
      constructor
      · intro h
        obtain ⟨d, hd, hrest⟩ := Option.bind_eq_some_iff.mp h
        obtain ⟨ds, hds, heq⟩ := Option.bind_eq_some_iff.mp hrest
        obtain rfl := Option.some.inj heq
        obtain ⟨hsymbols, hmap⟩ := ih.mp hds
        obtain ⟨hlt, hchar, -⟩ := symbol_eq_some hd
        refine ⟨List.forall_mem_cons.mpr ⟨hlt, hsymbols⟩, ?_⟩
        rw [List.map_cons, hchar, hmap]
      · rintro ⟨hsymbols, hmap⟩
        cases values with
        | nil => cases hmap
        | cons d ds =>
            obtain ⟨hlt, hds⟩ := List.forall_mem_cons.mp hsymbols
            rw [List.map_cons] at hmap
            obtain ⟨hc, hbody⟩ := List.cons.inj hmap
            have hd : symbol c = some d := by rw [← symbol_toLower, hc, symbol_char hlt]
            rw [hd, ih.mpr ⟨hds, hbody⟩]
            rfl

/-! ## The first pass -/

/-- Letters and numbers are noted. -/
theorem scan_append {w : List UInt8} (hw : ∀ c ∈ w, isAlnum c = true) (rest : List UInt8) :
    ∀ (s : Scan) (i : Nat), scan s i (w ++ rest) =
      scan
        { lower := s.lower || w.any isLower
          upper := s.upper || w.any isUpper
          hasNumber := s.hasNumber || w.any isNumber
          prefixSize := s.prefixSize }
        (i + w.length) rest := by
  induction w with
  | nil =>
      intro s i
      simp
  | cons c w ih =>
      intro s i
      obtain ⟨hc, hw⟩ := List.forall_mem_cons.mp hw
      have hlen : i + (c :: w).length = i + 1 + w.length := by
        rw [List.length_cons]
        omega
      rw [List.cons_append, hlen]
      by_cases hlower : isLower c = true
      · obtain ⟨hupper, hnumber⟩ := not_of_isLower hlower
        rw [scan, if_pos hlower, ih hw]
        simp [hlower, hupper, hnumber]
      · by_cases hupper : isUpper c = true
        · have hnumber := isNumber_of_isUpper hupper
          rw [scan, if_neg hlower, if_pos hupper, ih hw]
          simp [hlower, hupper, hnumber]
        · have hnumber : isNumber c = true := by simpa [isAlnum, hlower, hupper] using hc
          rw [scan, if_neg hlower, if_neg hupper, if_pos hnumber, ih hw]
          simp [hlower, hupper, hnumber]

/-- A separator, and what may stand in front of it. -/
theorem scan_colon (s : Scan) (i : Nat) (str : List UInt8) :
    scan s i (colon :: str) =
      if s.hasNumber ∨ i = 0 ∨ s.prefixSize ≠ 0 then none
      else scan { s with prefixSize := i } (i + 1) str := by
  have hlower : ¬ isLower colon = true := by decide
  have hupper : ¬ isUpper colon = true := by decide
  have hnumber : ¬ isNumber colon = true := by decide
  rw [scan, if_neg hlower, if_neg hupper, if_neg hnumber, if_pos rfl]

theorem scan_other {c : UInt8} (halnum : isAlnum c = false) (hcolon : c ≠ colon) (s : Scan)
    (i : Nat) (str : List UInt8) : scan s i (c :: str) = none := by
  rw [isAlnum, Bool.or_eq_false_iff, Bool.or_eq_false_iff] at halnum
  obtain ⟨⟨hlower, hupper⟩, hnumber⟩ := halnum
  rw [scan, if_neg (by simp [hlower]), if_neg (by simp [hupper]), if_neg (by simp [hnumber]),
    if_neg hcolon]

/-- Letters and numbers, and what comes after them. -/
theorem exists_alnum_append (str : List UInt8) :
    ∃ w rest, str = w ++ rest ∧ (∀ c ∈ w, isAlnum c = true) ∧
      ∀ c ∈ rest.head?, isAlnum c = false := by
  refine ⟨str.takeWhile isAlnum, str.dropWhile isAlnum, List.takeWhile_append_dropWhile.symm,
    fun c hc => List.mem_takeWhile_imp hc, fun c hc => ?_⟩
  have hhead := List.head?_dropWhile_not isAlnum str
  rw [Option.mem_def.mp hc] at hhead
  simpa using hhead

/-- How a text is divided into a prefix and a body. -/
inductive Form (str defaultPrefix : List UInt8) : List UInt8 → List UInt8 → Prop
  | bare : (∀ c ∈ str, isAlnum c = true) → Form str defaultPrefix defaultPrefix str
  | prefixed {p body : List UInt8} : str = p ++ colon :: body → p ≠ [] →
      (∀ c ∈ p, isLetter c = true) → (∀ c ∈ body, isAlnum c = true) →
      Form str defaultPrefix (p.map lowerCase) body

/-- Not both cases in one text. -/
def UniformCase (str : List UInt8) : Prop := ¬ (str.any isUpper = true ∧ str.any isLower = true)

/-- What the first pass has found about a text that is divided so. -/
structure Found (str defaultPrefix p body : List UInt8) (s : Scan) : Prop where
  lower : s.lower = str.any isLower
  upper : s.upper = str.any isUpper
  pfx : (if s.prefixSize = 0 then defaultPrefix
    else (str.take s.prefixSize).map lowerCase) = p
  body : str.drop (if s.prefixSize = 0 then 0 else s.prefixSize + 1) = body

theorem any_isNumber_of_letters {p : List UInt8} (h : ∀ c ∈ p, isLetter c = true) :
    p.any isNumber = false := by
  rw [List.any_eq_false]
  intro c hc hnumber
  rcases Bool.or_eq_true_iff.mp (h c hc) with hlower | hupper
  · rw [(not_of_isLower hlower).2] at hnumber
    cases hnumber
  · rw [isNumber_of_isUpper hupper] at hnumber
    cases hnumber

theorem scan_of_form {str d p body : List UInt8} (h : Form str d p body) :
    ∃ s, scan {} 0 str = some s ∧ Found str d p body s := by
  cases h with
  | bare halnum =>
      have hscan := scan_append halnum [] {} 0
      rw [List.append_nil] at hscan
      exact ⟨_, hscan, by simp, by simp, by simp, by simp⟩
  | @prefixed q body hstr hne hletters halnum =>
      subst hstr
      have hfirst := scan_append (fun c hc => isAlnum_of_isLetter (hletters c hc))
        (colon :: body) {} 0
      have hpos : ¬ q.length = 0 := fun h0 => hne (List.length_eq_zero_iff.mp h0)
      have hbody := scan_append halnum []
        { lower := q.any isLower, upper := q.any isUpper, hasNumber := false,
          prefixSize := q.length } (q.length + 1)
      rw [List.append_nil] at hbody
      have hscan : scan {} 0 (q ++ colon :: body) =
          some
            { lower := q.any isLower || body.any isLower
              upper := q.any isUpper || body.any isUpper
              hasNumber := false || body.any isNumber
              prefixSize := q.length } := by
        rw [hfirst, scan_colon]
        simp only [Bool.false_or, any_isNumber_of_letters hletters, Nat.zero_add]
        rw [if_neg (by simp [hpos])]
        exact hbody
      have hlower : isLower colon = false := by decide
      have hupper : isUpper colon = false := by decide
      refine ⟨_, hscan, ?_, ?_, ?_, ?_⟩
      · simp [hlower]
      · simp [hupper]
      · simp only [if_neg hpos, List.take_left]
      · simp only [if_neg hpos]
        rw [← List.drop_drop, List.drop_left]
        rfl

theorem form_of_scan {str : List UInt8} {s : Scan} (d : List UInt8)
    (h : scan {} 0 str = some s) : ∃ p body, Form str d p body := by
  obtain ⟨w, rest, rfl, hw, hrest⟩ := exists_alnum_append str
  rw [scan_append hw] at h
  cases rest with
  | nil =>
      rw [List.append_nil]
      exact ⟨_, _, .bare hw⟩
  | cons c rest =>
      have hc := hrest c rfl
      by_cases hcolon : c = colon
      · subst hcolon
        rw [scan_colon] at h
        split_ifs at h with hbad
        obtain ⟨w', rest', rfl, hw', hrest'⟩ := exists_alnum_append rest
        rw [scan_append hw'] at h
        cases rest' with
        | nil =>
            rw [List.append_nil]
            simp only [Bool.false_or, Nat.zero_add, not_or] at hbad
            refine ⟨_, _, .prefixed rfl (fun hnil => hbad.2.1 (by rw [hnil]; rfl)) ?_ hw'⟩
            intro c hc
            have hletter := hw c hc
            have hnumber : isNumber c = false := by
              cases hn : isNumber c with
              | false => rfl
              | true => exact absurd (List.any_eq_true.mpr ⟨c, hc, hn⟩) hbad.1
            rwa [isAlnum, ← isLetter, hnumber, Bool.or_false] at hletter
        | cons c' rest' =>
            have hc' := hrest' c' rfl
            exfalso
            by_cases hcolon' : c' = colon
            · subst hcolon'
              rw [scan_colon, if_pos (.inr (.inr (fun h0 => hbad (.inr (.inl h0)))))] at h
              cases h
            · rw [scan_other hc' hcolon'] at h
              cases h
      · rw [scan_other hc hcolon] at h
        cases h

/-! ## The decoder -/

/-- What is decoded, by how the text is divided. -/
theorem decode_eq_iff {str d p payload : List UInt8} (hp : p ≠ []) :
    decode str d = (p, payload) ↔ UniformCase str ∧ ∃ body values, Form str d p body ∧
      body.mapM symbol = some values ∧ checksumSize ≤ body.length ∧
      verifyChecksum p values = true ∧ values.take (values.length - checksumSize) = payload := by
  have hempty : (([] : List UInt8), ([] : List UInt8)) ≠ (p, payload) := fun h =>
    hp (congrArg Prod.fst h).symm
  constructor
  · intro h
    rw [decode] at h
    cases hscan : scan {} 0 str with
    | none =>
        rw [hscan] at h
        exact absurd h hempty
    | some s =>
        obtain ⟨q, body, hform⟩ := form_of_scan d hscan
        obtain ⟨s', hscan', hfound⟩ := scan_of_form hform
        obtain rfl : s = s' := Option.some.inj (hscan.symm.trans hscan')
        simp only [hscan, hfound.pfx, hfound.body, hfound.upper, hfound.lower] at h
        split_ifs at h with hcase hshort
        · exact absurd h hempty
        · exact absurd h hempty
        · cases hvalues : body.mapM symbol with
          | none =>
              rw [hvalues] at h
              exact absurd h hempty
          | some values =>
              simp only [hvalues] at h
              split_ifs at h with hverify
              · obtain ⟨rfl, hpayload⟩ := Prod.mk.inj h
                refine ⟨fun hboth => hcase ?_, body, values, hform, hvalues, not_lt.mp hshort,
                  hverify, hpayload⟩
                rw [hboth.1, hboth.2]
                rfl
              · exact absurd h hempty
  · rintro ⟨hcase, body, values, hform, hvalues, hlong, hverify, rfl⟩
    obtain ⟨s, hscan, hfound⟩ := scan_of_form hform
    have hnot : ¬ (str.any isUpper && str.any isLower) = true := by
      rw [Bool.and_eq_true]
      exact hcase
    simp only [decode, hscan, hfound.pfx, hfound.body, hfound.upper, hfound.lower, if_neg hnot,
      if_neg (not_lt.mpr hlong), hvalues, if_pos hverify]

theorem symbols_append {pfx payload : List UInt8} (h : Symbols payload) :
    Symbols (payload ++ createChecksum pfx payload) := by
  intro e he
  rcases List.mem_append.mp he with he | he
  · exact h e he
  · exact symbols_createChecksum pfx payload e he

/-- The values are the payload and its checksum. -/
theorem decode_form_iff {str d p payload : List UInt8} (hp : p ≠ []) :
    decode str d = (p, payload) ↔ UniformCase str ∧ Symbols payload ∧ ∃ body, Form str d p body ∧
      body.map toLower = (payload ++ createChecksum p payload).map char := by
  rw [decode_eq_iff hp]
  refine and_congr_right fun _ => ?_
  constructor
  · rintro ⟨body, values, hform, hvalues, hlong, hverify, hpayload⟩
    obtain ⟨hsymbols, hmap⟩ := mapM_symbol_iff.mp hvalues
    have hlen : values.length = body.length := by simpa using (congrArg List.length hmap).symm
    have hsplit := List.take_append_drop (values.length - checksumSize) values
    rw [hpayload] at hsplit
    have hcs : (values.drop (values.length - checksumSize)).length = checksumSize := by
      rw [List.length_drop]
      omega
    rw [← hsplit] at hverify hsymbols hmap
    have heq := (verifyChecksum_append_iff hcs
      (fun e he => hsymbols e (List.mem_append_right _ he))).mp hverify
    rw [heq] at hmap
    exact ⟨fun e he => hsymbols e (List.mem_append_left _ he), body, hform, hmap⟩
  · rintro ⟨hsymbols, body, hform, hmap⟩
    have hcs := length_createChecksum p payload
    have hlen : body.length = payload.length + checksumSize := by
      simpa [hcs] using congrArg List.length hmap
    refine ⟨body, _, hform, mapM_symbol_iff.mpr ⟨symbols_append hsymbols, hmap⟩, by omega, ?_, ?_⟩
    · exact (verifyChecksum_append_iff hcs (symbols_createChecksum p payload)).mpr rfl
    · rw [List.length_append, hcs, Nat.add_sub_cancel]
      exact List.take_left

theorem map_lowerCase {q : List UInt8} (h : ∀ c ∈ q, isLetter c = true) :
    q.map lowerCase = q.map toLower :=
  List.map_congr_left fun c hc => lowerCase_of_isLetter (h c hc)

theorem isAlnum_of_map {body values : List UInt8} (h : body.map toLower = values.map char)
    (hvalues : Symbols values) : ∀ c ∈ body, isAlnum c = true := by
  intro c hc
  have hmem : toLower c ∈ values.map char := h ▸ List.mem_map_of_mem hc
  obtain ⟨d, hd, hchar⟩ := List.mem_map.mp hmem
  have hsymbol : symbol c = some d := by rw [← symbol_toLower, ← hchar, symbol_char (hvalues d hd)]
  exact (symbol_eq_some hsymbol).2.2

/-- Small letters. -/
def LowerCase (p : List UInt8) : Prop := ∀ c ∈ p, isLower c = true

/-- A prefix of letters, written in one case. -/
theorem form_of_map {str d p values : List UInt8} (hp : p ≠ []) (hlower : LowerCase p)
    (hvalues : Symbols values) (hmap : str.map toLower = p ++ colon :: values.map char) :
    ∃ body, Form str d p body ∧ body.map toLower = values.map char := by
  obtain ⟨q, r, rfl, hq, hr⟩ := List.map_eq_append_iff.mp hmap
  obtain ⟨c, body, rfl, hc, hbody⟩ := List.map_eq_cons_iff.mp hr
  obtain rfl := eq_colon_of_toLower hc
  have hletters : ∀ c ∈ q, isLetter c = true := by
    intro c hc
    rw [isLetter, ← isLower_toLower]
    exact hlower _ (hq ▸ List.mem_map_of_mem hc)
  have hne : q ≠ [] := by
    rintro rfl
    exact hp hq.symm
  refine ⟨body, ?_, hbody⟩
  have hform : Form (q ++ colon :: body) d (q.map lowerCase) body :=
    .prefixed rfl hne hletters (isAlnum_of_map hbody hvalues)
  rwa [map_lowerCase hletters, hq] at hform

/--
A text is decoded to a prefix and a payload iff it is what is written for them, in
one case; the prefix and the colon may be left out if it is the expected prefix.
-/
theorem decode_iff {str d p payload : List UInt8} (hp : p ≠ []) :
    decode str d = (p, payload) ↔ UniformCase str ∧ Symbols payload ∧
      (LowerCase p ∧ str.map toLower = encode p payload ∨
        p = d ∧ p ++ colon :: str.map toLower = encode p payload) := by
  rw [decode_form_iff hp]
  refine and_congr_right fun _ => and_congr_right fun hsymbols => ?_
  have hencode : encode p payload =
      p ++ colon :: (payload ++ createChecksum p payload).map char := rfl
  constructor
  · rintro ⟨body, hform, hmap⟩
    cases hform with
    | bare halnum => exact .inr ⟨rfl, by rw [hencode, hmap]⟩
    | @prefixed q body hstr hne hletters halnum =>
        refine .inl ⟨?_, ?_⟩
        · intro c hc
          rw [map_lowerCase hletters] at hc
          obtain ⟨e, he, rfl⟩ := List.mem_map.mp hc
          rw [isLower_toLower]
          exact hletters e he
        · rw [hstr, hencode, List.map_append, List.map_cons, toLower_colon, hmap,
            map_lowerCase hletters]
  · rintro (⟨hlower, hmap⟩ | ⟨rfl, hmap⟩)
    · rw [hencode] at hmap
      exact form_of_map hp hlower (symbols_append hsymbols) hmap
    · rw [hencode] at hmap
      have hbody := List.cons.inj (List.append_cancel_left hmap)
      exact ⟨str, .bare (isAlnum_of_map hbody.2 (symbols_append hsymbols)), hbody.2⟩

/-! ## Wrong characters -/

theorem takeWhile_colon {p : List UInt8} (hp : colon ∉ p) (rest : List UInt8) :
    (p ++ colon :: rest).takeWhile (fun c => c != colon) = p := by
  rw [List.takeWhile_append_of_pos, List.takeWhile_cons_of_neg, List.append_nil]
  · simp
  · intro c hc
    have hne : c ≠ colon := fun heq => hp (heq ▸ hc)
    simpa using hne

theorem colon_notMem_of_letters {q : List UInt8} (h : ∀ c ∈ q, isLetter c = true) : colon ∉ q := by
  intro hc
  have hletter := h colon hc
  cases hletter

/-- The prefix and the start of the body are known from what the colon is in. -/
theorem form_append {a z d p body : List UInt8} (hz : colon ∉ z) (h : Form (a ++ z) d p body) :
    ∃ a', body = a' ++ z ∧ ∀ z' p' body', colon ∉ z' → Form (a ++ z') d p' body' →
      p' = p ∧ body' = a' ++ z' := by
  cases h with
  | bare halnum =>
      refine ⟨a, rfl, fun z' p' body' hz' h' => ?_⟩
      cases h' with
      | bare _ => exact ⟨rfl, rfl⟩
      | @prefixed q body' hstr _ _ _ =>
          exfalso
          have hmem : colon ∈ a ++ z' := hstr ▸ List.mem_append_right _ List.mem_cons_self
          rcases List.mem_append.mp hmem with hmem | hmem
          · have hbad := halnum colon (List.mem_append_left _ hmem)
            rw [not_isAlnum_colon] at hbad
            cases hbad
          · exact hz' hmem
  | @prefixed q body hstr _ hletters _ =>
      have hq := colon_notMem_of_letters hletters
      rcases List.append_eq_append_iff.mp hstr with ⟨a', -, hrest⟩ | ⟨c', ha, hrest⟩
      · exact absurd (hrest ▸ List.mem_append_right _ List.mem_cons_self) hz
      · cases c' with
        | nil =>
            have hmem : colon ∈ [] ++ z := hrest ▸ List.mem_cons_self
            exact absurd hmem hz
        | cons e a' =>
            obtain ⟨rfl, rfl⟩ := List.cons.inj hrest
            subst ha
            refine ⟨a', rfl, fun z' p' body' hz' h' => ?_⟩
            cases h' with
            | bare halnum =>
                exfalso
                have hbad := halnum colon
                  (List.mem_append_left _ (List.mem_append_right _ List.mem_cons_self))
                rw [not_isAlnum_colon] at hbad
                cases hbad
            | @prefixed q' body' hstr' _ hletters' _ =>
                have hq' := colon_notMem_of_letters hletters'
                rw [List.append_assoc, List.cons_append] at hstr'
                have htake := congrArg (List.takeWhile fun c => c != colon) hstr'
                rw [takeWhile_colon hq, takeWhile_colon hq'] at htake
                subst htake
                exact ⟨rfl, ((List.cons.inj (List.append_cancel_left hstr')).2).symm⟩

/-- The symbols of a text that is put together. -/
theorem mapM_symbol_append {a z values : List UInt8} (h : (a ++ z).mapM symbol = some values) :
    ∃ va vz, values = va ++ vz ∧ a.mapM symbol = some va ∧ z.mapM symbol = some vz := by
  obtain ⟨hsymbols, hmap⟩ := mapM_symbol_iff.mp h
  rw [List.map_append] at hmap
  obtain ⟨va, vz, rfl, ha, hz⟩ := List.map_eq_append_iff.mp hmap.symm
  refine ⟨va, vz, rfl, mapM_symbol_iff.mpr ⟨fun e he => ?_, ha.symm⟩,
    mapM_symbol_iff.mpr ⟨fun e he => ?_, hz.symm⟩⟩
  · exact hsymbols e (List.mem_append_left _ he)
  · exact hsymbols e (List.mem_append_right _ he)

/--
Two texts that differ within eight characters behind the colon are not both decoded,
unless they differ in the case of letters only.
-/
theorem decode_burst {d a x y b : List UInt8} (hx : colon ∉ x ++ b) (hy : colon ∉ y ++ b)
    (hlen : x.length = y.length) (h8 : x.length ≤ 8) (hdx : (decode (a ++ (x ++ b)) d).1 ≠ [])
    (hdy : (decode (a ++ (y ++ b)) d).1 ≠ []) : x.map toLower = y.map toLower := by
  obtain ⟨-, body, values, hform, hvalues, -, hverify, -⟩ :=
    (@decode_eq_iff (a ++ (x ++ b)) d _ _ hdx).mp rfl
  obtain ⟨-, body', values', hform', hvalues', -, hverify', -⟩ :=
    (@decode_eq_iff (a ++ (y ++ b)) d _ _ hdy).mp rfl
  obtain ⟨a', rfl, hother⟩ := form_append hx hform
  obtain ⟨hp, rfl⟩ := hother _ _ _ hy hform'
  rw [hp] at hverify'
  obtain ⟨va, vr, rfl, hva, hvr⟩ := mapM_symbol_append hvalues
  obtain ⟨vx, vb, rfl, hvx, hvb⟩ := mapM_symbol_append hvr
  obtain ⟨va', vr', rfl, hva', hvr'⟩ := mapM_symbol_append hvalues'
  obtain ⟨vy, vb', rfl, hvy, hvb'⟩ := mapM_symbol_append hvr'
  obtain rfl : va = va' := Option.some.inj (hva.symm.trans hva')
  obtain rfl : vb = vb' := Option.some.inj (hvb.symm.trans hvb')
  obtain ⟨hsx, hmx⟩ := mapM_symbol_iff.mp hvx
  obtain ⟨hsy, hmy⟩ := mapM_symbol_iff.mp hvy
  have hlx : vx.length = x.length := by simpa using (congrArg List.length hmx).symm
  have hly : vy.length = y.length := by simpa using (congrArg List.length hmy).symm
  have hvalue := burst_detected (by omega) (by omega) hsx hsy hverify hverify'
  rw [hmx, hmy, hvalue]

/-- The address without a payload, in small and in capital letters. -/
theorem decode_burst_capitals :
    (decode ([] ++ (utf8 "uaskutjk" ++ [])) (utf8 "bchtest")).1 ≠ [] ∧
      (decode ([] ++ (utf8 "UASKUTJK" ++ [])) (utf8 "bchtest")).1 ≠ [] ∧
      (utf8 "uaskutjk").map toLower = (utf8 "UASKUTJK").map toLower := by
  have hx : (decode ([] ++ (utf8 "uaskutjk" ++ [])) (utf8 "bchtest")).1 ≠ [] := by decide +kernel
  have hy : (decode ([] ++ (utf8 "UASKUTJK" ++ [])) (utf8 "bchtest")).1 ≠ [] := by decide +kernel
  exact ⟨hx, hy, decode_burst (by decide) (by decide) (by decide) (by decide) hx hy⟩

end CashAddr
end Shulcrum
