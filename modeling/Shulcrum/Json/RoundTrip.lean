import Shulcrum.Json.Values
import Shulcrum.Json.Written
import Shulcrum.Lib.Fallible

/-!
# Reading back what was written

The text `serialize` writes for null, booleans, integers, strings, lists and
maps is spelled with the tokens of the grammar.  The writer goes down to another
nesting than the parser does, and the parser loses a byte order mark at the start
of a string.

**Results.**
* `exists_reading`: what is written is a value of the grammar, as deep as the
  value is nested, and is converted to its `parsed` form.
* `parse_serialize_iff`: the parser returns the value if and only if it is nested
  at most `maxJsonDepth` deep and no string of it starts with a byte order mark.
-/

namespace Shulcrum
namespace Json

open Fallible

section Values

variable {P : Platform}

/-! ## Text that reads as tokens -/

/-- Before every text, these bytes add the tokens. -/
def Reads (toks : List Tok) (bytes : QByteArray) : Prop :=
  ∀ us raw, Spells us raw → Spells (toks ++ us) (bytes ++ raw)

variable {toks ts us : List Tok} {bytes text : QByteArray}

theorem Reads.append {bytes' : QByteArray} (h : Reads ts bytes) (h' : Reads us bytes') :
    Reads (ts ++ us) (bytes ++ bytes') := by
  intro xs raw hraw
  rw [List.append_assoc, List.append_assoc]
  exact h _ _ (h' _ _ hraw)

theorem reads_blank {ws : QByteArray} (hws : Blank ws) : Reads [] ws := by
  intro us raw h
  cases h with
  | nil hraw => exact .nil fun ch hch => (List.mem_append.mp hch).elim (hws ch) (hraw ch)
  | @cons tok us ws' text rest hws' htext hrest =>
      have happ : ws ++ (ws' ++ text ++ rest) = (ws ++ ws') ++ text ++ rest := by simp
      rw [happ]
      exact .cons (fun ch hch => (List.mem_append.mp hch).elim (hws ch) (hws' ch)) htext hrest

theorem reads_token {tok : Tok} (h : TokText tok text) : Reads [tok] text :=
  fun _ _ hraw => @Spells.cons _ _ [] _ _ (fun _ hch => by cases hch) h hraw

theorem Reads.spells (h : Reads toks bytes) : Spells toks bytes := by
  have hspell := h [] [] (.nil fun _ hch => by cases hch)
  rwa [List.append_nil, List.append_nil] at hspell

theorem blank_indentStr (prettyIndent indentLevel : UInt32) :
    Blank (indentStr prettyIndent indentLevel) := by
  rw [indentStr]
  split_ifs
  · intro ch hch
    rw [List.eq_of_mem_replicate hch]
    rfl
  · intro ch hch
    cases hch

theorem blank_lineEnd (prettyIndent : UInt32) : Blank (lineEnd prettyIndent) := by
  rw [lineEnd]
  split_ifs
  · intro ch hch
    rw [List.mem_singleton.mp hch]
    rfl
  · intro ch hch
    cases hch

/-- The comma after an element that is not the last. -/
def separator (last : Bool) : List Tok := if last then [] else [.comma]

theorem reads_writeElement (h : Reads toks bytes) (prettyIndent indentLevel : UInt32)
    (last : Bool) :
    Reads (toks ++ separator last) (writeElement prettyIndent indentLevel last bytes) := by
  have hindent := reads_blank (blank_indentStr prettyIndent indentLevel)
  have hend := reads_blank (blank_lineEnd prettyIndent)
  rw [writeElement, separator]
  cases last with
  | true =>
      have hnone : Reads [] [] := reads_blank fun _ hch => by cases hch
      have hall := (hindent.append h).append (hnone.append hend)
      simpa using hall
  | false =>
      have hall := ((hindent.append h).append (reads_token .comma)).append hend
      simpa using hall

theorem reads_writeBrackets {opening closing : Tok} {o c : UInt8} (h : Reads toks bytes)
    (ho : TokText opening [o]) (hc : TokText closing [c]) (prettyIndent indentLevel : UInt32) :
    Reads (opening :: (toks ++ [closing])) (writeBrackets o c prettyIndent indentLevel bytes) := by
  have hindent := reads_blank (blank_indentStr prettyIndent (indentLevel - 1))
  have hend := reads_blank (blank_lineEnd prettyIndent)
  have hall := (((reads_token ho).append hend).append h).append (hindent.append (reads_token hc))
  simpa [writeBrackets] using hall

/-! ## The grammar from the front -/

mutual

theorem Elements.cons {n : Nat} {ts us : List Tok} {c : Container} {cs : List Container}
    (hc : Value n us c) : Elements n ts cs → Elements n (us ++ .comma :: ts) (c :: cs)
  | .one h => .more (.one hc) h
  | .more h hv => by
      have hall := (Elements.cons hc h).more hv
      rwa [List.append_assoc, List.cons_append] at hall

theorem Members.cons {n : Nat} {ts us : List Tok} {k : QByteArray} {c : Container}
    {es : List (QByteArray × Container)} (hc : Value n us c) :
    Members n ts es → Members n (.string k :: .colon :: (us ++ .comma :: ts)) ((k, c) :: es)
  | .one h => .more (.one hc) h
  | .more (k := k') h hv => by
      have hall := Members.more (k := k') (Members.cons (k := k) hc h) hv
      simpa using hall

end

/-! ## Reading a value -/

/--
What `QString::fromUtf8` makes of the bytes of `QString::toUtf8`: the string, but
a byte order mark at its start is skipped.
-/
def SkipsBom (P : Platform) : Prop := ∀ s : QString, P.fromUtf8 s.toUtf8 = s.withoutBom

/-- The text of a value is read as a tree, which is converted to the parsed value. -/
structure Reading (v : Variant P.Double) (bytes : QByteArray) (toks : List Tok) (c : Container) :
    Prop where
  reads : Reads toks bytes
  value : ∀ n, v.depth ≤ n → Value n toks c
  depth : c.depth = v.depth
  toVariant : c.toVariant P = some v.parsed

/-- The text of the elements of a list. -/
structure ReadingAll (vs : List (Variant P.Double)) (bytes : QByteArray) (toks : List Tok)
    (cs : List Container) : Prop where
  reads : Reads toks bytes
  elements : ∀ n, variantsDepth vs ≤ n → Elements n toks cs
  depth : depthOfAll cs = variantsDepth vs
  toVariants : toVariants P cs = some (parsedAll vs)

/-- The text of the entries of a map. -/
structure ReadingEntries (entries : List (QString × Variant P.Double)) (bytes : QByteArray)
    (toks : List Tok) (es : List (QByteArray × Container)) : Prop where
  reads : Reads toks bytes
  members : ∀ n, entriesDepth entries ≤ n → Members n toks es
  depth : depthOfEntries es = entriesDepth entries
  toVariantMap : ∀ vm, toVariantMap P vm es =
    some (SortedEntries.assignAll vm (parsedEntries entries))

theorem reading_scalar {v : Variant P.Double} {tok : Tok} {c : Container} (hc : Scalar tok c)
    (htext : TokText tok bytes) (hdepth : v.depth = 0)
    (hv : c.toVariant P = some v.parsed) : Reading v bytes [tok] c where
  reads := reads_token htext
  value n _ := hc.value n
  depth := by
    rw [hdepth]
    cases hc <;> rfl
  toVariant := hv

theorem reading_longlong (i : Int64) :
    Reading (P := P) (.longlong i) (printInt i.toInt) [.number (printInt i.toInt)]
      (.num (printInt i.toInt)) := by
  have hrange := i.le_toInt
  have hrange' := i.toInt_lt
  rw [printInt]
  split_ifs with hneg
  · have hint := isInt_printNat (-i.toInt).toNat
    refine reading_scalar .number (.number (isNumber_of_negative hint)) rfl ?_
    have hlen : (printNat (-i.toInt).toNat).length ≤ 20 := length_printNat_le (by omega)
    have hnot : ¬ 0 ≤ i.toInt := by omega
    rw [Container.toVariant, numToVariant_negative hint (by omega), decimal_printNat,
      if_pos (by omega), Variant.parsed, normalInt, if_neg hnot]
    have hi : (-((-i.toInt).toNat : Int)) = i.toInt := by omega
    rw [hi, Int64.ofInt_toInt]
  · have hint := isInt_printNat i.toInt.toNat
    refine reading_scalar .number (.number (isNumber_of_isInt hint)) rfl ?_
    have hlen : (printNat i.toInt.toNat).length ≤ 20 := length_printNat_le (by omega)
    rw [Container.toVariant, numToVariant_nonnegative hint (by omega), decimal_printNat,
      if_pos (by omega), Variant.parsed, normalInt, if_pos (by omega)]

theorem reading_ulonglong (u : UInt64) :
    Reading (P := P) (.ulonglong u) (printNat u.toNat) [.number (printNat u.toNat)]
      (.num (printNat u.toNat)) := by
  have hrange := u.toNat_lt
  have hint := isInt_printNat u.toNat
  refine reading_scalar .number (.number (isNumber_of_isInt hint)) rfl ?_
  have hlen : (printNat u.toNat).length ≤ 20 := length_printNat_le (by omega)
  rw [Container.toVariant, numToVariant_nonnegative hint (by omega), decimal_printNat,
    if_pos hrange, UInt64.ofNat_toNat]
  rfl

theorem reading_list {vs : List (Variant P.Double)} {cs : List Container}
    (h : ReadingAll vs bytes toks cs) (prettyIndent indentLevel : UInt32) :
    Reading (.list vs) (writeBrackets 0x5b 0x5d prettyIndent indentLevel bytes)
      (.arrOpen :: (toks ++ [.arrClose])) (.arr cs) where
  reads := reads_writeBrackets h.reads .arrOpen .arrClose prettyIndent indentLevel
  value n hn := by
    cases n with
    | zero => simp [Variant.depth] at hn
    | succ n => exact .array (h.elements n (Nat.le_of_succ_le_succ hn))
  depth := by rw [Container.depth, h.depth, Variant.depth]
  toVariant := by rw [Container.toVariant, h.toVariants, Option.map_some, Variant.parsed]

theorem reading_nil (prettyIndent indentLevel : UInt32) :
    Reading (P := P) (.list []) (writeBrackets 0x5b 0x5d prettyIndent indentLevel [])
      [.arrOpen, .arrClose] (.arr []) where
  reads := reads_writeBrackets (reads_blank fun _ hch => by cases hch) .arrOpen .arrClose
    prettyIndent indentLevel
  value n hn := by
    cases n with
    | zero => simp [Variant.depth] at hn
    | succ n => exact .emptyArray
  depth := rfl
  toVariant := rfl

/-- Maps and hashes are written alike. -/
theorem reading_entries {v : Variant P.Double} {entries : List (QString × Variant P.Double)}
    {es : List (QByteArray × Container)} (h : ReadingEntries entries bytes toks es)
    (hdepth : v.depth = entriesDepth entries + 1)
    (hparsed : v.parsed = .map (SortedEntries.assignAll [] (parsedEntries entries)))
    (prettyIndent indentLevel : UInt32) :
    Reading v (writeBrackets 0x7b 0x7d prettyIndent indentLevel bytes)
      (.objOpen :: (toks ++ [.objClose])) (.obj es) where
  reads := reads_writeBrackets h.reads .objOpen .objClose prettyIndent indentLevel
  value n hn := by
    rw [hdepth] at hn
    cases n with
    | zero => simp at hn
    | succ n => exact .object (h.members n (Nat.le_of_succ_le_succ hn))
  depth := by rw [Container.depth, h.depth, hdepth]
  toVariant := by rw [Container.toVariant, h.toVariantMap, Option.map_some, hparsed]

theorem reading_noEntries {v : Variant P.Double} (hdepth : v.depth = 1)
    (hparsed : v.parsed = .map []) (prettyIndent indentLevel : UInt32) :
    Reading v (writeBrackets 0x7b 0x7d prettyIndent indentLevel []) [.objOpen, .objClose]
      (.obj []) where
  reads := reads_writeBrackets (reads_blank fun _ hch => by cases hch) .objOpen .objClose
    prettyIndent indentLevel
  value n hn := by
    rw [hdepth] at hn
    cases n with
    | zero => simp at hn
    | succ n => exact .emptyObject
  depth := by
    rw [hdepth]
    rfl
  toVariant := by
    rw [hparsed]
    rfl

theorem of_checkRecursion {recursionDepth : Nat} {x : Except WriteError QByteArray}
    (h : (do checkRecursion recursionDepth; x) = .ok bytes) : x = .ok bytes := by
  obtain ⟨_, _, hx⟩ := bind_eq_ok.mp h
  exact hx

/-- One more element in front. -/
theorem readingAll_cons {v : Variant P.Double} {vs : List (Variant P.Double)}
    {element rest : QByteArray} {c : Container} {prettyIndent indentLevel : UInt32}
    (h : Reading v element us c)
    (hrest : vs = [] ∧ rest = [] ∨ vs ≠ [] ∧ ∃ ts cs, ReadingAll vs rest ts cs) :
    ∃ toks cs, ReadingAll (v :: vs)
      (writeElement prettyIndent indentLevel vs.isEmpty element ++ rest) toks cs := by
  rcases hrest with ⟨rfl, rfl⟩ | ⟨hne, ts, cs, hvs⟩
  · refine ⟨us, [c], ?_, fun n hn => .one (h.value n ?_), ?_, ?_⟩
    · have hreads := reads_writeElement h.reads prettyIndent indentLevel true
      simpa [separator] using hreads
    · rwa [variantsDepth, variantsDepth, Nat.max_zero] at hn
    · rw [depthOfAll, depthOfAll, h.depth, variantsDepth, variantsDepth]
    · rw [toVariants, h.toVariant]
      rfl
  · have hempty : vs.isEmpty = false := by simpa using hne
    refine ⟨us ++ .comma :: ts, c :: cs, ?_, fun n hn => ?_, ?_, ?_⟩
    · have hreads := (reads_writeElement h.reads prettyIndent indentLevel false).append hvs.reads
      rw [hempty]
      simpa [separator] using hreads
    · rw [variantsDepth] at hn
      exact (hvs.elements n (le_trans (le_max_right _ _) hn)).cons
        (h.value n (le_trans (le_max_left _ _) hn))
    · rw [depthOfAll, h.depth, hvs.depth, variantsDepth]
    · rw [toVariants, h.toVariant, hvs.toVariants]
      rfl

/-- One more entry in front. -/
theorem readingEntries_cons {k : QString} {v : Variant P.Double}
    {entries : List (QString × Variant P.Double)} {element rest : QByteArray} {c : Container}
    {prettyIndent indentLevel : UInt32} (hP : SkipsBom P) (h : Reading v element us c)
    (hrest : entries = [] ∧ rest = [] ∨
      entries ≠ [] ∧ ∃ ts es, ReadingEntries entries rest ts es) :
    ∃ toks es, ReadingEntries ((k, v) :: entries)
      (writeElement prettyIndent indentLevel entries.isEmpty
        (writeString k.toUtf8 ++ [0x3a] ++ (if prettyIndent ≠ 0 then [0x20] else []) ++ element)
        ++ rest) toks es := by
  have hspace : Blank (if prettyIndent ≠ 0 then [0x20] else []) := by
    split_ifs
    · intro ch hch
      rw [List.mem_singleton.mp hch]
      rfl
    · intro ch hch
      cases hch
  have hmember : Reads (.string k.toUtf8 :: .colon :: us) (writeString k.toUtf8 ++ [0x3a] ++
      (if prettyIndent ≠ 0 then [0x20] else []) ++ element) :=
    (((reads_token (tokText_writeString k)).append (reads_token .colon)).append
      (reads_blank hspace)).append h.reads
  rcases hrest with ⟨rfl, rfl⟩ | ⟨hne, ts, es, hentries⟩
  · refine ⟨.string k.toUtf8 :: .colon :: us, [(k.toUtf8, c)], ?_,
      fun n hn => .one (h.value n ?_), ?_, fun vm => ?_⟩
    · have hreads := reads_writeElement hmember prettyIndent indentLevel true
      simpa [separator] using hreads
    · rwa [entriesDepth, entriesDepth, Nat.max_zero] at hn
    · rw [depthOfEntries, depthOfEntries, h.depth, entriesDepth, entriesDepth]
    · rw [toVariantMap, h.toVariant, hP k]
      rfl
  · have hempty : entries.isEmpty = false := by simpa using hne
    refine ⟨.string k.toUtf8 :: .colon :: (us ++ .comma :: ts), (k.toUtf8, c) :: es, ?_,
      fun n hn => ?_, ?_, fun vm => ?_⟩
    · have hreads := (reads_writeElement hmember prettyIndent indentLevel false).append
        hentries.reads
      rw [hempty]
      simpa [separator] using hreads
    · rw [entriesDepth] at hn
      exact (hentries.members n (le_trans (le_max_right _ _) hn)).cons
        (h.value n (le_trans (le_max_left _ _) hn))
    · rw [depthOfEntries, h.depth, hentries.depth, entriesDepth]
    · rw [toVariantMap, h.toVariant, hP k]
      exact hentries.toVariantMap _

mutual

/-- What is written for a value reads as the parsed value. -/
theorem exists_reading (hP : SkipsBom P) {prettyIndent indentLevel : UInt32} {recursionDepth : Nat}
    {bytes : QByteArray} : (v : Variant P.Double) → v.Plain →
    writeVariant P prettyIndent indentLevel recursionDepth v = .ok bytes →
    ∃ toks c, Reading v bytes toks c
  | .null, _, h => by
      rw [writeVariant] at h
      cases of_checkRecursion h
      exact ⟨_, _, reading_scalar .kwNull .kwNull rfl rfl⟩
  | .bool b, _, h => by
      rw [writeVariant] at h
      cases of_checkRecursion h
      cases b with
      | false => exact ⟨_, _, reading_scalar .kwFalse .kwFalse rfl rfl⟩
      | true => exact ⟨_, _, reading_scalar .kwTrue .kwTrue rfl rfl⟩
  | .longlong i, _, h => by
      rw [writeVariant] at h
      cases of_checkRecursion h
      exact ⟨_, _, reading_longlong i⟩
  | .ulonglong u, _, h => by
      rw [writeVariant] at h
      cases of_checkRecursion h
      exact ⟨_, _, reading_ulonglong u⟩
  | .string s, _, h => by
      rw [writeVariant] at h
      cases of_checkRecursion h
      exact ⟨_, _, reading_scalar .string (tokText_writeString s) rfl
        (congrArg (fun s => some (Variant.string s)) (hP s))⟩
  | .list vs, hplain, h => by
      rw [writeVariant] at h
      obtain ⟨elements, hvs, hb⟩ := bind_eq_ok.mp (of_checkRecursion h)
      cases hb
      rcases exists_readingAll hP vs hplain hvs with ⟨rfl, rfl⟩ | ⟨_, toks, cs, hall⟩
      · exact ⟨_, _, reading_nil _ _⟩
      · exact ⟨_, _, reading_list hall _ _⟩
  | .map entries, hplain, h => by
      rw [writeVariant] at h
      obtain ⟨elements, hes, hb⟩ := bind_eq_ok.mp (of_checkRecursion h)
      cases hb
      rcases exists_readingEntries hP entries hplain.2 hes with ⟨rfl, rfl⟩ | ⟨_, toks, es, hall⟩
      · exact ⟨_, _, reading_noEntries rfl rfl _ _⟩
      · exact ⟨_, _, reading_entries hall rfl rfl _ _⟩
  | .hash entries, hplain, h => by
      rw [writeVariant] at h
      obtain ⟨elements, hes, hb⟩ := bind_eq_ok.mp (of_checkRecursion h)
      cases hb
      rcases exists_readingEntries hP entries hplain.2 hes with ⟨rfl, rfl⟩ | ⟨_, toks, es, hall⟩
      · exact ⟨_, _, reading_noEntries rfl rfl _ _⟩
      · exact ⟨_, _, reading_entries hall rfl rfl _ _⟩
  | .double _, hplain, _ | .byteArray _, hplain, _ | .stringList _, hplain, _
  | .byteArrayList _, hplain, _ | .unsupported, hplain, _ => hplain.elim

theorem exists_readingAll (hP : SkipsBom P) {prettyIndent indentLevel : UInt32}
    {recursionDepth : Nat} {bytes : QByteArray} : (vs : List (Variant P.Double)) → AllPlain vs →
    writeVariants P prettyIndent indentLevel recursionDepth vs = .ok bytes →
    vs = [] ∧ bytes = [] ∨ vs ≠ [] ∧ ∃ toks cs, ReadingAll vs bytes toks cs
  | [], _, h => by
      rw [writeVariants] at h
      cases h
      exact .inl ⟨rfl, rfl⟩
  | v :: vs, hplain, h => by
      rw [writeVariants] at h
      obtain ⟨element, hv, h⟩ := bind_eq_ok.mp h
      obtain ⟨rest, hvs, h⟩ := bind_eq_ok.mp h
      cases h
      obtain ⟨us, c, hread⟩ := exists_reading hP v hplain.1 hv
      exact .inr ⟨by simp, readingAll_cons hread (exists_readingAll hP vs hplain.2 hvs)⟩

theorem exists_readingEntries (hP : SkipsBom P) {prettyIndent indentLevel : UInt32}
    {recursionDepth : Nat} {bytes : QByteArray} :
    (entries : List (QString × Variant P.Double)) → EntriesPlain entries →
    writeEntries P prettyIndent indentLevel recursionDepth entries = .ok bytes →
    entries = [] ∧ bytes = [] ∨ entries ≠ [] ∧ ∃ toks es, ReadingEntries entries bytes toks es
  | [], _, h => by
      rw [writeEntries] at h
      cases h
      exact .inl ⟨rfl, rfl⟩
  | (k, v) :: entries, hplain, h => by
      rw [writeEntries] at h
      obtain ⟨element, hv, h⟩ := bind_eq_ok.mp h
      obtain ⟨rest, hvs, h⟩ := bind_eq_ok.mp h
      cases h
      obtain ⟨us, c, hread⟩ := exists_reading hP v hplain.1 hv
      exact .inr ⟨by simp,
        readingEntries_cons hP hread (exists_readingEntries hP entries hplain.2 hvs)⟩

end

/-! ## The round trip -/

variable {v : Variant P.Double} {prettyIndent indentLevel : UInt32}

theorem parse_serialize (hP : SkipsBom P) (hplain : v.Plain)
    (h : serialize P v prettyIndent indentLevel = .ok bytes) (hdepth : v.depth ≤ maxJsonDepth) :
    parse P bytes = some v.parsed := by
  obtain ⟨toks, c, hread⟩ := exists_reading hP v hplain h
  exact parse_eq_some.mpr ⟨toks, c, hread.reads.spells, hread.value _ hdepth, hread.toVariant⟩

theorem parse_serialize_deep (hP : SkipsBom P) (hplain : v.Plain)
    (h : serialize P v prettyIndent indentLevel = .ok bytes) (hdepth : maxJsonDepth < v.depth) :
    parse P bytes = none := by
  obtain ⟨toks, c, hread⟩ := exists_reading hP v hplain h
  have hvalue := hread.value _ (Nat.le_refl _)
  rw [Option.eq_none_iff_forall_ne_some]
  intro w hw
  obtain ⟨toks', c', hspell, hvalue', _⟩ := parse_eq_some.mp hw
  have htoks := hread.reads.spells.unique hvalue.separated hspell hvalue'.separated
  subst htoks
  have hle := hvalue'.depth_le
  rw [hvalue'.depth_eq hvalue, hread.depth] at hle
  omega

/-- Lists in lists, with an empty one inside `n` others. -/
def nestedLists {D : Type} : Nat → Variant D
  | 0 => .list []
  | n + 1 => .list [nestedLists n]

theorem nestedLists_facts {D : Type} (n : Nat) :
    (nestedLists n : Variant D).Plain ∧ (nestedLists n : Variant D).depth = n + 1 := by
  induction n with
  | zero => exact ⟨trivial, rfl⟩
  | succ n ih =>
      obtain ⟨hplain, hdepth⟩ := ih
      refine ⟨⟨hplain, trivial⟩, ?_⟩
      rw [nestedLists, Variant.depth, variantsDepth, variantsDepth, hdepth, Nat.max_zero]

/-- The writer goes down to its own limit. -/
theorem exists_writeVariant_nestedLists (n recursionDepth : Nat) (indentLevel : UInt32)
    (h : recursionDepth + n ≤ maxRecursionDepth) :
    ∃ bytes, writeVariant P 0 indentLevel recursionDepth (nestedLists n) = .ok bytes := by
  induction n generalizing recursionDepth indentLevel with
  | zero =>
      refine ⟨writeBrackets 0x5b 0x5d 0 (max indentLevel 1) [], ?_⟩
      rw [nestedLists, writeVariant, checkRecursion, if_neg (by omega)]
      rfl
  | succ n ih =>
      obtain ⟨bytes, hbytes⟩ := ih (recursionDepth + 1) (max indentLevel 1 + 1) (by omega)
      refine ⟨writeBrackets 0x5b 0x5d 0 (max indentLevel 1)
        (writeElement 0 (max indentLevel 1) true bytes ++ []), ?_⟩
      have hall : writeVariants P 0 (max indentLevel 1) recursionDepth [nestedLists n] =
          .ok (writeElement 0 (max indentLevel 1) true bytes ++ []) := by
        rw [writeVariants, hbytes]
        rfl
      have hcheck : checkRecursion recursionDepth = .ok () := if_neg (by omega)
      simp only [nestedLists, writeVariant, hcheck, hall]
      rfl

/-- What was written for a value is read back if and only if the value is nested
at most `maxJsonDepth` deep and none of its strings and keys starts with a byte
order mark. -/
theorem parse_serialize_iff (P : Platform) (hP : SkipsBom P) (v : Variant P.Double)
    (prettyIndent indentLevel : UInt32) (bytes : QByteArray) (hplain : v.Plain)
    (h : serialize P v prettyIndent indentLevel = .ok bytes) :
    parse P bytes = some v.normal ↔ v.depth ≤ maxJsonDepth ∧ v.Strings QString.NoBom := by
  by_cases hdepth : v.depth ≤ maxJsonDepth
  · rw [parse_serialize hP hplain h hdepth, Option.some.injEq, parsed_iff hplain,
      and_iff_right hdepth]
  · rw [parse_serialize_deep hP hplain h (not_le.mp hdepth)]
    simp [hdepth]

/-- Strings are UTF-8, as for Qt, and there is no floating point. -/
def utf8Platform : Platform where
  Double := Unit
  strtod _ := { value := (), rangeError := true, parsed := 0 }
  printDouble _ := none
  fromUtf8 ba := QString.withoutBom ⟨(ba.toByteArray.utf8Decode?.getD #[]).toList⟩

theorem skipsBom_utf8Platform : SkipsBom utf8Platform := by
  intro s
  have hdecode : s.toUtf8.toByteArray.utf8Decode? = some s.chars.toArray :=
    List.utf8Decode?_utf8Encode
  simp [utf8Platform, hdecode]

/-- A list of a negative number and a map, with a byte order mark at the end of a string. -/
theorem parse_serialize_iff_list :
    let v : Variant utf8Platform.Double :=
      .list [.longlong (-1), .map [(⟨['a']⟩, .string ⟨['b', byteOrderMark]⟩)]]
    ∃ bytes, serialize utf8Platform v 4 0 = .ok bytes ∧
      (parse utf8Platform bytes = some v.normal ↔
        v.depth ≤ maxJsonDepth ∧ v.Strings QString.NoBom) := by
  intro v
  have hplain : v.Plain := ⟨trivial, ⟨List.pairwise_singleton _ _, trivial, trivial⟩, trivial⟩
  exact ⟨_, rfl, parse_serialize_iff utf8Platform skipsBom_utf8Platform v 4 0 _ hplain rfl⟩

/-- The text of 513 lists in each other is written but not read. -/
theorem serialize_too_deep :
    SkipsBom utf8Platform ∧ (nestedLists 512 : Variant utf8Platform.Double).Plain ∧
    ∃ bytes, serialize utf8Platform (nestedLists 512) 0 0 = .ok bytes ∧
      parse utf8Platform bytes = none := by
  obtain ⟨hplain, hdepth⟩ := nestedLists_facts (D := utf8Platform.Double) 512
  obtain ⟨bytes, hbytes⟩ :=
    exists_writeVariant_nestedLists (P := utf8Platform) 512 0 0 (by decide)
  refine ⟨skipsBom_utf8Platform, hplain, bytes, hbytes,
    parse_serialize_deep skipsBom_utf8Platform hplain hbytes ?_⟩
  rw [hdepth]
  decide

/-- A byte order mark at the start of a string is written, and lost when the text is read. -/
theorem parse_leading_bom :
    ∃ bytes, serialize utf8Platform (.string ⟨[byteOrderMark, 'a']⟩) 0 0 = .ok bytes ∧
      parse utf8Platform bytes = some (.string ⟨['a']⟩) := by
  have hplain : (Variant.string ⟨[byteOrderMark, 'a']⟩ : Variant utf8Platform.Double).Plain :=
    trivial
  obtain ⟨bytes, hbytes⟩ : ∃ bytes,
      serialize utf8Platform (.string ⟨[byteOrderMark, 'a']⟩) 0 0 = .ok bytes := ⟨_, rfl⟩
  exact ⟨bytes, hbytes, parse_serialize skipsBom_utf8Platform hplain hbytes (Nat.zero_le _)⟩

end Values

end Json
end Shulcrum
