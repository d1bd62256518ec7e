import Shulcrum.Json.Lexer
import Shulcrum.Json.Machine

/-!
# The parser and the grammar

The loop of `parse` over bytes is the loop over the tokens they spell.  What a
number is followed by in a value of the grammar ends its token, so the tokens
of a spelling are the tokens that are read.

**Results.**
* `parseLoop_iff`: the loop reads the values of the grammar, and builds their trees.
* `toVariant_iff`: what a tree is converted to.
* `parse_iff`: the parser accepts the grammar and returns the value it denotes.
-/

namespace Shulcrum
namespace Json

variable {n : Nat} {toks ts us : List Tok} {tok : Tok} {raw rest : List UInt8}
  {s s' : ParseState} {c : Container}

/-! ## What follows a number -/

/-- Tokens that may follow a number. -/
def Tok.endsNumber (tok : Tok) : Prop := tok = .comma ∨ tok = .arrClose ∨ tok = .objClose

/-- A number is followed by a token that ends it. -/
def Follows (a b : Tok) : Prop := (∃ data, a = .number data) → b.endsNumber

/-- No number runs into another token. -/
abbrev Separated (toks : List Tok) : Prop := toks.IsChain Follows

theorem separated_append (hts : Separated ts) (hus : Separated us)
    (hend : ∀ b ∈ us.head?, b.endsNumber) : Separated (ts ++ us) :=
  List.isChain_append.mpr ⟨hts, hus, fun _ _ b hb _ => hend b hb⟩

theorem separated_cons (htok : ∀ data, tok ≠ .number data) (hts : Separated ts) :
    Separated (tok :: ts) := by
  refine List.isChain_cons.mpr ⟨fun b _ hnum => ?_, hts⟩
  obtain ⟨data, hdata⟩ := hnum
  exact absurd hdata (htok data)

theorem separated_close {close : Tok} (hclose : close.endsNumber) (hts : Separated ts) :
    Separated (ts ++ [close]) :=
  separated_append hts (List.isChain_singleton _) fun b hb => by
    rw [List.head?_cons, Option.mem_some_iff] at hb
    exact hb ▸ hclose

theorem separated_comma (hts : Separated ts) (hus : Separated us) :
    Separated (ts ++ .comma :: us) :=
  separated_append hts (separated_cons (by simp) hus) fun b hb => by
    rw [List.head?_cons, Option.mem_some_iff] at hb
    exact .inl hb.symm

mutual

theorem Value.separated {n : Nat} {ts : List Tok} {c : Container} :
    Value n ts c → Separated ts
  | .kwNull | .kwTrue | .kwFalse | .number | .string => List.isChain_singleton _
  | .emptyArray => separated_cons (by simp) (List.isChain_singleton _)
  | .array h => separated_cons (by simp) (separated_close (.inr (.inl rfl)) h.separated)
  | .emptyObject => separated_cons (by simp) (List.isChain_singleton _)
  | .object h => separated_cons (by simp) (separated_close (.inr (.inr rfl)) h.separated)

theorem Elements.separated {n : Nat} {ts : List Tok} {cs : List Container} :
    Elements n ts cs → Separated ts
  | .one h => h.separated
  | .more h hv => separated_comma h.separated hv.separated

theorem Members.separated {n : Nat} {ts : List Tok} {es : List (QByteArray × Container)} :
    Members n ts es → Separated ts
  | .one h => separated_cons (by simp) (separated_cons (by simp) h.separated)
  | .more h hv => separated_comma h.separated
      (separated_cons (by simp) (separated_cons (by simp) hv.separated))

end

theorem noNumber_of_space {ch : UInt8} (h : jsonIsSpace ch = true) :
    jsonIsDigit ch = false ∧ ch ≠ 0x2e ∧ ch ≠ 0x65 ∧ ch ≠ 0x45 := by
  simp only [jsonIsSpace, Bool.or_eq_true, decide_eq_true_eq] at h
  rcases h with ((rfl | rfl) | rfl) | rfl <;> decide

/-- What ends a number is no part of it. -/
theorem noNumber_of_ends {ws text : QByteArray} (hws : Blank ws) (htok : tok.endsNumber)
    (htext : TokText tok text) (rest : List UInt8) : NoNumber (ws ++ text ++ rest) := by
  intro ch hch
  cases ws with
  | nil =>
      rcases htok with rfl | rfl | rfl <;> cases htext <;>
        rw [List.nil_append, List.singleton_append, List.head?_cons, Option.mem_some_iff] at hch <;>
        subst hch <;> decide
  | cons w ws =>
      have hw := hws w List.mem_cons_self
      rw [List.cons_append, List.cons_append, List.head?_cons, Option.mem_some_iff] at hch
      subst hch
      exact noNumber_of_space hw

/-- The text after a number cannot continue it. -/
theorem Spells.noNumber (h : Spells toks raw) (hends : ∀ b ∈ toks.head?, b.endsNumber) :
    NoNumber raw := by
  cases h with
  | nil hws =>
      intro ch hch
      exact noNumber_of_space (hws ch (List.mem_of_mem_head? hch))
  | cons hws htext _ => exact noNumber_of_ends hws (hends _ rfl) htext _

/-! ## The loops -/

theorem parseLoop_of_token {fuel : Nat} (h : getJsonToken raw = (tok, rest)) (hnone : tok ≠ .none)
    (herr : tok ≠ .err) :
    parseLoop (fuel + 1) s raw =
      match s.step tok with
      | none => none
      | some s' => if s'.stack.isEmpty then some (s', rest) else parseLoop fuel s' rest := by
  rw [parseLoop, h]
  cases tok with
  | none => exact absurd rfl hnone
  | err => exact absurd rfl herr
  | _ => rfl

theorem TokText.ne (h : TokText tok raw) : tok ≠ .none ∧ tok ≠ .err := by
  cases h <;> simp

/-- A text is spelled in one way, if no number runs into another token. -/
theorem Spells.unique {toks toks' : List Tok} {raw : List UInt8} (h : Spells toks raw)
    (hsep : Separated toks) (h' : Spells toks' raw) (hsep' : Separated toks') : toks = toks' := by
  have hread : ∀ {tok : Tok} {toks : List Tok} {ws text rest : QByteArray}, Blank ws →
      TokText tok text → Spells toks rest → Separated (tok :: toks) →
      getJsonToken (ws ++ text ++ rest) = (tok, rest) := by
    intro tok toks ws text rest hws htext hspell hsep
    exact getJsonToken_spelled hws htext fun data hdata =>
      hspell.noNumber fun b hb => (List.isChain_cons.mp hsep).1 b hb ⟨data, hdata⟩
  induction h generalizing toks' with
  | nil hblank =>
      cases h' with
      | nil _ => rfl
      | cons hws htext hspell =>
          have hnone := getJsonToken_none_iff.mpr hblank
          rw [hread hws htext hspell hsep'] at hnone
          exact absurd hnone htext.ne.1
  | @cons tok toks ws text rest hws htext hspell ih =>
      have hget := hread hws htext hspell hsep
      generalize hraw : ws ++ text ++ rest = raw at hget h'
      cases h' with
      | nil hblank =>
          have hnone := getJsonToken_none_iff.mpr hblank
          rw [hget] at hnone
          exact absurd hnone htext.ne.1
      | cons hws' htext' hspell' =>
          rw [hread hws' htext' hspell' hsep'] at hget
          cases hget
          rw [ih (List.isChain_cons.mp hsep).2 hspell' (List.isChain_cons.mp hsep').2]

/-- A loop over bytes reads tokens. -/
theorem exists_tokens_of_parseLoop {fuel : Nat} (h : parseLoop fuel s raw = some (s', rest)) :
    ∃ toks, tokenLoop s toks = some (s', []) ∧
      ∀ us, Spells us rest → Spells (toks ++ us) raw := by
  induction fuel generalizing s raw with
  | zero => cases h
  | succ fuel ih =>
      obtain ⟨tok, raw', hget⟩ : ∃ tok raw', getJsonToken raw = (tok, raw') := ⟨_, _, rfl⟩
      have hnone : tok ≠ .none := by
        rintro rfl
        rw [parseLoop, hget] at h
        cases h
      have herr : tok ≠ .err := by
        rintro rfl
        rw [parseLoop, hget] at h
        cases h
      obtain ⟨ws, text, rfl, hws, htext⟩ := exists_text_of_getJsonToken hget hnone herr
      rw [parseLoop_of_token hget hnone herr] at h
      cases hstep : s.step tok with
      | none => simp [hstep] at h
      | some s₁ =>
          rw [hstep] at h
          dsimp only at h
          split_ifs at h with hempty
          · cases h
            refine ⟨[tok], ?_, fun us hus => .cons hws htext hus⟩
            exact tokenLoop_of_last hstep (List.isEmpty_iff.mp hempty) []
          · obtain ⟨toks, hloop, hspell⟩ := ih h
            refine ⟨tok :: toks, ?_, fun us hus => .cons hws htext (hspell us hus)⟩
            rw [tokenLoop_of_step hstep (by simpa using hempty), hloop]

/-- The loop over the tokens of a spelling is the loop over its bytes. -/
theorem parseLoop_of_spells {fuel : Nat} (hspell : Spells toks raw) (hsep : Separated toks)
    (h : tokenLoop s toks = some (s', [])) (hfuel : raw.length < fuel) :
    ∃ rest, parseLoop fuel s raw = some (s', rest) ∧ Blank rest := by
  induction hspell generalizing s fuel with
  | nil _ => cases h
  | @cons tok toks ws text rest hws htext hspell ih =>
      cases fuel with
      | zero => cases hfuel
      | succ fuel =>
          obtain ⟨hfollow, hsep⟩ := List.isChain_cons.mp hsep
          have hget : getJsonToken (ws ++ text ++ rest) = (tok, rest) :=
            getJsonToken_spelled hws htext fun data hdata =>
              hspell.noNumber fun b hb => hfollow b hb ⟨data, hdata⟩
          have hpos := List.length_pos_of_ne_nil htext.ne_nil
          rw [List.length_append, List.length_append] at hfuel
          rw [parseLoop_of_token hget htext.ne.1 htext.ne.2]
          rw [tokenLoop] at h
          cases hstep : s.step tok with
          | none => simp [hstep] at h
          | some s₁ =>
              rw [hstep] at h
              dsimp only at h ⊢
              by_cases hempty : s₁.stack.isEmpty = true
              · rw [if_pos hempty] at h ⊢
                cases h
                cases hspell with
                | nil hrest => exact ⟨rest, rfl, hrest⟩
              · rw [if_neg hempty] at h ⊢
                exact ih hsep h (by omega)

/-- What the loop of `parse` reads, with only white space after it. -/
theorem parseLoop_iff {bytes : QByteArray} :
    (∃ s rest, parseLoop (bytes.length + 1) {} bytes = some (s, rest) ∧ Blank rest ∧ s.root = c) ↔
      ∃ toks, Spells toks bytes ∧ Value maxJsonDepth toks c := by
  constructor
  · rintro ⟨s, rest, hloop, hrest, hroot⟩
    obtain ⟨toks, htoks, hspell⟩ := exists_tokens_of_parseLoop hloop
    refine ⟨toks, ?_, tokenLoop_iff.mp ⟨s, htoks, hroot⟩⟩
    simpa using hspell [] (.nil hrest)
  · rintro ⟨toks, hspell, hvalue⟩
    obtain ⟨s, htoks, hroot⟩ := tokenLoop_iff.mpr hvalue
    obtain ⟨rest, hloop, hrest⟩ :=
      parseLoop_of_spells hspell hvalue.separated htoks (Nat.lt_succ_self _)
    exact ⟨s, rest, hloop, hrest, hroot⟩

variable {P : Platform}

/-- A parse is a loop, white space after it and a conversion. -/
theorem parse_eq_some {bytes : QByteArray} {v : Variant P.Double} :
    parse P bytes = some v ↔
      ∃ toks c, Spells toks bytes ∧ Value maxJsonDepth toks c ∧ c.toVariant P = some v := by
  have hloop : parse P bytes = some v ↔ ∃ s rest,
      parseLoop (bytes.length + 1) {} bytes = some (s, rest) ∧ Blank rest ∧
        s.root.toVariant P = some v := by
    rw [parse]
    cases parseLoop (bytes.length + 1) {} bytes with
    | none => simp
    | some r =>
        obtain ⟨s, rest⟩ := r
        simp [getJsonToken_none_iff]
  rw [hloop]
  constructor
  · rintro ⟨s, rest, hr, hrest, hv⟩
    obtain ⟨toks, hspell, hvalue⟩ := parseLoop_iff.mp ⟨s, rest, hr, hrest, rfl⟩
    exact ⟨toks, s.root, hspell, hvalue, hv⟩
  · rintro ⟨toks, c, hspell, hvalue, hv⟩
    obtain ⟨s, rest, hr, hrest, hroot⟩ := parseLoop_iff.mpr ⟨toks, hspell, hvalue⟩
    exact ⟨s, rest, hr, hrest, hroot ▸ hv⟩

/-! ## The conversion -/

mutual

/-- The numbers of a tree are numbers of the grammar, of at most 47 characters. -/
def Container.ShortNumbers : Container → Prop
  | .num data => IsNumber data ∧ data.length ≤ 47
  | .arr values => AllShort values
  | .obj entries => EntriesShort entries
  | _ => True

def AllShort : List Container → Prop
  | [] => True
  | c :: cs => c.ShortNumbers ∧ AllShort cs

def EntriesShort : List (QByteArray × Container) → Prop
  | [] => True
  | (_, c) :: es => c.ShortNumbers ∧ EntriesShort es

end

theorem allShort_append {cs : List Container} (hcs : AllShort cs) (hc : c.ShortNumbers) :
    AllShort (cs ++ [c]) := by
  induction cs with
  | nil => exact ⟨hc, trivial⟩
  | cons c' cs ih => exact ⟨hcs.1, ih hcs.2⟩

theorem entriesShort_append {es : List (QByteArray × Container)} {k : QByteArray}
    (hes : EntriesShort es) (hc : c.ShortNumbers) : EntriesShort (es ++ [(k, c)]) := by
  induction es with
  | nil => exact ⟨hc, trivial⟩
  | cons e es ih => exact ⟨hes.1, ih hes.2⟩

/-- The number tokens are numbers of the grammar, of at most 47 characters. -/
def ShortToks (toks : List Tok) : Prop :=
  ∀ data, .number data ∈ toks → IsNumber data ∧ data.length ≤ 47

theorem ShortToks.left (h : ShortToks (ts ++ us)) : ShortToks ts :=
  fun data hdata => h data (List.mem_append_left us hdata)

theorem ShortToks.right (h : ShortToks (ts ++ us)) : ShortToks us :=
  fun data hdata => h data (List.mem_append_right ts hdata)

theorem ShortToks.tail (h : ShortToks (tok :: ts)) : ShortToks ts :=
  fun data hdata => h data (List.mem_cons_of_mem tok hdata)

mutual

theorem Value.shortNumbers {n : Nat} {ts : List Tok} {c : Container} (hts : ShortToks ts) :
    Value n ts c → c.ShortNumbers
  | .kwNull | .kwTrue | .kwFalse | .string => trivial
  | .number => hts _ List.mem_cons_self
  | .emptyArray | .emptyObject => trivial
  | .array h => h.allShort hts.tail.left
  | .object h => h.entriesShort hts.tail.left

theorem Elements.allShort {n : Nat} {ts : List Tok} {cs : List Container} (hts : ShortToks ts) :
    Elements n ts cs → AllShort cs
  | .one h => ⟨h.shortNumbers hts, trivial⟩
  | .more h hv => allShort_append (h.allShort hts.left) (hv.shortNumbers hts.right.tail)

theorem Members.entriesShort {n : Nat} {ts : List Tok} {es : List (QByteArray × Container)}
    (hts : ShortToks ts) : Members n ts es → EntriesShort es
  | .one h => ⟨h.shortNumbers hts.tail.tail, trivial⟩
  | .more h hv =>
      entriesShort_append (h.entriesShort hts.left) (hv.shortNumbers hts.right.tail.tail.tail)

end

mutual

/-- A tree is converted to the value it stands for. -/
theorem toVariant_iff {v : Variant P.Double} : (c : Container) → c.ShortNumbers →
    (c.toVariant P = some v ↔ Denotes P c v)
  | .null, _ => by
      rw [Container.toVariant, Option.some.injEq]
      constructor
      · rintro rfl
        exact .null
      · rintro ⟨⟩
        rfl
  | .boolTrue, _ => by
      rw [Container.toVariant, Option.some.injEq]
      constructor
      · rintro rfl
        exact .boolTrue
      · rintro ⟨⟩
        rfl
  | .boolFalse, _ => by
      rw [Container.toVariant, Option.some.injEq]
      constructor
      · rintro rfl
        exact .boolFalse
      · rintro ⟨⟩
        rfl
  | .num data, h => by
      rw [Container.toVariant]
      exact numToVariant_iff h.1 h.2
  | .str data, _ => by
      rw [Container.toVariant, Option.some.injEq]
      constructor
      · rintro rfl
        exact .string
      · rintro ⟨⟩
        rfl
  | .arr values, h => by
      rw [Container.toVariant, Option.map_eq_some_iff]
      constructor
      · rintro ⟨vs, hvs, rfl⟩
        exact .list ((toVariants_iff values h).mp hvs)
      · rintro (_ | _ | _ | _ | _ | _ | _ | ⟨hvs⟩ | _)
        exact ⟨_, (toVariants_iff values h).mpr hvs, rfl⟩
  | .obj entries, h => by
      rw [Container.toVariant, Option.map_eq_some_iff]
      constructor
      · rintro ⟨m, hm, rfl⟩
        obtain ⟨kvs, hkvs, hall⟩ := (toVariantMap_iff entries h).mp hm
        exact .map hkvs (SortedEntries.collects_iff.mpr hall)
      · rintro (_ | _ | _ | _ | _ | _ | _ | _ | ⟨hkvs, hm⟩)
        exact ⟨_, (toVariantMap_iff entries h).mpr
          ⟨_, hkvs, SortedEntries.collects_iff.mp hm⟩, rfl⟩

theorem toVariants_iff {vs : List (Variant P.Double)} : (cs : List Container) → AllShort cs →
    (toVariants P cs = some vs ↔ DenotesAll P cs vs)
  | [], _ => by
      rw [toVariants, Option.some.injEq]
      constructor
      · rintro rfl
        exact .nil
      · rintro ⟨⟩
        rfl
  | c :: cs, h => by
      rw [toVariants]
      simp only [Option.bind_eq_bind, Option.bind_eq_some_iff, Option.pure_def, Option.some.injEq]
      constructor
      · rintro ⟨v, hv, vs, hvs, rfl⟩
        exact .cons ((toVariant_iff c h.1).mp hv) ((toVariants_iff cs h.2).mp hvs)
      · rintro (_ | ⟨hv, hvs⟩)
        exact ⟨_, (toVariant_iff c h.1).mpr hv, _, (toVariants_iff cs h.2).mpr hvs, rfl⟩

theorem toVariantMap_iff {vm m : List (QString × Variant P.Double)} :
    (es : List (QByteArray × Container)) → EntriesShort es →
    (toVariantMap P vm es = some m ↔
      ∃ kvs, DenotesEntries P es kvs ∧ m = SortedEntries.assignAll vm kvs)
  | [], _ => by
      rw [toVariantMap, Option.some.injEq]
      constructor
      · rintro rfl
        exact ⟨[], .nil, rfl⟩
      · rintro ⟨kvs, ⟨⟩, rfl⟩
        rfl
  | (k, c) :: es, h => by
      rw [toVariantMap]
      simp only [Option.bind_eq_bind, Option.bind_eq_some_iff]
      constructor
      · rintro ⟨v, hv, hm⟩
        obtain ⟨kvs, hkvs, rfl⟩ := (toVariantMap_iff es h.2).mp hm
        exact ⟨_, .cons ((toVariant_iff c h.1).mp hv) hkvs, rfl⟩
      · rintro ⟨_, _ | ⟨hv, hkvs⟩, rfl⟩
        exact ⟨_, (toVariant_iff c h.1).mpr hv, (toVariantMap_iff es h.2).mpr ⟨_, hkvs, rfl⟩⟩

end

/-! ## The grammar of the parser -/

/-- Every number token has at most 47 characters. -/
def NumbersAtMost47 (bytes : QByteArray) : Prop :=
  ∀ toks data, Spells toks bytes → .number data ∈ toks → data.length ≤ 47

theorem Spells.isNumber (h : Spells toks raw) {data : QByteArray} (hdata : .number data ∈ toks) :
    IsNumber data := by
  induction h with
  | nil _ => cases hdata
  | cons _ htext _ ih =>
      rcases List.mem_cons.mp hdata with rfl | hdata
      · cases htext with
        | number h => exact h
      · exact ih hdata

theorem Spells.length_le (h : Spells toks raw) {data : QByteArray} (hdata : .number data ∈ toks) :
    data.length ≤ raw.length := by
  induction h with
  | nil _ => cases hdata
  | @cons tok toks ws text rest _ htext _ ih =>
      rw [List.length_append, List.length_append]
      rcases List.mem_cons.mp hdata with rfl | hdata
      · cases htext with
        | number _ => omega
      · have hle := ih hdata
        omega

theorem numbersAtMost47_of_length {bytes : QByteArray} (h : bytes.length ≤ 47) :
    NumbersAtMost47 bytes :=
  fun _ _ hspell hdata => (hspell.length_le hdata).trans h

/-- Strings of ASCII characters, and no floating point. -/
def asciiPlatform : Platform where
  Double := Unit
  strtod _ := { value := (), rangeError := true, parsed := 0 }
  printDouble _ := none
  fromUtf8 ba := ⟨ba.map fun ch => Char.ofNat ch.toNat⟩

/-- The parser accepts the values of the grammar, nested at most `maxJsonDepth`
deep, and returns what they denote. -/
theorem parse_iff (P : Platform) (bytes : QByteArray) (hshort : NumbersAtMost47 bytes)
    (v : Variant P.Double) :
    parse P bytes = some v ↔
      ∃ toks c, Spells toks bytes ∧ Value maxJsonDepth toks c ∧ Denotes P c v := by
  rw [parse_eq_some]
  refine exists_congr fun toks => exists_congr fun c => and_congr_right fun hspell =>
    and_congr_right fun hvalue => ?_
  have hnum : ShortToks toks := fun data hdata =>
    ⟨hspell.isNumber hdata, hshort toks data hspell hdata⟩
  exact toVariant_iff c (hvalue.shortNumbers hnum)

/-- An array with the number -1 and an object. -/
theorem parse_iff_array :
    let bytes : QByteArray :=
      [0x5b, 0x2d, 0x31, 0x2c, 0x20, 0x7b, 0x22, 0x61, 0x22, 0x3a, 0x32, 0x7d, 0x5d]
    NumbersAtMost47 bytes ∧ ∃ toks c, Spells toks bytes ∧ Value maxJsonDepth toks c ∧
      Denotes asciiPlatform c (.list [.longlong (-1), .map [(⟨['a']⟩, .ulonglong 2)]]) := by
  intro bytes
  have hshort : NumbersAtMost47 bytes := numbersAtMost47_of_length (by decide)
  refine ⟨hshort, (parse_iff asciiPlatform bytes hshort _).mp ?_⟩
  have hloop : parseLoop (bytes.length + 1) {} bytes = some
      ({ root := .arr [.num [0x2d, 0x31], .obj [([0x61], .num [0x32])]], stack := [],
         expect := { notValue := true }, tok := .arrClose }, []) := rfl
  rw [parse, hloop]
  rfl

end Json
end Shulcrum
