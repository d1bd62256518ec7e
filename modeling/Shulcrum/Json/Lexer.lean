import Shulcrum.Json.Number

/-!
# Tokens and the bytes they are read from

`getJsonToken` skips white space and reads one token of `TokText`; a token that
is followed by nothing that could continue it is read as it is spelled.

**Results.**
* `exists_text_of_getJsonToken`: what was read is white space and a token.
* `getJsonToken_spelled`: a token that is spelled is read.
-/

namespace Shulcrum
namespace Json

variable {raw rest start text : List UInt8}

/-! ## Strings -/

/-- A character the fast path passes over. -/
def isSimple (ch : UInt8) : Bool := ch ≠ 0x22 && ch ≠ 0x5c && ! ch < 0x20 && ! ch ≥ 0x80

/-- What stops the fast path. -/
def fastKind : Option UInt8 → FastPath
  | none => .error
  | some ch =>
      if ch = 0x22 then .processed
      else if ch = 0x5c then .notFullyProcessed
      else if ch < 0x20 then .error
      else .notFullyProcessed

theorem fastPath_eq (raw : List UInt8) :
    fastPathParseSimpleString raw =
      (fastKind (raw.dropWhile isSimple).head?, raw.dropWhile isSimple) := by
  induction raw with
  | nil => rfl
  | cons ch raw ih =>
      rw [fastPathParseSimpleString]
      by_cases hs : isSimple ch = true
      · have hs' := hs
        simp only [isSimple, Bool.and_eq_true, decide_eq_true_eq, Bool.not_eq_true',
          decide_eq_false_iff_not] at hs'
        obtain ⟨⟨⟨h1, h2⟩, h3⟩, h4⟩ := hs'
        rw [List.dropWhile_cons_of_pos hs, if_neg h1, if_neg h2, if_neg h3, if_neg h4, ih]
      · rw [List.dropWhile_cons_of_neg hs, List.head?_cons, fastKind]
        split_ifs with h1 h2 h3 h4
        · rfl
        · rfl
        · rfl
        · rfl
        · simp [isSimple, h1, h2, h3, h4] at hs

/-- What the slow path reads, up to and with the closing quotation mark. -/
inductive SlowReads : JSONUTF8StringFilter → List UInt8 → JSONUTF8StringFilter → Prop
  | stop {w : JSONUTF8StringFilter} : SlowReads w [0x22] w
  | char {w w' : JSONUTF8StringFilter} {ch : UInt8} {text : List UInt8} : ¬ ch < 0x20 →
      ch ≠ 0x5c → ch ≠ 0x22 → SlowReads (w.pushBack ch) text w' → SlowReads w (ch :: text) w'
  | escape {w w' : JSONUTF8StringFilter} {esc c : UInt8} {text : List UInt8} :
      simpleEscape esc = some c → SlowReads (w.pushBack c) text w' →
      SlowReads w (0x5c :: esc :: text) w'
  | unicode {w w' : JSONUTF8StringFilter} {a b c d : UInt8} {codepoint : Nat}
      {text : List UInt8} : hextouint [a, b, c, d] = some codepoint →
      SlowReads (w.pushBackU codepoint) text w' →
      SlowReads w (0x5c :: 0x75 :: a :: b :: c :: d :: text) w'

variable {w w' : JSONUTF8StringFilter}

theorem SlowReads.ne_nil (h : SlowReads w text w') : text ≠ [] := by
  cases h <;> simp

theorem exists_slowReads (h : slowPath w raw = some (w', rest)) :
    ∃ text, raw = text ++ rest ∧ SlowReads w text w' := by
  fun_induction slowPath w raw with
  | case1 => cases h
  | case2 => cases h
  | case3 => cases h
  | case4 w esc raw c hesc _ ih =>
      obtain ⟨text, rfl, hreads⟩ := ih h
      exact ⟨0x5c :: esc :: text, rfl, .escape hesc hreads⟩
  | case5 w a b c d e raw codepoint hhex _ _ ih =>
      obtain ⟨text, htext, hreads⟩ := ih h
      refine ⟨0x5c :: 0x75 :: a :: b :: c :: d :: text, ?_, .unicode hhex hreads⟩
      rw [htext]
      rfl
  | case6 => cases h
  | case7 => cases h
  | case8 => cases h
  | case9 w raw =>
      cases h
      exact ⟨[0x22], rfl, .stop⟩
  | case10 w ch raw h1 h2 h3 ih =>
      obtain ⟨text, rfl, hreads⟩ := ih h
      exact ⟨ch :: text, rfl, .char h1 h2 h3 hreads⟩

/-- The slow path reads this text, whatever follows it. -/
theorem SlowReads.slowPath (h : SlowReads w text w') (rest : List UInt8) :
    slowPath w (text ++ rest) = some (w', rest) := by
  induction h with
  | stop =>
      rw [List.singleton_append, Json.slowPath.eq_def]
      rfl
  | char h1 h2 h3 _ ih =>
      rw [List.cons_append, Json.slowPath.eq_def]
      simp only [h1, h2, h3, if_false]
      exact ih
  | escape hesc _ ih =>
      rw [List.cons_append, List.cons_append, Json.slowPath.eq_def]
      simp only [hesc]
      exact ih
  | @unicode w w' a b c d codepoint text hhex hreads ih =>
      cases text with
      | nil => exact absurd rfl hreads.ne_nil
      | cons e text =>
          simp only [List.cons_append] at ih ⊢
          rw [Json.slowPath.eq_def]
          simp only [hhex]
          exact ih

/-- The text of a string after its opening quotation mark, and its value. -/
inductive StringText : List UInt8 → QByteArray → Prop
  | fast {pre : List UInt8} : (∀ ch ∈ pre, isSimple ch = true) → StringText (pre ++ [0x22]) pre
  | slow {pre text : List UInt8} {w : JSONUTF8StringFilter} :
      (∀ ch ∈ pre, isSimple ch = true) → (∀ ch ∈ text.head?, ch = 0x5c ∨ ch ≥ 0x80) →
      SlowReads { str := pre } text w → w.finalize = true → StringText (pre ++ text) w.str

theorem between_append (pre raw : List UInt8) : between (pre ++ raw) raw = pre := by
  simp [between]

/-- The fast path stops at a character that is not simple. -/
theorem dropWhile_simple {pre : List UInt8} (h : ∀ ch ∈ pre, isSimple ch = true) {raw : List UInt8}
    (hraw : ∀ ch ∈ raw.head?, isSimple ch = false) : (pre ++ raw).dropWhile isSimple = raw := by
  rw [List.dropWhile_append_of_pos h]
  cases raw with
  | nil => rfl
  | cons ch raw => exact List.dropWhile_cons_of_neg (by simp [hraw ch rfl])

/-- What the fast path leaves for the slow path. -/
theorem fastKind_eq_notFullyProcessed {ch : UInt8} (h : isSimple ch = false) :
    fastKind (some ch) = .notFullyProcessed ↔ ch = 0x5c ∨ ch ≥ 0x80 := by
  rw [fastKind]
  constructor
  · intro hk
    by_contra hno
    rw [not_or] at hno
    split_ifs at hk with h1 h2 h3
    · exact hno.1 h2
    · simp [isSimple, h1, h2, h3, hno.2] at h
  · rintro (rfl | hge)
    · rfl
    · have hlt : ¬ ch < 0x20 := by
        rw [UInt8.not_lt]
        exact UInt8.le_trans (by decide) hge
      have hquote : ch ≠ 0x22 := by
        rintro rfl
        revert hge
        decide
      rw [if_neg hquote, if_neg hlt, ite_self]

theorem stringToken_append {pre raw : List UInt8} (h : ∀ ch ∈ pre, isSimple ch = true)
    (hraw : ∀ ch ∈ raw.head?, isSimple ch = false) :
    stringToken (pre ++ raw) =
      match fastKind raw.head? with
      | .error => (.err, raw)
      | .processed => (.string pre, raw.tail)
      | .notFullyProcessed =>
          match slowPath { str := pre } raw with
          | none => (.err, raw)
          | some (w, raw) => if w.finalize then (.string w.str, raw) else (.err, raw) := by
  rw [stringToken, fastPath_eq, dropWhile_simple h hraw]
  cases fastKind raw.head? with
  | error => rfl
  | processed =>
      dsimp only
      rw [between_append]
  | notFullyProcessed =>
      cases hslow : slowPath { str := pre } raw with
      | none => simp only [between_append, hslow]
      | some r => simp only [between_append, hslow]

theorem stringToken_iff {data : QByteArray} :
    stringToken start = (.string data, rest) ↔
      ∃ text, start = text ++ rest ∧ StringText text data := by
  constructor
  · intro h
    have hpre : ∀ ch ∈ start.takeWhile isSimple, isSimple ch = true :=
      List.all_eq_true.mp List.all_takeWhile
    have hraw : ∀ ch ∈ (start.dropWhile isSimple).head?, isSimple ch = false := by
      intro ch hch
      have hnot := List.head?_dropWhile_not isSimple start
      rw [Option.mem_def.mp hch] at hnot
      exact hnot
    rw [← List.takeWhile_append_dropWhile (p := isSimple) (l := start)] at h ⊢
    generalize start.takeWhile isSimple = pre at h hpre ⊢
    generalize start.dropWhile isSimple = raw at h hraw ⊢
    rw [stringToken_append hpre hraw] at h
    cases raw with
    | nil => simp [fastKind] at h
    | cons ch raw =>
        rw [List.head?_cons] at h
        cases hkind : fastKind (some ch) with
        | error => simp [hkind] at h
        | processed =>
            have hch : ch = 0x22 := by
              rw [fastKind] at hkind
              split_ifs at hkind with h1
              exact h1
            rw [hkind] at h
            simp only [List.tail_cons, Prod.mk.injEq, Tok.string.injEq] at h
            obtain ⟨rfl, rfl⟩ := h
            exact ⟨pre ++ [0x22], by simp [hch], .fast hpre⟩
        | notFullyProcessed =>
            have hch := (fastKind_eq_notFullyProcessed (hraw ch rfl)).mp hkind
            rw [hkind] at h
            dsimp only at h
            cases hread : slowPath { str := pre } (ch :: raw) with
            | none => simp [hread] at h
            | some r =>
                obtain ⟨w, raw'⟩ := r
                rw [hread] at h
                dsimp only at h
                split_ifs at h with hfin
                · simp only [Prod.mk.injEq, Tok.string.injEq] at h
                  obtain ⟨rfl, rfl⟩ := h
                  obtain ⟨text, htext, hreads⟩ := exists_slowReads hread
                  refine ⟨pre ++ text, by rw [htext, List.append_assoc],
                    .slow hpre ?_ hreads hfin⟩
                  cases text with
                  | nil => exact absurd rfl hreads.ne_nil
                  | cons c text =>
                      rw [List.cons_append, List.cons.injEq] at htext
                      intro x hx
                      rw [List.head?_cons, Option.mem_some_iff] at hx
                      rwa [← hx, ← htext.1]
                · simp at h
  · rintro ⟨text, rfl, h⟩
    cases h with
    | fast hsimple =>
        rw [List.append_assoc, stringToken_append hsimple (by simp [isSimple])]
        rfl
    | @slow pre text w hsimple hhead hreads hfin =>
        cases text with
        | nil => exact absurd rfl hreads.ne_nil
        | cons ch text =>
            have hch := hhead ch rfl
            have hno : isSimple ch = false := by
              rcases hch with rfl | hge
              · rfl
              · simp [isSimple, hge]
            rw [List.append_assoc, stringToken_append hsimple (by
              intro x hx
              rw [List.cons_append, List.head?_cons, Option.mem_some_iff] at hx
              rwa [← hx])]
            rw [List.cons_append, List.head?_cons, (fastKind_eq_notFullyProcessed hno).mpr hch]
            dsimp only
            rw [← List.cons_append, hreads.slowPath rest]
            dsimp only
            rw [if_pos hfin]

/-! ## Tokens -/

theorem getJsonToken_quote (body : List UInt8) : getJsonToken (0x22 :: body) = stringToken body :=
  rfl

theorem tokText_string_iff {text data : QByteArray} :
    TokText (.string data) text ↔ ∃ body, text = 0x22 :: body ∧ StringText body data := by
  constructor
  · intro h
    cases h with
    | @string body _ h =>
        rw [getJsonToken_quote] at h
        obtain ⟨body', hbody, htext⟩ := stringToken_iff.mp h
        rw [List.append_nil] at hbody
        exact ⟨body, rfl, hbody ▸ htext⟩
  · rintro ⟨body, rfl, h⟩
    exact .string (stringToken_iff.mpr ⟨body, (List.append_nil body).symm, h⟩)

variable {tok : Tok}

theorem TokText.ne_nil (h : TokText tok text) : text ≠ [] := by
  cases h with
  | number h =>
      cases h with
      | mk _ hint _ _ => simp [hint.ne_nil]
  | objOpen => simp
  | objClose => simp
  | arrOpen => simp
  | arrClose => simp
  | colon => simp
  | comma => simp
  | kwNull => simp [nullText]
  | kwTrue => simp [trueText]
  | kwFalse => simp [falseText]
  | string _ => simp

theorem Blank.dropWhile {ws : QByteArray} (h : Blank ws) (raw : List UInt8) :
    (ws ++ raw).dropWhile jsonIsSpace = raw.dropWhile jsonIsSpace :=
  List.dropWhile_append_of_pos h

/-- A string or an error: a quotation mark begins nothing else. -/
theorem stringToken_cases (start : List UInt8) :
    (stringToken start).1 = .err ∨ ∃ data, (stringToken start).1 = .string data := by
  rw [stringToken]
  split
  · exact .inl rfl
  · exact .inr ⟨_, rfl⟩
  · split
    · exact .inl rfl
    · split_ifs
      · exact .inr ⟨_, rfl⟩
      · exact .inl rfl

/-- What a first byte can begin. -/
inductive Begun (ch : UInt8) (raw : List UInt8) : Tok → List UInt8 → Prop
  | spelled {tok : Tok} {text rest : List UInt8} :
      ch :: raw = text ++ rest → TokText tok text → Begun ch raw tok rest
  | err {rest : List UInt8} : Begun ch raw .err rest

theorem begun_char {ch c : UInt8} (h : ch = c) (htok : TokText tok [c]) :
    Begun ch raw tok raw := by
  refine .spelled ?_ htok
  rw [h, List.singleton_append]

theorem begun_keyword {ch : UInt8} {kw : QByteArray} (htok : TokText tok kw) :
    Begun ch raw (keyword kw tok (ch :: raw)).1 (keyword kw tok (ch :: raw)).2 := by
  rw [keyword]
  split_ifs with htake
  · refine .spelled ?_ htok
    conv_lhs => rw [← List.take_append_drop kw.length (ch :: raw), htake]
  · exact .err

theorem begun_string : Begun 0x22 raw (stringToken raw).1 (stringToken raw).2 := by
  rcases stringToken_cases raw with herr | ⟨data, hdata⟩
  · rw [herr]
    exact .err
  · obtain ⟨text, htext, hstr⟩ := stringToken_iff.mp (Prod.ext hdata rfl)
    rw [hdata]
    refine .spelled ?_ (tokText_string_iff.mpr ⟨text, rfl, hstr⟩)
    rw [List.cons_append, ← htext]

theorem begun_tokenAt (ch : UInt8) (raw : List UInt8) :
    Begun ch raw (tokenAt ch raw).1 (tokenAt ch raw).2 := by
  rw [tokenAt]
  by_cases h1 : ch = 0x7b
  · rw [if_pos h1]
    exact begun_char h1 .objOpen
  rw [if_neg h1]
  by_cases h2 : ch = 0x7d
  · rw [if_pos h2]
    exact begun_char h2 .objClose
  rw [if_neg h2]
  by_cases h3 : ch = 0x5b
  · rw [if_pos h3]
    exact begun_char h3 .arrOpen
  rw [if_neg h3]
  by_cases h4 : ch = 0x5d
  · rw [if_pos h4]
    exact begun_char h4 .arrClose
  rw [if_neg h4]
  by_cases h5 : ch = 0x3a
  · rw [if_pos h5]
    exact begun_char h5 .colon
  rw [if_neg h5]
  by_cases h6 : ch = 0x2c
  · rw [if_pos h6]
    exact begun_char h6 .comma
  rw [if_neg h6]
  by_cases h7 : ch = 0x6e
  · rw [if_pos h7]
    exact begun_keyword .kwNull
  rw [if_neg h7]
  by_cases h8 : ch = 0x74
  · rw [if_pos h8]
    exact begun_keyword .kwTrue
  rw [if_neg h8]
  by_cases h9 : ch = 0x66
  · rw [if_pos h9]
    exact begun_keyword .kwFalse
  rw [if_neg h9]
  by_cases h10 : (ch = 0x2d || jsonIsDigit ch) = true
  · rw [if_pos h10]
    cases hscan : scanNumber (ch :: raw) with
    | none => exact .err
    | some rest =>
        obtain ⟨text, htext, hnum⟩ := exists_isNumber_of_scan (by simpa using h10) hscan
        dsimp only
        rw [htext, between_append]
        exact .spelled htext (.number hnum)
  rw [if_neg h10]
  by_cases h11 : ch = 0x22
  · rw [if_pos h11, h11]
    exact begun_string
  · rw [if_neg h11]
    exact .err

/-- Nothing but white space is left. -/
theorem getJsonToken_none_iff : (getJsonToken raw).1 = .none ↔ Blank raw := by
  rw [getJsonToken]
  cases hdrop : raw.dropWhile jsonIsSpace with
  | nil =>
      rw [List.dropWhile_eq_nil_iff] at hdrop
      exact ⟨fun _ => hdrop, fun _ => rfl⟩
  | cons ch raw' =>
      constructor
      · intro h
        dsimp only at h
        have hbegun := begun_tokenAt ch raw'
        rw [h] at hbegun
        cases hbegun with
        | spelled _ htext => cases htext
      · intro h
        rw [List.dropWhile_eq_nil_iff.mpr h] at hdrop
        cases hdrop

/-- A token is read from its text, after white space. -/
theorem exists_text_of_getJsonToken (h : getJsonToken raw = (tok, rest)) (hnone : tok ≠ .none)
    (herr : tok ≠ .err) :
    ∃ ws text, raw = ws ++ text ++ rest ∧ Blank ws ∧ TokText tok text := by
  have hblank : Blank (raw.takeWhile jsonIsSpace) := List.all_eq_true.mp List.all_takeWhile
  have hraw := List.takeWhile_append_dropWhile (p := jsonIsSpace) (l := raw)
  rw [getJsonToken] at h
  cases hdrop : raw.dropWhile jsonIsSpace with
  | nil =>
      rw [hdrop] at h
      cases h
      exact absurd rfl hnone
  | cons ch raw' =>
      have hbegun := begun_tokenAt ch raw'
      rw [hdrop] at h hraw
      dsimp only at h
      rw [h] at hbegun
      cases hbegun with
      | err => exact absurd rfl herr
      | @spelled _ text _ htext htok =>
          refine ⟨raw.takeWhile jsonIsSpace, text, ?_, hblank, htok⟩
          rw [List.append_assoc, ← htext, hraw]

/-! ## A spelled token is read -/

theorem keyword_append (kw : QByteArray) (tok : Tok) (rest : List UInt8) :
    keyword kw tok (kw ++ rest) = (tok, rest) := by
  rw [keyword, List.take_left, List.drop_left, if_pos rfl]

theorem jsonIsSpace_of_digit {ch : UInt8} (h : jsonIsDigit ch = true) :
    jsonIsSpace ch = false := by
  have hne : ∀ x : UInt8, jsonIsDigit x = false → ch ≠ x := by
    rintro x hx rfl
    rw [hx] at h
    cases h
  simp [jsonIsSpace, hne 0x20 rfl, hne 0x09 rfl, hne 0x0a rfl, hne 0x0d rfl]

/-- A number does not begin like another token. -/
theorem tokenAt_number {ch : UInt8} (hch : ch = 0x2d ∨ jsonIsDigit ch = true)
    (hscan : scanNumber (ch :: raw) = some rest) :
    tokenAt ch raw = (.number (between (ch :: raw) rest), rest) := by
  have hne : ∀ x : UInt8, x ≠ 0x2d → jsonIsDigit x = false → ch ≠ x := by
    rintro x h1 h2 rfl
    rcases hch with hminus | hdigit
    · exact h1 hminus
    · rw [h2] at hdigit
      cases hdigit
  rw [tokenAt, if_neg (hne _ (by decide) rfl), if_neg (hne _ (by decide) rfl),
    if_neg (hne _ (by decide) rfl), if_neg (hne _ (by decide) rfl),
    if_neg (hne _ (by decide) rfl), if_neg (hne _ (by decide) rfl),
    if_neg (hne _ (by decide) rfl), if_neg (hne _ (by decide) rfl),
    if_neg (hne _ (by decide) rfl), if_pos (by simpa using hch), hscan]

/-- The text of a token is read as the token, if no number runs on. -/
theorem getJsonToken_spelled {ws : QByteArray} (hws : Blank ws) (htext : TokText tok text)
    (hrest : ∀ data, tok = .number data → NoNumber rest) :
    getJsonToken (ws ++ text ++ rest) = (tok, rest) := by
  rw [getJsonToken, List.append_assoc, hws.dropWhile]
  cases htext with
  | objOpen => rfl
  | objClose => rfl
  | arrOpen => rfl
  | arrClose => rfl
  | colon => rfl
  | comma => rfl
  | kwNull => exact keyword_append nullText _ rest
  | kwTrue => exact keyword_append trueText _ rest
  | kwFalse => exact keyword_append falseText _ rest
  | number hnum =>
      have hscan := scanNumber_append hnum (hrest _ rfl)
      have hfirst := hnum.head
      cases text with
      | nil => exact absurd rfl (TokText.number hnum).ne_nil
      | cons ch text =>
          have hch := hfirst ch rfl
          have hspace : jsonIsSpace ch = false := by
            rcases hch with rfl | hdigit
            · rfl
            · exact jsonIsSpace_of_digit hdigit
          rw [List.cons_append, List.dropWhile_cons_of_neg (by simp [hspace])]
          dsimp only
          rw [List.cons_append] at hscan
          rw [tokenAt_number hch hscan, ← List.cons_append, between_append]
  | @string body data hbody =>
      obtain ⟨body', hbody', hstr⟩ := stringToken_iff.mp hbody
      rw [List.append_nil] at hbody'
      subst hbody'
      exact stringToken_iff.mpr ⟨body, rfl, hstr⟩

end Json
end Shulcrum
