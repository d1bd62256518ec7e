import Shulcrum.Json.Grammar

/-!
# The machine reads the grammar

The loop of `parse` over a list of tokens.  `Reached` says what the tokens read
so far are: one partly read container for every container on the stack, and
flags that fit the innermost.

**Results.**
* `reached_step`: what one token preserves.
* `Value.loop`: the loop passes over a value of the grammar.
* `tokenLoop_iff`: the loop ends with a tree if and only if the tokens are a
  value of the grammar, nested at most `maxJsonDepth` deep.
-/

namespace Shulcrum
namespace Json

open ParseState

/-- The loop of `parse` over tokens; the rest is what was not read. -/
def tokenLoop (s : ParseState) : List Tok → Option (ParseState × List Tok)
  | [] => none
  | tok :: toks =>
      match s.step tok with
      | none => none
      | some s => if s.stack.isEmpty then some (s, toks) else tokenLoop s toks

variable {n : Nat} {s s' : ParseState} {tok : Tok} {o o' : OpenContainer}
  {below : List OpenContainer} {c : Container} {ts us : List Tok}

theorem tokenLoop_of_step (h : s.step tok = some s') (hne : s'.stack ≠ []) (toks : List Tok) :
    tokenLoop s (tok :: toks) = tokenLoop s' toks := by
  rw [tokenLoop, h]
  simp [hne]

theorem tokenLoop_of_last (h : s.step tok = some s') (hnil : s'.stack = [])
    (toks : List Tok) : tokenLoop s (tok :: toks) = some (s', toks) := by
  rw [tokenLoop, h]
  simp [hnil]

/-! ## What one token does -/

/-- A token that is a value, and its tree. -/
inductive Scalar : Tok → Container → Prop
  | kwNull : Scalar .kwNull .null
  | kwTrue : Scalar .kwTrue .boolTrue
  | kwFalse : Scalar .kwFalse .boolFalse
  | number {data : QByteArray} : Scalar (.number data) (.num data)
  | string {data : QByteArray} : Scalar (.string data) (.str data)

theorem Scalar.value (h : Scalar tok c) (n : Nat) : Value n [tok] c := by
  cases h with
  | kwNull => exact .kwNull
  | kwTrue => exact .kwTrue
  | kwFalse => exact .kwFalse
  | number => exact .number
  | string => exact .string

theorem Scalar.ne (h : Scalar tok c) : tok ≠ .comma ∧ tok ≠ .arrOpen := by
  cases h <;> simp

/-- The flags where a value may come. -/
def Awaits (e : Expect) : Prop := e = {} ∨ e = { value := true } ∨ e = { arrValue := true }

theorem checks_of_awaits {e : Expect} (he : Awaits e) (hv : tok.isValueOpen = true) :
    (checkExpected e tok).bind (checkNotValue · tok) = some {} := by
  rcases he with rfl | rfl | rfl
  · have hne : tok ≠ .colon := by
      rintro rfl
      cases hv
    simp [checkExpected, checkNotValue, hne]
  · simp [checkExpected, checkNotValue, hv]
  · simp [checkExpected, checkNotValue, hv]

theorem step_scalar (he : Awaits s.expect) (h : Scalar tok c) :
    s.step tok = ({ s with expect := {}, tok := tok } : ParseState).putValue c := by
  have hv : tok.isValueOpen = true := by cases h <;> rfl
  rw [step, checks_of_awaits he hv]
  cases h <;> rfl

theorem step_arrOpen (he : Awaits s.expect) :
    s.step .arrOpen = ({ s with expect := {}, tok := .arrOpen } : ParseState).openContainer
      (.arr []) { arrValue := true } := by
  rw [step, checks_of_awaits he rfl]
  rfl

theorem step_objOpen (he : Awaits s.expect) :
    s.step .objOpen = ({ s with expect := {}, tok := .objOpen } : ParseState).openContainer
      (.obj []) { objName := true } := by
  rw [step, checks_of_awaits he rfl]
  rfl

/-- What a token can do where a value may come. -/
inductive Begins (s : ParseState) : Tok → ParseState → Prop
  | scalar {tok : Tok} {s' : ParseState} {c : Container} : Scalar tok c →
      ({ s with expect := {}, tok := tok } : ParseState).putValue c = some s' →
      Begins s tok s'
  | arrOpen {s' : ParseState} :
      ({ s with expect := {}, tok := .arrOpen } : ParseState).openContainer (.arr [])
        { arrValue := true } = some s' → Begins s .arrOpen s'
  | objOpen {s' : ParseState} :
      ({ s with expect := {}, tok := .objOpen } : ParseState).openContainer (.obj [])
        { objName := true } = some s' → Begins s .objOpen s'

theorem begins_of_isValueOpen (he : Awaits s.expect) (hv : tok.isValueOpen = true)
    (h : s.step tok = some s') : Begins s tok s' := by
  cases tok with
  | arrOpen => exact .arrOpen (by rw [← step_arrOpen he, h])
  | objOpen => exact .objOpen (by rw [← step_objOpen he, h])
  | kwNull => exact .scalar .kwNull (by rw [← step_scalar he .kwNull, h])
  | kwTrue => exact .scalar .kwTrue (by rw [← step_scalar he .kwTrue, h])
  | kwFalse => exact .scalar .kwFalse (by rw [← step_scalar he .kwFalse, h])
  | number data => exact .scalar .number (by rw [← step_scalar he .number, h])
  | string data => exact .scalar .string (by rw [← step_scalar he .string, h])
  | err | none | objClose | arrClose | colon | comma => cases hv

theorem step_name {es : List (QByteArray × Container)} {k : QByteArray}
    (he : s.expect = { objName := true }) (hs : s.stack = .obj es :: below) :
    s.step (.string k) = some { s with
      stack := .obj (es ++ [(k, .null)]) :: below
      expect := { colon := true, notValue := true }
      tok := .string k } := by
  simp [step, checkExpected, checkNotValue, name, he, hs, Tok.isString]

theorem step_colon {es : List (QByteArray × Container)}
    (he : s.expect = { colon := true, notValue := true }) (hs : s.stack = .obj es :: below) :
    s.step .colon = some { s with expect := { value := true }, tok := .colon } := by
  simp [step, checkExpected, checkNotValue, ParseState.colon, he, hs, Tok.isValueOpen,
    Tok.isValue]

/-- The flag after a comma. -/
def OpenContainer.next : OpenContainer → Expect
  | .arr _ => { arrValue := true }
  | .obj _ => { objName := true }

theorem step_comma (he : s.expect = { notValue := true }) (hs : s.stack = o :: below)
    (htok : s.tok ≠ .comma ∧ s.tok ≠ .arrOpen) :
    s.step .comma = some { s with expect := o.next, tok := .comma } := by
  cases o <;>
    simp [step, checkExpected, checkNotValue, comma, he, hs, htok, Tok.isValueOpen, Tok.isValue,
      OpenContainer.next]

theorem step_arrClose {cs : List Container}
    (he : s.expect = { notValue := true } ∨ s.expect = { arrValue := true })
    (hs : s.stack = .arr cs :: below) (htok : s.tok ≠ .comma) :
    s.step .arrClose = ({ s with
      stack := below
      expect := { notValue := true }
      tok := .arrClose } : ParseState).putValue (.arr cs) := by
  rcases he with he | he <;>
    simp [step, checkExpected, checkNotValue, closeContainer, closeContainer.put, he, hs, htok,
      Tok.isValueOpen, Tok.isValue]

theorem step_objClose {es : List (QByteArray × Container)}
    (he : s.expect = { notValue := true } ∨ s.expect = { objName := true })
    (hs : s.stack = .obj es :: below) (htok : s.tok ≠ .comma) :
    s.step .objClose = ({ s with
      stack := below
      expect := { notValue := true }
      tok := .objClose } : ParseState).putValue (.obj es) := by
  rcases he with he | he <;>
    simp [step, checkExpected, checkNotValue, closeContainer, closeContainer.put, he, hs, htok,
      Tok.isValueOpen, Tok.isValue]

theorem openContainer_of_put {e : Expect} {top top' : OpenContainer}
    (hs : s.stack = top :: below) (hput : top.put c = some top')
    (hdepth : below.length + 2 ≤ maxJsonDepth) :
    s.openContainer o e = some { s with stack := o :: s.stack, expect := e } := by
  unfold openContainer
  split
  · rename_i hs'
    rw [hs, List.cons.injEq] at hs'
    obtain ⟨rfl, rfl⟩ := hs'
    cases hput
  · rw [hs, List.length_cons, if_neg (by omega)]

@[simp] theorem put_arr (cs : List Container) (c : Container) :
    (OpenContainer.arr cs).put c = some (.arr (cs ++ [c])) := rfl

@[simp] theorem put_obj (es : List (QByteArray × Container)) (k : QByteArray) (c c' : Container) :
    (OpenContainer.obj (es ++ [(k, c')])).put c = some (.obj (es ++ [(k, c)])) := by
  simp [OpenContainer.put]

/-! ## A value of the grammar is read -/

/-- The state after a value in a container. -/
structure AfterValue (o : OpenContainer) (below : List OpenContainer) (s : ParseState) :
    Prop where
  stack : s.stack = o :: below
  expect : s.expect = { notValue := true }
  tok : s.tok ≠ .comma ∧ s.tok ≠ .arrOpen

theorem afterValue_putValue (hs : s.stack = o :: below) (hput : o.put c = some o')
    (he : s.expect = {} ∨ s.expect = { notValue := true })
    (htok : s.tok ≠ .comma ∧ s.tok ≠ .arrOpen) :
    ∃ s', s.putValue c = some s' ∧ AfterValue o' below s' := by
  simp only [putValue, hs, hput, Option.map_some, Option.some.injEq, exists_eq_left']
  refine ⟨rfl, ?_, htok⟩
  rcases he with he | he <;> rw [he]

theorem AfterValue.ne_nil (h : AfterValue o below s) : s.stack ≠ [] := by
  simp [h.stack]

/-- A value that is a token of its own. -/
theorem Scalar.loop (h : Scalar tok c) (he : Awaits s.expect) (hs : s.stack = o :: below)
    (hput : o.put c = some o') (rest : List Tok) :
    ∃ s', AfterValue o' below s' ∧ tokenLoop s ([tok] ++ rest) = tokenLoop s' rest := by
  obtain ⟨s', hst', hafter⟩ := afterValue_putValue
    (s := { s with expect := {}, tok := tok }) hs hput (.inl rfl) h.ne
  exact ⟨s', hafter, tokenLoop_of_step (by rw [step_scalar he h, hst']) hafter.ne_nil rest⟩

theorem exists_arrOpen (he : Awaits s.expect) (hs : s.stack = o :: below)
    (hput : o.put c = some o') (hdepth : below.length + 2 ≤ maxJsonDepth) :
    ∃ s', s.step .arrOpen = some s' ∧ s'.stack = .arr [] :: o :: below ∧
      s'.expect = { arrValue := true } ∧ s'.tok = .arrOpen := by
  rw [step_arrOpen he, openContainer_of_put (s := { s with expect := {}, tok := .arrOpen }) hs
    hput hdepth]
  exact ⟨_, rfl, congrArg _ hs, rfl, rfl⟩

theorem exists_objOpen (he : Awaits s.expect) (hs : s.stack = o :: below)
    (hput : o.put c = some o') (hdepth : below.length + 2 ≤ maxJsonDepth) :
    ∃ s', s.step .objOpen = some s' ∧ s'.stack = .obj [] :: o :: below ∧
      s'.expect = { objName := true } ∧ s'.tok = .objOpen := by
  rw [step_objOpen he, openContainer_of_put (s := { s with expect := {}, tok := .objOpen }) hs
    hput hdepth]
  exact ⟨_, rfl, congrArg _ hs, rfl, rfl⟩

theorem exists_arrClose {cs : List Container}
    (he : s.expect = { notValue := true } ∨ s.expect = { arrValue := true })
    (hs : s.stack = .arr cs :: o :: below) (htok : s.tok ≠ .comma)
    (hput : o.put (.arr cs) = some o') :
    ∃ s', s.step .arrClose = some s' ∧ AfterValue o' below s' := by
  rw [step_arrClose he hs htok]
  exact afterValue_putValue rfl hput (.inr rfl) (by simp)

theorem exists_objClose {es : List (QByteArray × Container)}
    (he : s.expect = { notValue := true } ∨ s.expect = { objName := true })
    (hs : s.stack = .obj es :: o :: below) (htok : s.tok ≠ .comma)
    (hput : o.put (.obj es) = some o') :
    ∃ s', s.step .objClose = some s' ∧ AfterValue o' below s' := by
  rw [step_objClose he hs htok]
  exact afterValue_putValue rfl hput (.inr rfl) (by simp)

/-- The name and the colon of a member. -/
theorem member_loop {es : List (QByteArray × Container)} (k : QByteArray)
    (he : s.expect = { objName := true }) (hs : s.stack = .obj es :: below)
    (toks : List Tok) : ∃ s', s'.expect = { value := true } ∧
      s'.stack = .obj (es ++ [(k, .null)]) :: below ∧
      tokenLoop s (.string k :: .colon :: toks) = tokenLoop s' toks := by
  have hname := tokenLoop_of_step (step_name (k := k) he hs) (by simp) (.colon :: toks)
  rw [hname, tokenLoop_of_step (step_colon rfl rfl) (by simp)]
  exact ⟨_, rfl, rfl, rfl⟩

/-- The comma after a value. -/
theorem AfterValue.comma (h : AfterValue o below s) (toks : List Tok) :
    ∃ s', s'.expect = o.next ∧ s'.stack = o :: below ∧
      tokenLoop s (.comma :: toks) = tokenLoop s' toks := by
  rw [tokenLoop_of_step (step_comma h.expect h.stack h.tok) h.ne_nil]
  exact ⟨{ s with expect := o.next, tok := .comma }, rfl, h.stack, rfl⟩

mutual

/-- A value is read into the container around it. -/
theorem Value.loop {n : Nat} {ts : List Tok} {c : Container} {s : ParseState}
    {o o' : OpenContainer} {below : List OpenContainer} (he : Awaits s.expect)
    (hs : s.stack = o :: below) (hput : o.put c = some o')
    (hdepth : below.length + 1 + n ≤ maxJsonDepth) (rest : List Tok) : Value n ts c →
    ∃ s', AfterValue o' below s' ∧ tokenLoop s (ts ++ rest) = tokenLoop s' rest
  | .kwNull => Scalar.kwNull.loop he hs hput rest
  | .kwTrue => Scalar.kwTrue.loop he hs hput rest
  | .kwFalse => Scalar.kwFalse.loop he hs hput rest
  | .number => Scalar.number.loop he hs hput rest
  | .string => Scalar.string.loop he hs hput rest
  | .emptyArray => by
      obtain ⟨s₁, hopen, hs₁, he₁, htok₁⟩ := exists_arrOpen he hs hput (by omega)
      obtain ⟨s₂, hclose, hafter⟩ := exists_arrClose (.inr he₁) hs₁ (by simp [htok₁]) hput
      refine ⟨s₂, hafter, ?_⟩
      exact (tokenLoop_of_step hopen (by simp [hs₁]) _).trans
        (tokenLoop_of_step hclose hafter.ne_nil rest)
  | .array h => by
      obtain ⟨s₁, hopen, hs₁, he₁, -⟩ := exists_arrOpen he hs hput (by omega)
      obtain ⟨s₂, hlast, hloop⟩ := Elements.loop he₁ hs₁
        (by rw [List.length_cons]; omega) (.arrClose :: rest) h
      obtain ⟨s₃, hclose, hafter⟩ := exists_arrClose (.inl hlast.expect) hlast.stack hlast.tok.1
        hput
      refine ⟨s₃, hafter, ?_⟩
      rw [List.cons_append, List.append_assoc, List.singleton_append,
        tokenLoop_of_step hopen (by simp [hs₁]), hloop, tokenLoop_of_step hclose hafter.ne_nil]
  | .emptyObject => by
      obtain ⟨s₁, hopen, hs₁, he₁, htok₁⟩ := exists_objOpen he hs hput (by omega)
      obtain ⟨s₂, hclose, hafter⟩ := exists_objClose (.inr he₁) hs₁ (by simp [htok₁]) hput
      refine ⟨s₂, hafter, ?_⟩
      exact (tokenLoop_of_step hopen (by simp [hs₁]) _).trans
        (tokenLoop_of_step hclose hafter.ne_nil rest)
  | .object h => by
      obtain ⟨s₁, hopen, hs₁, he₁, -⟩ := exists_objOpen he hs hput (by omega)
      obtain ⟨s₂, hlast, hloop⟩ := Members.loop he₁ hs₁
        (by rw [List.length_cons]; omega) (.objClose :: rest) h
      obtain ⟨s₃, hclose, hafter⟩ := exists_objClose (.inl hlast.expect) hlast.stack hlast.tok.1
        hput
      refine ⟨s₃, hafter, ?_⟩
      rw [List.cons_append, List.append_assoc, List.singleton_append,
        tokenLoop_of_step hopen (by simp [hs₁]), hloop, tokenLoop_of_step hclose hafter.ne_nil]

theorem Elements.loop {n : Nat} {ts : List Tok} {cs : List Container} {s : ParseState}
    {below : List OpenContainer} (he : s.expect = { arrValue := true })
    (hs : s.stack = .arr [] :: below) (hdepth : below.length + 1 + n ≤ maxJsonDepth)
    (rest : List Tok) : Elements n ts cs →
    ∃ s', AfterValue (.arr cs) below s' ∧ tokenLoop s (ts ++ rest) = tokenLoop s' rest
  | .one h => h.loop (.inr (.inr he)) hs (put_arr [] _) hdepth rest
  | @Elements.more _ ts us _ _ h hv => by
      obtain ⟨s₁, hlast, hloop⟩ := Elements.loop he hs hdepth (.comma :: (us ++ rest)) h
      obtain ⟨s₂, he₂, hs₂, hcomma⟩ := hlast.comma (us ++ rest)
      obtain ⟨s₃, hafter, hvalue⟩ := hv.loop (.inr (.inr he₂)) hs₂ (put_arr _ _) hdepth rest
      refine ⟨s₃, hafter, ?_⟩
      rw [List.append_assoc, List.cons_append, hloop, hcomma, hvalue]

theorem Members.loop {n : Nat} {ts : List Tok} {es : List (QByteArray × Container)}
    {s : ParseState} {below : List OpenContainer} (he : s.expect = { objName := true })
    (hs : s.stack = .obj [] :: below) (hdepth : below.length + 1 + n ≤ maxJsonDepth)
    (rest : List Tok) : Members n ts es →
    ∃ s', AfterValue (.obj es) below s' ∧ tokenLoop s (ts ++ rest) = tokenLoop s' rest
  | @Members.one _ ts k _ h => by
      obtain ⟨s₁, he₁, hs₁, hname⟩ := member_loop k he hs (ts ++ rest)
      obtain ⟨s₂, hafter, hvalue⟩ := h.loop (.inr (.inl he₁)) hs₁ (put_obj [] k _ _) hdepth rest
      exact ⟨s₂, hafter, hname.trans hvalue⟩
  | @Members.more _ ts us _ k _ h hv => by
      obtain ⟨s₁, hlast, hloop⟩ := Members.loop he hs hdepth
        (.comma :: .string k :: .colon :: (us ++ rest)) h
      obtain ⟨s₂, he₂, hs₂, hcomma⟩ := hlast.comma (.string k :: .colon :: (us ++ rest))
      obtain ⟨s₃, he₃, hs₃, hname⟩ := member_loop k he₂ hs₂ (us ++ rest)
      obtain ⟨s₄, hafter, hvalue⟩ := hv.loop (.inr (.inl he₃)) hs₃ (put_obj _ k _ _) hdepth rest
      refine ⟨s₄, hafter, ?_⟩
      rw [List.append_assoc, List.cons_append, List.cons_append, List.cons_append, hloop, hcomma,
        hname, hvalue]

end

/-- A value of the grammar is read from the start. -/
theorem Value.loop_start (h : Value maxJsonDepth ts c) :
    ∃ s', tokenLoop {} ts = some (s', []) ∧ s'.root = c := by
  have he : Awaits ({} : ParseState).expect := .inl rfl
  have hscalar : ∀ {tok : Tok}, Scalar tok c → ts = [tok] →
      ∃ s', tokenLoop {} ts = some (s', []) ∧ s'.root = c := by
    rintro tok hs rfl
    exact ⟨_, tokenLoop_of_last (step_scalar he hs) rfl [], rfl⟩
  have harr : ({} : ParseState).step .arrOpen = some
      { stack := [.arr []], expect := { arrValue := true }, tok := .arrOpen } := step_arrOpen he
  have hobj : ({} : ParseState).step .objOpen = some
      { stack := [.obj []], expect := { objName := true }, tok := .objOpen } := step_objOpen he
  cases h with
  | kwNull => exact hscalar .kwNull rfl
  | kwTrue => exact hscalar .kwTrue rfl
  | kwFalse => exact hscalar .kwFalse rfl
  | number => exact hscalar .number rfl
  | string => exact hscalar .string rfl
  | emptyArray =>
      have hclose := step_arrClose (s :=
        { stack := [.arr []], expect := { arrValue := true }, tok := .arrOpen }) (.inr rfl) rfl
        (by simp)
      rw [tokenLoop_of_step harr (by simp), tokenLoop_of_last hclose rfl]
      exact ⟨_, rfl, rfl⟩
  | array h =>
      obtain ⟨s₁, hlast, hloop⟩ := Elements.loop (s :=
        { stack := [.arr []], expect := { arrValue := true }, tok := .arrOpen }) rfl rfl
        (by simp only [List.length_nil, maxJsonDepth]; omega) [.arrClose] h
      have hclose := step_arrClose (.inl hlast.expect) hlast.stack hlast.tok.1
      rw [tokenLoop_of_step harr (by simp), hloop, tokenLoop_of_last hclose rfl]
      exact ⟨_, rfl, rfl⟩
  | emptyObject =>
      have hclose := step_objClose (s :=
        { stack := [.obj []], expect := { objName := true }, tok := .objOpen }) (.inr rfl) rfl
        (by simp)
      rw [tokenLoop_of_step hobj (by simp), tokenLoop_of_last hclose rfl]
      exact ⟨_, rfl, rfl⟩
  | object h =>
      obtain ⟨s₁, hlast, hloop⟩ := Members.loop (s :=
        { stack := [.obj []], expect := { objName := true }, tok := .objOpen }) rfl rfl
        (by simp only [List.length_nil, maxJsonDepth]; omega) [.objClose] h
      have hclose := step_objClose (.inl hlast.expect) hlast.stack hlast.tok.1
      rw [tokenLoop_of_step hobj (by simp), hloop, tokenLoop_of_last hclose rfl]
      exact ⟨_, rfl, rfl⟩

/-! ## What was read is the grammar -/

/-- An object between its members: read so far, up to the next name. -/
inductive BeforeName (n : Nat) : List (QByteArray × Container) → List Tok → Prop
  | first : BeforeName n [] [.objOpen]
  | next {ts : List Tok} {es : List (QByteArray × Container)} :
      Members n ts es → BeforeName n es (.objOpen :: (ts ++ [.comma]))

/-- A container that waits for a value. -/
inductive Waits (n : Nat) : OpenContainer → List Tok → Prop
  | first : Waits n (.arr []) [.arrOpen]
  | next {ts : List Tok} {cs : List Container} :
      Elements n ts cs → Waits n (.arr cs) (.arrOpen :: (ts ++ [.comma]))
  | member {ts : List Tok} {es : List (QByteArray × Container)} {k : QByteArray} :
      BeforeName n es ts → Waits n (.obj (es ++ [(k, .null)])) (ts ++ [.string k, .colon])

/-- A container after a value. -/
inductive Holds (n : Nat) : OpenContainer → List Tok → Prop
  | arr {ts : List Tok} {cs : List Container} :
      Elements n ts cs → Holds n (.arr cs) (.arrOpen :: ts)
  | obj {ts : List Tok} {es : List (QByteArray × Container)} :
      Members n ts es → Holds n (.obj es) (.objOpen :: ts)

theorem Waits.put (h : Waits n o ts) (hv : Value n us c) (hput : o.put c = some o') :
    Holds n o' (ts ++ us) := by
  cases h with
  | first =>
      cases hput
      exact .arr (.one hv)
  | @next ts cs h =>
      cases hput
      have hmore := Holds.arr (h.more hv)
      rw [List.cons_append, List.append_assoc]
      exact hmore
  | @member ts es k h =>
      rw [put_obj, Option.some.injEq] at hput
      subst hput
      cases h with
      | first => exact .obj (.one hv)
      | next h =>
          have hmore := Holds.obj (h.more (k := k) hv)
          rw [List.cons_append, List.cons_append, List.append_assoc, List.append_assoc]
          exact hmore

/-- The containers around the innermost. -/
inductive Around : List OpenContainer → List Tok → Prop
  | nil : Around [] []
  | cons {o : OpenContainer} {below : List OpenContainer} {ts us : List Tok} :
      Around below ts → below.length < maxJsonDepth →
      Waits (maxJsonDepth - (below.length + 1)) o us → Around (o :: below) (ts ++ us)

/-- The innermost container, with the flags and the last token. -/
inductive Innermost (n : Nat) : OpenContainer → List Tok → Expect → Tok → Prop
  | arrOpen : Innermost n (.arr []) [.arrOpen] { arrValue := true } .arrOpen
  | arrComma {ts : List Tok} {cs : List Container} : Elements n ts cs →
      Innermost n (.arr cs) (.arrOpen :: (ts ++ [.comma])) { arrValue := true } .comma
  | objOpen : Innermost n (.obj []) [.objOpen] { objName := true } .objOpen
  | objComma {ts : List Tok} {es : List (QByteArray × Container)} : Members n ts es →
      Innermost n (.obj es) (.objOpen :: (ts ++ [.comma])) { objName := true } .comma
  | name {ts : List Tok} {es : List (QByteArray × Container)} {k : QByteArray} :
      BeforeName n es ts → Innermost n (.obj (es ++ [(k, .null)])) (ts ++ [.string k])
        { colon := true, notValue := true } (.string k)
  | colon {ts : List Tok} {es : List (QByteArray × Container)} {k : QByteArray} :
      BeforeName n es ts → Innermost n (.obj (es ++ [(k, .null)])) (ts ++ [.string k, .colon])
        { value := true } .colon
  | value {o : OpenContainer} {ts : List Tok} {tok : Tok} : Holds n o ts →
      tok ≠ .comma ∧ tok ≠ .arrOpen → Innermost n o ts { notValue := true } tok

/-- The tokens that were read to reach a state. -/
inductive Reached (s : ParseState) : List Tok → Prop
  | done {ts : List Tok} : s.stack = [] → Value maxJsonDepth ts s.root → Reached s ts
  | inside {o : OpenContainer} {below : List OpenContainer} {ts us : List Tok} :
      s.stack = o :: below → Around below ts → below.length < maxJsonDepth →
      Innermost (maxJsonDepth - (below.length + 1)) o us s.expect s.tok → Reached s (ts ++ us)

/-- A value is put where it was waited for. -/
theorem reached_putValue (hs : Around s.stack ts)
    (hv : Value (maxJsonDepth - s.stack.length) us c)
    (he : s.expect = {} ∨ s.expect = { notValue := true })
    (htok : s.tok ≠ .comma ∧ s.tok ≠ .arrOpen) (h : s.putValue c = some s') :
    Reached s' (ts ++ us) := by
  cases hstack : s.stack with
  | nil =>
      rw [hstack] at hs hv
      cases hs
      simp only [putValue, hstack, Option.some.injEq] at h
      subst h
      exact .done rfl hv
  | cons o below =>
      rw [hstack] at hs hv
      cases hs with
      | @cons _ _ ts₁ us₁ haround hlen hwaits =>
          cases hput : o.put c with
          | none => simp [putValue, hstack, hput] at h
          | some o' =>
              simp only [putValue, hstack, hput, Option.map_some, Option.some.injEq] at h
              subst h
              rw [List.append_assoc]
              refine .inside rfl haround hlen ?_
              have hholds := hwaits.put hv hput
              rcases he with he | he
              · simp only [he]
                exact .value hholds htok
              · simp only [he]
                exact .value hholds htok

/-- A container is opened where a value was waited for. -/
theorem reached_openContainer {e : Expect} (hs : Around s.stack ts)
    (ho : ∀ m, Innermost m o us e s.tok) (h : s.openContainer o e = some s') :
    Reached s' (ts ++ us) := by
  unfold openContainer at h
  split at h
  · cases h
  · split_ifs at h with hdepth
    cases h
    exact .inside rfl hs (by omega) (ho _)

theorem reached_begins (hs : Around s.stack ts) (h : Begins s tok s') :
    Reached s' (ts ++ [tok]) := by
  cases h with
  | scalar hc hput =>
      exact reached_putValue (s := { s with expect := {}, tok := tok }) hs (hc.value _) (.inl rfl)
        hc.ne hput
  | arrOpen hopen =>
      exact reached_openContainer (s := { s with expect := {}, tok := .arrOpen }) hs
        (fun _ => .arrOpen) hopen
  | objOpen hopen =>
      exact reached_openContainer (s := { s with expect := {}, tok := .objOpen }) hs
        (fun _ => .objOpen) hopen

/-- Where a value is waited for, the next token begins one, or closes an empty array. -/
theorem isValueOpen_of_step (he : s.expect = { value := true } ∨ s.expect = { arrValue := true })
    (hne : s.expect = { arrValue := true } → tok ≠ .arrClose) (h : s.step tok = some s') :
    tok.isValueOpen = true := by
  by_contra hv
  rcases he with he | he
  · simp [step, checkExpected, he, hv] at h
  · simp [step, checkExpected, he, hv, hne he] at h

theorem tok_of_objName (he : s.expect = { objName := true }) (h : s.step tok = some s') :
    tok = .objClose ∨ ∃ k, tok = .string k := by
  cases tok <;> simp [step, checkExpected, he, Tok.isString] at h ⊢

theorem tok_of_colon (he : s.expect = { colon := true, notValue := true })
    (h : s.step tok = some s') : tok = .colon := by
  cases tok <;> simp [step, checkExpected, he] at h ⊢

theorem tok_of_notValue (he : s.expect = { notValue := true }) (h : s.step tok = some s') :
    tok = .comma ∨ tok = .arrClose ∨ tok = .objClose := by
  cases tok <;>
    simp [step, checkExpected, checkNotValue, he, Tok.isValueOpen, Tok.isValue] at h ⊢

/-- No container is closed right after a comma. -/
theorem step_close_comma (htok : s.tok = .comma) (hclose : tok = .arrClose ∨ tok = .objClose) :
    s.step tok = none := by
  rcases hclose with rfl | rfl <;> simp [step, closeContainer, htok]

/-- A container is closed by its own token. -/
theorem eq_of_close (hs : s.stack = o :: below) (h : s.step tok = some s') :
    (tok = .arrClose → ∃ cs, o = .arr cs) ∧ (tok = .objClose → ∃ es, o = .obj es) := by
  constructor
  · rintro rfl
    cases o with
    | arr cs => exact ⟨cs, rfl⟩
    | obj es => simp [step, closeContainer, hs] at h
  · rintro rfl
    cases o with
    | arr cs => simp [step, closeContainer, hs] at h
    | obj es => exact ⟨es, rfl⟩

/-- A name is read. -/
theorem reached_name {es : List (QByteArray × Container)} {k : QByteArray}
    (hs : s.stack = .obj es :: below) (haround : Around below ts)
    (hlen : below.length < maxJsonDepth)
    (hname : BeforeName (maxJsonDepth - (below.length + 1)) es us)
    (he : s.expect = { objName := true }) (h : s.step (.string k) = some s') :
    Reached s' (ts ++ us ++ [.string k]) := by
  rw [step_name he hs, Option.some.injEq] at h
  subst h
  rw [List.append_assoc]
  exact .inside rfl haround hlen (.name hname)

/-- A container is closed. -/
theorem reached_close {e : Expect} {t : Tok} (hs : Around below ts)
    (hlen : below.length < maxJsonDepth)
    (hv : Value (maxJsonDepth - (below.length + 1) + 1) us c)
    (he : e = { notValue := true }) (ht : t ≠ .comma ∧ t ≠ .arrOpen)
    (h : ({ s with stack := below, expect := e, tok := t } : ParseState).putValue c = some s') :
    Reached s' (ts ++ us) := by
  have hn : maxJsonDepth - (below.length + 1) + 1 = maxJsonDepth - below.length := by omega
  rw [hn] at hv
  exact reached_putValue (s := { s with stack := below, expect := e, tok := t }) hs hv (.inr he)
    ht h

/-- What one token preserves, inside a container. -/
theorem reached_step_inside (hstack : s.stack = o :: below) (haround : Around below ts)
    (hlen : below.length < maxJsonDepth)
    (hin : Innermost (maxJsonDepth - (below.length + 1)) o us s.expect s.tok)
    (h : s.step tok = some s') : Reached s' (ts ++ us ++ [tok]) := by
  have hbegins : Waits (maxJsonDepth - (below.length + 1)) o us → tok.isValueOpen = true →
      Awaits s.expect → Reached s' (ts ++ us ++ [tok]) := by
    intro hwaits hv he
    refine reached_begins ?_ (begins_of_isValueOpen he hv h)
    rw [hstack]
    exact haround.cons hlen hwaits
  generalize he : s.expect = e at hin
  generalize htok : s.tok = t at hin
  cases hin with
  | arrOpen =>
      by_cases hclose : tok = .arrClose
      · subst hclose
        rw [step_arrClose (.inr he) hstack (by simp [htok])] at h
        rw [List.append_assoc]
        exact reached_close haround hlen .emptyArray rfl (by simp) h
      · have hv := isValueOpen_of_step (.inr he) (fun _ => hclose) h
        exact hbegins .first hv (.inr (.inr he))
  | arrComma helems =>
      have hclose : tok ≠ .arrClose := by
        rintro rfl
        rw [step_close_comma htok (.inl rfl)] at h
        cases h
      have hv := isValueOpen_of_step (.inr he) (fun _ => hclose) h
      exact hbegins (.next helems) hv (.inr (.inr he))
  | objOpen =>
      rcases tok_of_objName he h with rfl | ⟨k, rfl⟩
      · rw [step_objClose (.inr he) hstack (by simp [htok])] at h
        rw [List.append_assoc]
        exact reached_close haround hlen .emptyObject rfl (by simp) h
      · exact reached_name hstack haround hlen .first he h
  | objComma hmembers =>
      rcases tok_of_objName he h with rfl | ⟨k, rfl⟩
      · rw [step_close_comma htok (.inr rfl)] at h
        cases h
      · exact reached_name hstack haround hlen (.next hmembers) he h
  | @name us es k hname =>
      obtain rfl := tok_of_colon he h
      rw [step_colon he hstack, Option.some.injEq] at h
      subst h
      rw [List.append_assoc, List.append_assoc]
      exact .inside hstack haround hlen (.colon hname)
  | colon hname =>
      have hv := isValueOpen_of_step (.inl he) (by simp [he]) h
      exact hbegins (.member hname) hv (.inr (.inl he))
  | value hholds hne =>
      subst htok
      rcases tok_of_notValue he h with rfl | rfl | rfl
      · rw [step_comma he hstack hne, Option.some.injEq] at h
        subst h
        rw [List.append_assoc]
        refine .inside hstack haround hlen ?_
        cases hholds with
        | arr helems => exact .arrComma helems
        | obj hmembers => exact .objComma hmembers
      · obtain ⟨cs, rfl⟩ := (eq_of_close hstack h).1 rfl
        rw [step_arrClose (.inl he) hstack hne.1] at h
        cases hholds with
        | arr helems =>
            rw [List.append_assoc]
            exact reached_close haround hlen (.array helems) rfl (by simp) h
      · obtain ⟨es, rfl⟩ := (eq_of_close hstack h).2 rfl
        rw [step_objClose (.inl he) hstack hne.1] at h
        cases hholds with
        | obj hmembers =>
            rw [List.append_assoc]
            exact reached_close haround hlen (.object hmembers) rfl (by simp) h

/-- The first token. -/
theorem reached_first (h : ({} : ParseState).step tok = some s') : Reached s' [tok] := by
  have hv : tok.isValueOpen = true := by
    by_contra hv
    cases tok <;> simp [step, checkExpected, checkNotValue, closeContainer, ParseState.comma,
      Tok.isValueOpen, Tok.isValue] at h hv
  exact reached_begins (s := {}) .nil (begins_of_isValueOpen (.inl rfl) hv h)

/-- What one token preserves. -/
theorem reached_step (hs : s.stack ≠ []) (hr : Reached s ts) (h : s.step tok = some s') :
    Reached s' (ts ++ [tok]) := by
  cases hr with
  | done hnil _ => exact absurd hnil hs
  | inside hstack haround hlen hin => exact reached_step_inside hstack haround hlen hin h

/-- What the loop preserves. -/
theorem reached_tokenLoop {toks rest : List Tok} (hs : s.stack ≠ []) (hr : Reached s ts)
    (h : tokenLoop s toks = some (s', rest)) :
    s'.stack = [] ∧ ∃ us, toks = us ++ rest ∧ Reached s' (ts ++ us) := by
  induction toks generalizing s ts with
  | nil => cases h
  | cons tok toks ih =>
      cases hstep : s.step tok with
      | none => simp [tokenLoop, hstep] at h
      | some s₁ =>
          have hr₁ := reached_step hs hr hstep
          by_cases hnil : s₁.stack = []
          · rw [tokenLoop_of_last hstep hnil, Option.some.injEq, Prod.mk.injEq] at h
            obtain ⟨rfl, rfl⟩ := h
            exact ⟨hnil, [tok], rfl, hr₁⟩
          · rw [tokenLoop_of_step hstep hnil] at h
            obtain ⟨hend, us, rfl, hr'⟩ := ih hnil hr₁ h
            refine ⟨hend, tok :: us, rfl, ?_⟩
            rw [List.append_cons]
            exact hr'

/-- The loop ends with a tree of the grammar, and only with one. -/
theorem tokenLoop_iff {toks : List Tok} :
    (∃ s, tokenLoop {} toks = some (s, []) ∧ s.root = c) ↔ Value maxJsonDepth toks c := by
  constructor
  · rintro ⟨s, hloop, rfl⟩
    cases toks with
    | nil => cases hloop
    | cons tok toks =>
        have hdone : ∀ {ts : List Tok}, s.stack = [] → Reached s ts →
            Value maxJsonDepth ts s.root := by
          intro ts hnil hr
          cases hr with
          | done _ hv => exact hv
          | inside hstack _ _ _ =>
              rw [hnil] at hstack
              cases hstack
        cases hstep : ({} : ParseState).step tok with
        | none => simp [tokenLoop, hstep] at hloop
        | some s₁ =>
            have hr₁ := reached_first hstep
            by_cases hnil : s₁.stack = []
            · rw [tokenLoop_of_last hstep hnil, Option.some.injEq, Prod.mk.injEq] at hloop
              obtain ⟨rfl, rfl⟩ := hloop
              exact hdone hnil hr₁
            · rw [tokenLoop_of_step hstep hnil] at hloop
              obtain ⟨hend, us, rfl, hr⟩ := reached_tokenLoop hnil hr₁ hloop
              rw [List.append_nil]
              exact hdone hend hr
  · exact Value.loop_start

end Json
end Shulcrum
