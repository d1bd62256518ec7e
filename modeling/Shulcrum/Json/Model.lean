import Shulcrum.Json.Variant

/-!
# The default JSON parser

`getJsonToken` reads one token.  `parse` runs a machine over the tokens, with a
stack of open containers and a set of expectation flags, and converts what it
has built to a `QVariant`.

The stack of the source points into the tree under `root`.  Here it is the list
of the open containers themselves, the innermost first, and a container is put
into the one around it when it is closed.  A position in the text is the list of
the bytes from there on.  No length overflows its type, as for the sizes of
Qt 5, which are `int`.
-/

namespace Shulcrum
namespace Json

/-- `jtokentype`, with the value of the token. -/
inductive Tok where
  | err
  | none
  | objOpen
  | objClose
  | arrOpen
  | arrClose
  | colon
  | comma
  | kwNull
  | kwTrue
  | kwFalse
  | number (data : QByteArray)
  | string (data : QByteArray)
  deriving DecidableEq, Repr

/-- `jsonTokenIsValue`. -/
def Tok.isValue : Tok → Bool
  | kwNull | kwTrue | kwFalse | number _ | string _ => true
  | _ => false

/-- `isValueOpen` in `parse`. -/
def Tok.isValueOpen (tok : Tok) : Bool := tok.isValue || tok = objOpen || tok = arrOpen

def Tok.isString : Tok → Bool
  | string _ => true
  | _ => false

/-- `MAX_JSON_DEPTH`. -/
def maxJsonDepth : Nat := 512

/-- `json_isspace`. -/
def jsonIsSpace (ch : UInt8) : Bool := ch = 0x20 || ch = 0x09 || ch = 0x0a || ch = 0x0d

/-- `json_isdigit`. -/
def jsonIsDigit (ch : UInt8) : Bool := 0x30 ≤ ch && ch ≤ 0x39

/-- The value of a hexadecimal digit in `hextouint`. -/
def hexDigit (ch : UInt8) : Option Nat :=
  if jsonIsDigit ch then some (ch.toNat - 0x30)
  else if 0x61 ≤ ch ∧ ch ≤ 0x66 then some (ch.toNat - 0x61 + 10)
  else if 0x41 ≤ ch ∧ ch ≤ 0x46 then some (ch.toNat - 0x41 + 10)
  else none

/-- `hextouint`; none if it stops before the end. -/
def hextouint (s : QByteArray) : Option Nat :=
  s.foldlM (fun out ch => (hexDigit ch).map (16 * out + ·)) 0

/-! ## Strings -/

/-- `JSONUTF8StringFilter`. -/
structure JSONUTF8StringFilter where
  str : QByteArray
  isValid : Bool := true
  codepoint : Nat := 0
  state : Nat := 0
  surpair : Nat := 0
  deriving DecidableEq, Repr

namespace JSONUTF8StringFilter

/-- What `append_codepoint` appends. -/
def encodeCodepoint (cp : Nat) : QByteArray :=
  if cp ≤ 0x7f then [.ofNat cp]
  else if cp ≤ 0x7ff then [.ofNat (0xc0 ||| (cp >>> 6)), .ofNat (0x80 ||| (cp &&& 0x3f))]
  else if cp ≤ 0xffff then
    [.ofNat (0xe0 ||| (cp >>> 12)), .ofNat (0x80 ||| ((cp >>> 6) &&& 0x3f)),
     .ofNat (0x80 ||| (cp &&& 0x3f))]
  else if cp ≤ 0x1fffff then
    [.ofNat (0xf0 ||| (cp >>> 18)), .ofNat (0x80 ||| ((cp >>> 12) &&& 0x3f)),
     .ofNat (0x80 ||| ((cp >>> 6) &&& 0x3f)), .ofNat (0x80 ||| (cp &&& 0x3f))]
  else []

/-- `append_codepoint`. -/
def appendCodepoint (w : JSONUTF8StringFilter) (cp : Nat) : JSONUTF8StringFilter :=
  { w with str := w.str ++ encodeCodepoint cp }

def setInvalid (w : JSONUTF8StringFilter) : JSONUTF8StringFilter := { w with isValid := false }

/-- `push_back_u`. -/
def pushBackU (w : JSONUTF8StringFilter) (cp : Nat) : JSONUTF8StringFilter :=
  let w := if w.state ≠ 0 then w.setInvalid else w
  if 0xd800 ≤ cp ∧ cp < 0xdc00 then
    if w.surpair ≠ 0 then w.setInvalid else { w with surpair := cp }
  else if 0xdc00 ≤ cp ∧ cp < 0xe000 then
    if w.surpair ≠ 0 then
      { w.appendCodepoint (0x10000 ||| ((w.surpair - 0xd800) <<< 10) ||| (cp - 0xdc00)) with
        surpair := 0 }
    else w.setInvalid
  else if w.surpair ≠ 0 then w.setInvalid
  else w.appendCodepoint cp

/-- `push_back`. -/
def pushBack (w : JSONUTF8StringFilter) (ch : UInt8) : JSONUTF8StringFilter :=
  let c := ch.toNat
  if w.state = 0 then
    if c < 0x80 then { w with str := w.str ++ [ch] }
    else if c < 0xc0 then w.setInvalid
    else if c < 0xe0 then { w with codepoint := (c &&& 0x1f) <<< 6, state := 6 }
    else if c < 0xf0 then { w with codepoint := (c &&& 0x0f) <<< 12, state := 12 }
    else if c < 0xf8 then { w with codepoint := (c &&& 0x07) <<< 18, state := 18 }
    else w.setInvalid
  else
    let w := if c &&& 0xc0 ≠ 0x80 then w.setInvalid else w
    let state := w.state - 6
    let codepoint := w.codepoint ||| ((c &&& 0x3f) <<< state)
    let w := { w with state := state, codepoint := codepoint }
    if state = 0 then w.pushBackU codepoint else w

/-- `finalize`. -/
def finalize (w : JSONUTF8StringFilter) : Bool :=
  if w.state ≠ 0 || w.surpair ≠ 0 then false else w.isValid

end JSONUTF8StringFilter

/-- The character of a two-character escape. -/
def simpleEscape (ch : UInt8) : Option UInt8 :=
  if ch = 0x22 then some 0x22          -- quotation mark
  else if ch = 0x5c then some 0x5c     -- backslash
  else if ch = 0x2f then some 0x2f     -- slash
  else if ch = 0x62 then some 0x08     -- b
  else if ch = 0x66 then some 0x0c     -- f
  else if ch = 0x6e then some 0x0a     -- n
  else if ch = 0x72 then some 0x0d     -- r
  else if ch = 0x74 then some 0x09     -- t
  else none

/-- The slow path of a string, up to its end or to an error. -/
def slowPath (w : JSONUTF8StringFilter) : List UInt8 → Option (JSONUTF8StringFilter × List UInt8)
  | [] => none
  | ch :: raw =>
      if ch < 0x20 then none
      else if ch = 0x5c then
        match raw with
        | [] => none
        | esc :: raw =>
            match simpleEscape esc with
            | some c => slowPath (w.pushBack c) raw
            | none =>
                if esc = 0x75 then
                  match raw with
                  -- something must follow the four digits
                  | a :: b :: c :: d :: e :: raw =>
                      match hextouint [a, b, c, d] with
                      | some codepoint => slowPath (w.pushBackU codepoint) (e :: raw)
                      | none => none
                  | _ => none
                else none
      else if ch = 0x22 then some (w, raw)
      else slowPath (w.pushBack ch) raw

inductive FastPath where
  | processed
  | notFullyProcessed
  | error
  deriving DecidableEq, Repr

/-- `FastPathParseSimpleString`, with the position where it stops. -/
def fastPathParseSimpleString : List UInt8 → FastPath × List UInt8
  | [] => (.error, [])
  | ch :: raw =>
      if ch = 0x22 then (.processed, ch :: raw)
      else if ch = 0x5c then (.notFullyProcessed, ch :: raw)
      else if ch < 0x20 then (.error, ch :: raw)
      else if ch ≥ 0x80 then (.notFullyProcessed, ch :: raw)
      else fastPathParseSimpleString raw

/-- The bytes from one position to a later one. -/
def between (first raw : List UInt8) : QByteArray := first.take (first.length - raw.length)

/-- A string token, from after its opening quotation mark. -/
def stringToken (start : List UInt8) : Tok × List UInt8 :=
  match fastPathParseSimpleString start with
  | (.error, raw) => (.err, raw)
  | (.processed, raw) => (.string (between start raw), raw.tail)
  | (.notFullyProcessed, raw) =>
      match slowPath { str := between start raw } raw with
      | none => (.err, raw)
      | some (w, raw) => if w.finalize then (.string w.str, raw) else (.err, raw)

/-! ## Numbers -/

def startsWithDigit : List UInt8 → Bool
  | [] => false
  | ch :: _ => jsonIsDigit ch

/-- A zero that is followed by a digit. -/
def hasLeadingZero : List UInt8 → Bool
  | ch :: raw => ch = 0x30 && startsWithDigit raw
  | [] => false

/-- Part 2 of a number: the fraction. -/
def scanFrac : List UInt8 → Option (List UInt8)
  | [] => some []
  | ch :: raw =>
      if ch = 0x2e then if startsWithDigit raw then some (raw.dropWhile jsonIsDigit) else none
      else some (ch :: raw)

def skipSign : List UInt8 → List UInt8
  | [] => []
  | ch :: raw => if ch = 0x2d ∨ ch = 0x2b then raw else ch :: raw

/-- Part 3 of a number: the exponent. -/
def scanExp : List UInt8 → Option (List UInt8)
  | [] => some []
  | ch :: raw =>
      if ch = 0x65 ∨ ch = 0x45 then
        if startsWithDigit (skipSign raw) then some ((skipSign raw).dropWhile jsonIsDigit)
        else none
      else some (ch :: raw)

/-- A number token: where it ends. -/
def scanNumber (first : List UInt8) : Option (List UInt8) :=
  let firstIsMinus : Bool := first.head? = some 0x2d
  let firstDigit := if firstIsMinus then first.tail else first
  if hasLeadingZero firstDigit then none
  else if firstIsMinus && !startsWithDigit first.tail then none
  else (scanFrac (first.tail.dropWhile jsonIsDigit)).bind scanExp

/-! ## Tokens -/

/-- The three literal names. -/
def nullText : QByteArray := [0x6e, 0x75, 0x6c, 0x6c]

def trueText : QByteArray := [0x74, 0x72, 0x75, 0x65]

def falseText : QByteArray := [0x66, 0x61, 0x6c, 0x73, 0x65]

def keyword (text : QByteArray) (tok : Tok) (raw : List UInt8) : Tok × List UInt8 :=
  if raw.take text.length = text then (tok, raw.drop text.length) else (.err, raw)

/-- A token whose first byte is at hand. -/
def tokenAt (ch : UInt8) (raw : List UInt8) : Tok × List UInt8 :=
  if ch = 0x7b then (.objOpen, raw)
  else if ch = 0x7d then (.objClose, raw)
  else if ch = 0x5b then (.arrOpen, raw)
  else if ch = 0x5d then (.arrClose, raw)
  else if ch = 0x3a then (.colon, raw)
  else if ch = 0x2c then (.comma, raw)
  else if ch = 0x6e then keyword nullText .kwNull (ch :: raw)
  else if ch = 0x74 then keyword trueText .kwTrue (ch :: raw)
  else if ch = 0x66 then keyword falseText .kwFalse (ch :: raw)
  else if ch = 0x2d || jsonIsDigit ch then
    match scanNumber (ch :: raw) with
    | some rest => (.number (between (ch :: raw) rest), rest)
    | none => (.err, ch :: raw)
  else if ch = 0x22 then stringToken raw
  else (.err, ch :: raw)

/-- `getJsonToken`: the token and the position after it. -/
def getJsonToken (raw : List UInt8) : Tok × List UInt8 :=
  match raw.dropWhile jsonIsSpace with
  | [] => (.none, [])
  | ch :: raw => tokenAt ch raw

/-! ## Containers -/

/-- `Container`. -/
inductive Container where
  | null
  | boolFalse
  | boolTrue
  | num (data : QByteArray)
  | str (data : QByteArray)
  | arr (values : List Container)
  | obj (entries : List (QByteArray × Container))

/-- The digits at the start, as a number. -/
def decimal (ds : List UInt8) : Nat := ds.foldl (fun n d => 10 * n + (d.toNat - 0x30)) 0

/-- `std::strtoll` in base 10, for a text without leading white space. -/
def strtoll (s : QByteArray) : Conversion Int :=
  let minus : Bool := s.head? = some 0x2d
  let digits := (if minus then s.tail else s).takeWhile jsonIsDigit
  let n : Int := if minus then -decimal digits else decimal digits
  { value := max (-2 ^ 63) (min (2 ^ 63 - 1) n)
    rangeError := n < -2 ^ 63 || 2 ^ 63 - 1 < n
    parsed := if digits.isEmpty then 0 else (if minus then 1 else 0) + digits.length }

/-- `std::strtoull` in base 10, for a text without leading white space and sign. -/
def strtoull (s : QByteArray) : Conversion Nat :=
  let digits := s.takeWhile jsonIsDigit
  { value := min (2 ^ 64 - 1) (decimal digits)
    rangeError := 2 ^ 64 - 1 < decimal digits
    parsed := digits.length }

variable (P : Platform)

/-- The `Num` case of `Container::toVariant`. -/
def numToVariant (data : QByteArray) : Option (Variant P.Double) :=
  if data.isEmpty then none
  else
    let dcopy := data.take 47
    if (0x2e : UInt8) ∈ dcopy ∨ (0x65 : UInt8) ∈ dcopy ∨ (0x45 : UInt8) ∈ dcopy then
      let d := P.strtod dcopy
      if !d.rangeError && d.parsed ≠ 0 then some (.double d.value) else none
    else if dcopy.head? = some 0x2d then
      let ll := strtoll dcopy
      if !ll.rangeError && ll.parsed = dcopy.length then some (.longlong (.ofInt ll.value))
      else none
    else
      let ull := strtoull dcopy
      if !ull.rangeError && ull.parsed = dcopy.length then some (.ulonglong (.ofNat ull.value))
      else none

mutual

/-- `Container::toVariant`; none if it throws. -/
def Container.toVariant : Container → Option (Variant P.Double)
  | .null => some .null
  | .num data => numToVariant P data
  | .boolTrue => some (.bool true)
  | .boolFalse => some (.bool false)
  | .str data => some (.string (P.fromUtf8 data))
  | .arr values => (toVariants values).map .list
  | .obj entries => (toVariantMap [] entries).map .map

def toVariants : List Container → Option (List (Variant P.Double))
  | [] => some []
  | cont :: values => do
      let v ← cont.toVariant
      let vl ← toVariants values
      return v :: vl

def toVariantMap (vm : List (QString × Variant P.Double)) :
    List (QByteArray × Container) → Option (List (QString × Variant P.Double))
  | [] => some vm
  | (key, cont) :: entries => do
      let v ← cont.toVariant
      toVariantMap (SortedEntries.assign (P.fromUtf8 key) v vm) entries

end

/-! ## The machine -/

/-- A container on the stack. -/
inductive OpenContainer where
  | arr (values : List Container)
  | obj (entries : List (QByteArray × Container))

def OpenContainer.toContainer : OpenContainer → Container
  | arr values => .arr values
  | obj entries => .obj entries

/-- Put a value at the back of a container; none if an object has no entry for it. -/
def OpenContainer.put : OpenContainer → Container → Option OpenContainer
  | arr values, cont => some (arr (values ++ [cont]))
  | obj entries, cont => entries.getLast?.map fun e => obj (entries.dropLast ++ [(e.1, cont)])

/-- `ExpectBits`. -/
structure Expect where
  objName : Bool := false
  colon : Bool := false
  arrValue : Bool := false
  value : Bool := false
  notValue : Bool := false
  deriving DecidableEq, Repr

/-- The variables of the loop; `tok` is the token before, which becomes `last_tok`. -/
structure ParseState where
  root : Container := .null
  stack : List OpenContainer := []
  expect : Expect := {}
  tok : Tok := .none

/-- The first checks of the loop body: is the token expected? -/
def checkExpected (e : Expect) (tok : Tok) : Option Expect :=
  if e.value then if tok.isValueOpen then some { e with value := false } else none
  else if e.arrValue then
    if tok.isValueOpen || tok = .arrClose then some { e with arrValue := false } else none
  else if e.objName then if tok = .objClose || tok.isString then some e else none
  else if e.colon then if tok = .colon then some { e with colon := false } else none
  else if tok = .colon then none
  else some e

/-- The check for a value that is not expected. -/
def checkNotValue (e : Expect) (tok : Tok) : Option Expect :=
  if e.notValue then if tok.isValueOpen then none else some { e with notValue := false }
  else some e

namespace ParseState

/-- `JTOK_OBJ_OPEN` and `JTOK_ARR_OPEN`. -/
def openContainer (st : ParseState) (o : OpenContainer) (e : Expect) : Option ParseState :=
  match st.stack with
  | .obj [] :: _ => none
  | stack =>
      if stack.length + 1 > maxJsonDepth then none
      else some { st with stack := o :: stack, expect := e }

/-- A value that needs no container of its own, or one that was closed. -/
def putValue (st : ParseState) (cont : Container) : Option ParseState :=
  match st.stack with
  | [] => some { st with root := cont }
  | top :: below => (top.put cont).map fun top =>
      { st with stack := top :: below, expect := { st.expect with notValue := true } }

/-- `JTOK_OBJ_CLOSE` and `JTOK_ARR_CLOSE`. -/
def closeContainer (st : ParseState) (lastTok tok : Tok) : Option ParseState :=
  if lastTok = .comma then none
  else
    match st.stack, tok with
    | .arr values :: below, .arrClose => put (.arr values) below
    | .obj entries :: below, .objClose => put (.obj entries) below
    | _, _ => none
where
  put (cont : Container) (below : List OpenContainer) : Option ParseState :=
    ({ st with
      stack := below
      expect := { st.expect with objName := false, notValue := true } }).putValue cont

/-- `JTOK_COLON`. -/
def colon (st : ParseState) : Option ParseState :=
  match st.stack with
  | .obj _ :: _ => some { st with expect := { st.expect with value := true } }
  | _ => none

/-- `JTOK_COMMA`. -/
def comma (st : ParseState) (lastTok : Tok) : Option ParseState :=
  if lastTok = .comma ∨ lastTok = .arrOpen then none
  else
    match st.stack with
    | [] => none
    | .obj _ :: _ => some { st with expect := { st.expect with objName := true } }
    | .arr _ :: _ => some { st with expect := { st.expect with arrValue := true } }

/-- `JTOK_STRING`, where a name is expected. -/
def name (st : ParseState) (data : QByteArray) : Option ParseState :=
  let expect := { st.expect with objName := false, colon := true, notValue := true }
  match st.stack with
  | .obj entries :: below =>
      some { st with stack := .obj (entries ++ [(data, .null)]) :: below, expect := expect }
  | _ => none

/-- The body of the loop of `parse`, after the token was read. -/
def step (st : ParseState) (tok : Tok) : Option ParseState :=
  ((checkExpected st.expect tok).bind (checkNotValue · tok)).bind fun expect =>
    let lastTok := st.tok
    let st := { st with expect := expect, tok := tok }
    match tok with
    | .objOpen => st.openContainer (.obj []) { expect with objName := true }
    | .arrOpen => st.openContainer (.arr []) { expect with arrValue := true }
    | .objClose | .arrClose => st.closeContainer lastTok tok
    | .colon => st.colon
    | .comma => st.comma lastTok
    | .kwNull => st.putValue .null
    | .kwTrue => st.putValue .boolTrue
    | .kwFalse => st.putValue .boolFalse
    | .number data => st.putValue (.num data)
    | .string data => if expect.objName then st.name data else st.putValue (.str data)
    | .err | .none => none

end ParseState

/-- The loop of `parse`: until the stack is empty again. -/
def parseLoop : Nat → ParseState → List UInt8 → Option (ParseState × List UInt8)
  | 0, _, _ => none
  | fuel + 1, st, raw =>
      match getJsonToken raw with
      | (.none, _) => none
      | (.err, _) => none
      | (tok, raw) =>
          match st.step tok with
          | none => none
          | some st => if st.stack.isEmpty then some (st, raw) else parseLoop fuel st raw

/-- `Json::detail::parse` with the default backend; none if it returns false. -/
def parse (bytes : QByteArray) : Option (Variant P.Double) :=
  match parseLoop (bytes.length + 1) {} bytes with
  | none => none
  | some (st, raw) => if (getJsonToken raw).1 ≠ .none then none else st.root.toVariant P

end Json
end Shulcrum
