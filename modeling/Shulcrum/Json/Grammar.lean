import Shulcrum.Json.Model

/-!
# The JSON grammar

`Value`, `Elements` and `Members` are the grammar of RFC 8259 over tokens, with a
bound on the nesting of the containers.  `TokText` and `Spells` say which bytes
are tokens with white space around them, and `Denotes` which value a tree of the
grammar stands for.

**Results.**
* `Value.deepest`: the tokens of a value tell how deep it is nested, so its
  nesting does not depend on the derivation.
-/

namespace Shulcrum
namespace Json

/-! ## Values -/

mutual

/-- The `value` of the grammar, with containers nested at most `n` deep. -/
inductive Value : Nat → List Tok → Container → Prop
  | kwNull {n : Nat} : Value n [.kwNull] .null
  | kwTrue {n : Nat} : Value n [.kwTrue] .boolTrue
  | kwFalse {n : Nat} : Value n [.kwFalse] .boolFalse
  | number {n : Nat} {data : QByteArray} : Value n [.number data] (.num data)
  | string {n : Nat} {data : QByteArray} : Value n [.string data] (.str data)
  | emptyArray {n : Nat} : Value (n + 1) [.arrOpen, .arrClose] (.arr [])
  | array {n : Nat} {ts : List Tok} {cs : List Container} :
      Elements n ts cs → Value (n + 1) (.arrOpen :: (ts ++ [.arrClose])) (.arr cs)
  | emptyObject {n : Nat} : Value (n + 1) [.objOpen, .objClose] (.obj [])
  | object {n : Nat} {ts : List Tok} {es : List (QByteArray × Container)} :
      Members n ts es → Value (n + 1) (.objOpen :: (ts ++ [.objClose])) (.obj es)

/-- `value *( value-separator value )`. -/
inductive Elements : Nat → List Tok → List Container → Prop
  | one {n : Nat} {ts : List Tok} {c : Container} : Value n ts c → Elements n ts [c]
  | more {n : Nat} {ts us : List Tok} {cs : List Container} {c : Container} :
      Elements n ts cs → Value n us c → Elements n (ts ++ .comma :: us) (cs ++ [c])

/-- `member *( value-separator member )`. -/
inductive Members : Nat → List Tok → List (QByteArray × Container) → Prop
  | one {n : Nat} {ts : List Tok} {k : QByteArray} {c : Container} :
      Value n ts c → Members n (.string k :: .colon :: ts) [(k, c)]
  | more {n : Nat} {ts us : List Tok} {es : List (QByteArray × Container)} {k : QByteArray}
      {c : Container} : Members n ts es → Value n us c →
      Members n (ts ++ .comma :: .string k :: .colon :: us) (es ++ [(k, c)])

end

/-! ## Bytes -/

/-- Only digits. -/
def AllDigits (ds : QByteArray) : Prop := ∀ d ∈ ds, jsonIsDigit d = true

/-- The `int` of the grammar: no leading zero. -/
inductive IsInt : QByteArray → Prop
  | zero : IsInt [0x30]
  | digits {d : UInt8} {ds : QByteArray} :
      jsonIsDigit d = true → d ≠ 0x30 → AllDigits ds → IsInt (d :: ds)

/-- `[ frac ]`. -/
inductive IsFrac : QByteArray → Prop
  | absent : IsFrac []
  | point {ds : QByteArray} : ds ≠ [] → AllDigits ds → IsFrac (0x2e :: ds)

/-- `[ exp ]`. -/
inductive IsExp : QByteArray → Prop
  | absent : IsExp []
  | exponent {e : UInt8} {sign ds : QByteArray} : e = 0x65 ∨ e = 0x45 →
      sign = [] ∨ sign = [0x2d] ∨ sign = [0x2b] → ds ≠ [] → AllDigits ds →
      IsExp (e :: (sign ++ ds))

/-- `[ minus ] int [ frac ] [ exp ]`. -/
inductive IsNumber : QByteArray → Prop
  | mk {minus int frac exp : QByteArray} : minus = [] ∨ minus = [0x2d] → IsInt int →
      IsFrac frac → IsExp exp → IsNumber (minus ++ int ++ frac ++ exp)

/-- The bytes of a token; a string token is what `getJsonToken` accepts. -/
inductive TokText : Tok → QByteArray → Prop
  | objOpen : TokText .objOpen [0x7b]
  | objClose : TokText .objClose [0x7d]
  | arrOpen : TokText .arrOpen [0x5b]
  | arrClose : TokText .arrClose [0x5d]
  | colon : TokText .colon [0x3a]
  | comma : TokText .comma [0x2c]
  | kwNull : TokText .kwNull nullText
  | kwTrue : TokText .kwTrue trueText
  | kwFalse : TokText .kwFalse falseText
  | number {text : QByteArray} : IsNumber text → TokText (.number text) text
  | string {body data : QByteArray} : getJsonToken (0x22 :: body) = (.string data, []) →
      TokText (.string data) (0x22 :: body)

/-- Only white space. -/
def Blank (ws : QByteArray) : Prop := ∀ ch ∈ ws, jsonIsSpace ch = true

/-- A token sequence, with white space around every token. -/
inductive Spells : List Tok → QByteArray → Prop
  | nil {ws : QByteArray} : Blank ws → Spells [] ws
  | cons {tok : Tok} {toks : List Tok} {ws text rest : QByteArray} : Blank ws →
      TokText tok text → Spells toks rest → Spells (tok :: toks) (ws ++ text ++ rest)

/-! ## What a value stands for -/

section Meaning

variable (P : Platform)

mutual

/-- The value of a tree. -/
inductive Denotes : Container → Variant P.Double → Prop
  | null : Denotes .null .null
  | boolTrue : Denotes .boolTrue (.bool true)
  | boolFalse : Denotes .boolFalse (.bool false)
  | negative {int : QByteArray} {i : Int64} : IsInt int → i.toInt = -decimal int →
      Denotes (.num (0x2d :: int)) (.longlong i)
  | nonnegative {int : QByteArray} {u : UInt64} : IsInt int → u.toNat = decimal int →
      Denotes (.num int) (.ulonglong u)
  /-- A number with a fraction or an exponent. -/
  | double {minus int frac exp : QByteArray} : frac ≠ [] ∨ exp ≠ [] →
      minus = [] ∨ minus = [0x2d] → IsInt int → IsFrac frac → IsExp exp →
      (P.strtod (minus ++ int ++ frac ++ exp)).rangeError = false →
      (P.strtod (minus ++ int ++ frac ++ exp)).parsed ≠ 0 →
      Denotes (.num (minus ++ int ++ frac ++ exp))
        (.double (P.strtod (minus ++ int ++ frac ++ exp)).value)
  | string {data : QByteArray} : Denotes (.str data) (.string (P.fromUtf8 data))
  | list {cs : List Container} {vs : List (Variant P.Double)} :
      DenotesAll cs vs → Denotes (.arr cs) (.list vs)
  | map {es : List (QByteArray × Container)} {kvs m : List (QString × Variant P.Double)} :
      DenotesEntries es kvs → SortedEntries.Collects kvs m → Denotes (.obj es) (.map m)

inductive DenotesAll : List Container → List (Variant P.Double) → Prop
  | nil : DenotesAll [] []
  | cons {c : Container} {cs : List Container} {v : Variant P.Double}
      {vs : List (Variant P.Double)} :
      Denotes c v → DenotesAll cs vs → DenotesAll (c :: cs) (v :: vs)

inductive DenotesEntries :
    List (QByteArray × Container) → List (QString × Variant P.Double) → Prop
  | nil : DenotesEntries [] []
  | cons {k : QByteArray} {c : Container} {es : List (QByteArray × Container)}
      {v : Variant P.Double} {kvs : List (QString × Variant P.Double)} :
      Denotes c v → DenotesEntries es kvs →
      DenotesEntries ((k, c) :: es) ((P.fromUtf8 k, v) :: kvs)

end

end Meaning

/-! ## Nesting -/

mutual

/-- How deep the containers of a tree are nested. -/
def Container.depth : Container → Nat
  | .arr values => depthOfAll values + 1
  | .obj entries => depthOfEntries entries + 1
  | _ => 0

def depthOfAll : List Container → Nat
  | [] => 0
  | c :: cs => max c.depth (depthOfAll cs)

def depthOfEntries : List (QByteArray × Container) → Nat
  | [] => 0
  | (_, c) :: es => max c.depth (depthOfEntries es)

end

theorem depthOfAll_append (cs cs' : List Container) :
    depthOfAll (cs ++ cs') = max (depthOfAll cs) (depthOfAll cs') := by
  induction cs with
  | nil => simp [depthOfAll]
  | cons c cs ih => rw [List.cons_append, depthOfAll, depthOfAll, ih, max_assoc]

theorem depthOfEntries_append (es es' : List (QByteArray × Container)) :
    depthOfEntries (es ++ es') = max (depthOfEntries es) (depthOfEntries es') := by
  induction es with
  | nil => simp [depthOfEntries]
  | cons e es ih => rw [List.cons_append, depthOfEntries, depthOfEntries, ih, max_assoc]

mutual

theorem Value.depth_le {n : Nat} {ts : List Tok} {c : Container} :
    Value n ts c → c.depth ≤ n
  | .kwNull | .kwTrue | .kwFalse | .number | .string => Nat.zero_le n
  | .emptyArray => by simp [Container.depth, depthOfAll]
  | .array h => by
      rw [Container.depth]
      exact Nat.succ_le_succ h.depth_le
  | .emptyObject => by simp [Container.depth, depthOfEntries]
  | .object h => by
      rw [Container.depth]
      exact Nat.succ_le_succ h.depth_le

theorem Elements.depth_le {n : Nat} {ts : List Tok} {cs : List Container} :
    Elements n ts cs → depthOfAll cs ≤ n
  | .one h => by
      rw [depthOfAll, depthOfAll, Nat.max_zero]
      exact h.depth_le
  | .more h hv => by
      rw [depthOfAll_append, depthOfAll, depthOfAll, Nat.max_zero]
      exact max_le h.depth_le hv.depth_le

theorem Members.depth_le {n : Nat} {ts : List Tok} {es : List (QByteArray × Container)} :
    Members n ts es → depthOfEntries es ≤ n
  | .one h => by
      rw [depthOfEntries, depthOfEntries, Nat.max_zero]
      exact h.depth_le
  | .more h hv => by
      rw [depthOfEntries_append, depthOfEntries, depthOfEntries, Nat.max_zero]
      exact max_le h.depth_le hv.depth_le

end

/-- How the nesting changes at a token. -/
def nestAt (d : Nat) : Tok → Nat
  | .arrOpen | .objOpen => d + 1
  | .arrClose | .objClose => d - 1
  | _ => d

/-- The deepest nesting from a token on. -/
def deepest (d : Nat) : List Tok → Nat
  | [] => d
  | tok :: toks => max d (deepest (nestAt d tok) toks)

theorem le_deepest (d : Nat) (toks : List Tok) : d ≤ deepest d toks := by
  cases toks with
  | nil => exact Nat.le_refl d
  | cons tok toks => exact Nat.le_max_left _ _

mutual

theorem Value.deepest {n : Nat} {ts : List Tok} {c : Container} (d : Nat) (rest : List Tok) :
    Value n ts c → deepest d (ts ++ rest) = max (d + c.depth) (deepest d rest)
  | .kwNull | .kwTrue | .kwFalse | .number | .string => rfl
  | .emptyArray => by
      have hle := le_deepest d rest
      simp only [List.cons_append, List.nil_append, Json.deepest, nestAt, Container.depth,
        depthOfAll, Nat.add_sub_cancel]
      omega
  | .array h => by
      have hle := le_deepest d rest
      simp only [List.cons_append, List.append_assoc, List.nil_append, Json.deepest, nestAt,
        Container.depth, h.deepest (d + 1), Nat.add_sub_cancel]
      omega
  | .emptyObject => by
      have hle := le_deepest d rest
      simp only [List.cons_append, List.nil_append, Json.deepest, nestAt, Container.depth,
        depthOfEntries, Nat.add_sub_cancel]
      omega
  | .object h => by
      have hle := le_deepest d rest
      simp only [List.cons_append, List.append_assoc, List.nil_append, Json.deepest, nestAt,
        Container.depth, h.deepest (d + 1), Nat.add_sub_cancel]
      omega

theorem Elements.deepest {n : Nat} {ts : List Tok} {cs : List Container} (d : Nat)
    (rest : List Tok) :
    Elements n ts cs → deepest d (ts ++ rest) = max (d + depthOfAll cs) (deepest d rest)
  | .one h => by
      rw [h.deepest, depthOfAll, depthOfAll, Nat.max_zero]
  | .more h hv => by
      rw [List.append_assoc, h.deepest, depthOfAll_append, depthOfAll, depthOfAll]
      simp only [List.cons_append, Json.deepest, nestAt, hv.deepest]
      omega

theorem Members.deepest {n : Nat} {ts : List Tok} {es : List (QByteArray × Container)} (d : Nat)
    (rest : List Tok) :
    Members n ts es → deepest d (ts ++ rest) = max (d + depthOfEntries es) (deepest d rest)
  | .one h => by
      simp only [List.cons_append, Json.deepest, nestAt, h.deepest, depthOfEntries]
      omega
  | .more h hv => by
      rw [List.append_assoc, h.deepest, depthOfEntries_append, depthOfEntries, depthOfEntries]
      simp only [List.cons_append, Json.deepest, nestAt, hv.deepest]
      omega

end

/-- The nesting of a value is the same in all derivations from its tokens. -/
theorem Value.depth_eq {n n' : Nat} {ts : List Tok} {c c' : Container} (h : Value n ts c)
    (h' : Value n' ts c') : c.depth = c'.depth := by
  have hd := h.deepest 0 []
  rw [h'.deepest 0 []] at hd
  simp only [Json.deepest, Nat.zero_add, Nat.max_zero] at hd
  exact hd.symm

end Json
end Shulcrum
