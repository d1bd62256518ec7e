import Mathlib.Data.BitVec
import Mathlib.Data.List.Basic
import Mathlib.Tactic.SplitIfs

/-!
# Lines of text

What `HttpConnection` does with the lines it reads: white space is simplified, the
line is split at a separator, and numbers are read.

**Results.**
* `split_simplified`: splitting a simplified line at the blanks gives its words.
* `split_header`: splitting a header line at the colons gives its name and its value.
* `toIntegral_of_isNumber`: digits are read as the number they denote.
-/

namespace Shulcrum
namespace Rpc
namespace Http

section Model

/-- White space, as far as it is ASCII. -/
def isSpace (b : UInt8) : Bool := b == 32 || (9 ≤ b && b ≤ 13)

/-- The pieces between white space. -/
def words (ba : List UInt8) : List (List UInt8) := (ba.splitOnP isSpace).filter (!·.isEmpty)

/-- `QByteArray::simplified`. -/
def simplified (ba : List UInt8) : List UInt8 := [32].intercalate (words ba)

/-- `QByteArray::split`. -/
def split (sep : UInt8) (ba : List UInt8) : List (List UInt8) := ba.splitOn sep

/-- `QByteArrayList::join`. -/
def join (sep : UInt8) (l : List (List UInt8)) : List UInt8 := [sep].intercalate l

/-- `QByteArray::toLower`. -/
def toLower (ba : List UInt8) : List UInt8 :=
  ba.map fun b => if 65 ≤ b ∧ b ≤ 90 then b + 32 else b

/-- `QByteArray::toUpper`. -/
def toUpper (ba : List UInt8) : List UInt8 :=
  ba.map fun b => if 97 ≤ b ∧ b ≤ 122 then b - 32 else b

def isDigit (b : UInt8) : Bool := 48 ≤ b && b ≤ 57

/-- The number with the given digits. -/
def digitsValue (ba : List UInt8) : Nat := ba.foldl (fun n b => 10 * n + (b.toNat - 48)) 0

/-- `QByteArray::toInt` and `QByteArray::toLongLong` of a text without white space around it, for
the integers up to `max`; `none` if `ok` is false. -/
def toIntegral (max : Nat) (ba : List UInt8) : Option Int :=
  let neg := ba.head? = some 45
  let digits := if ba.head? = some 43 ∨ neg then ba.tail else ba
  if digits = [] ∨ digits.any (!isDigit ·) then none
  else
    let value := digitsValue digits
    if neg then if value ≤ max + 1 then some (-value) else none
    else if value ≤ max then some value else none

end Model

section Words

variable {a b w : List UInt8} {c : UInt8}

theorem words_append_cons (hc : isSpace c = true) : words (a ++ c :: b) = words a ++ words b := by
  rw [words, List.splitOnP_append_cons _ _ hc, List.filter_append]
  rfl

theorem words_cons (hc : isSpace c = true) : words (c :: b) = words b :=
  words_append_cons (a := []) hc

theorem words_of_noSpace (h : ∀ x ∈ w, isSpace x = false) :
    words w = if w = [] then [] else [w] := by
  rw [words, List.splitOnP_eq_singleton h]
  cases w with
  | nil => rfl
  | cons x w => rfl

/-- White space at the end does not matter. -/
theorem words_append_space (h : ∀ x ∈ b, isSpace x = true) : words (a ++ b) = words a := by
  induction b generalizing a with
  | nil => rw [List.append_nil]
  | cons c b ih =>
      rw [List.forall_mem_cons] at h
      have hb : words b = [] := by
        have hnil := ih (a := []) h.2
        rwa [List.nil_append] at hnil
      rw [words_append_cons h.1, hb, List.append_nil]

/-- The words are not empty, and there is no white space in them. -/
theorem mem_words (h : w ∈ words a) : w ≠ [] ∧ ∀ x ∈ w, isSpace x = false := by
  have hall : ∀ (a : List UInt8), ∀ w ∈ a.splitOnP isSpace, ∀ x ∈ w, isSpace x = false := by
    intro a
    induction a with
    | nil => simp
    | cons c a ih =>
        intro w hw
        rw [List.splitOnP_cons_eq_if_modifyHead] at hw
        split_ifs at hw with hc
        · rcases List.mem_cons.mp hw with rfl | hw
          · simp
          · exact ih w hw
        · cases hsplit : a.splitOnP isSpace with
          | nil => exact absurd hsplit (List.splitOnP_ne_nil _ _)
          | cons p ps =>
              rw [hsplit, List.modifyHead_cons] at hw
              rw [hsplit] at ih
              rcases List.mem_cons.mp hw with rfl | hw
              · intro x hx
                rcases List.mem_cons.mp hx with rfl | hx
                · simpa using hc
                · exact ih p List.mem_cons_self x hx
              · exact ih w (List.mem_cons_of_mem _ hw)
  rw [words, List.mem_filter] at h
  exact ⟨by simpa using h.2, hall a w h.1⟩

/-- The words of a text that begins with characters other than white space. -/
theorem words_append_of_noSpace (hw : w ≠ []) (h : ∀ x ∈ w, isSpace x = false)
    (b : List UInt8) : ∃ p ps, words (w ++ b) = (w ++ p) :: ps.filter (!·.isEmpty) ∧
      words b = (p :: ps).filter (!·.isEmpty) := by
  have hsplit : ∀ w : List UInt8, (∀ x ∈ w, isSpace x = false) →
      (w ++ b).splitOnP isSpace = (b.splitOnP isSpace).modifyHead (w ++ ·) := by
    intro w
    induction w with
    | nil =>
        intro _
        cases hb : b.splitOnP isSpace with
        | nil => exact absurd hb (List.splitOnP_ne_nil _ _)
        | cons p ps => simp [hb]
    | cons x w ih =>
        intro hx
        rw [List.forall_mem_cons] at hx
        rw [List.cons_append, List.splitOnP_cons_eq_if_modifyHead, ih hx.2, if_neg (by simp [hx.1])]
        cases b.splitOnP isSpace with
        | nil => rfl
        | cons p ps => rfl
  cases hb : b.splitOnP isSpace with
  | nil => exact absurd hb (List.splitOnP_ne_nil _ _)
  | cons p ps =>
      refine ⟨p, ps, ?_, ?_⟩
      · rw [words, hsplit w h, hb, List.modifyHead_cons, List.filter_cons_of_pos (by simp [hw])]
      · rw [words, hb]

/-- The words of a line made of pieces without white space. -/
theorem words_intercalate {l : List (List UInt8)} (h : ∀ w ∈ l, ∀ x ∈ w, isSpace x = false) :
    words ([32].intercalate l) = l.filter (!·.isEmpty) := by
  induction l with
  | nil => rfl
  | cons w l ih =>
      rw [List.forall_mem_cons] at h
      have hone : words w = [w].filter (!·.isEmpty) := by
        rw [words_of_noSpace h.1]
        cases w with
        | nil => rfl
        | cons x w => rfl
      cases l with
      | nil => rw [List.intercalate_singleton, hone]
      | cons w' l =>
          rw [List.intercalate_cons_cons, List.append_assoc, List.singleton_append,
            words_append_cons rfl, ih h.2, hone, ← List.filter_append, List.singleton_append]

/-- A text with a character other than white space has a word. -/
theorem words_ne_nil (h : ∃ x ∈ a, isSpace x = false) : words a ≠ [] := by
  induction a with
  | nil =>
      obtain ⟨x, hx, -⟩ := h
      cases hx
  | cons c a ih =>
      cases hc : isSpace c with
      | true =>
          obtain ⟨x, hx, hspace⟩ := h
          rw [words_cons hc]
          refine ih ⟨x, ?_, hspace⟩
          rcases List.mem_cons.mp hx with rfl | hx
          · rw [hc] at hspace
            cases hspace
          · exact hx
      | false =>
          obtain ⟨p, ps, hwords, -⟩ := words_append_of_noSpace (w := [c]) (by simp) (by simp [hc]) a
          rw [List.singleton_append] at hwords
          rw [hwords]
          simp

end Words

section Lines

variable {a line name value : List UInt8}

theorem simplified_eq_nil_iff : simplified a = [] ↔ words a = [] := by
  constructor
  · intro h
    have hwords := words_intercalate (l := words a) fun w hw => (mem_words hw).2
    have hfilter : (words a).filter (!·.isEmpty) = words a := by
      refine List.filter_eq_self.mpr ?_
      intro w hw
      simpa using (mem_words hw).1
    rw [hfilter] at hwords
    rw [← hwords]
    exact congrArg words h
  · intro h
    rw [simplified, h]
    rfl

/-- Splitting a simplified line at the blanks gives its words. -/
theorem split_simplified (h : words line ≠ []) : split 32 (simplified line) = words line := by
  refine List.splitOn_intercalate 32 ?_ h
  intro w hw hmem
  have hno := (mem_words hw).2 32 hmem
  cases hno

/-- Splitting a header line at the colons gives its name and its value. -/
theorem split_header (hne : name ≠ []) (hname : ∀ x ∈ name, isSpace x = false ∧ x ≠ 58)
    (value : List UInt8) :
    ∃ tail, split 58 (simplified (name ++ 58 :: value)) = name :: split 58 tail ∧
      simplified name = name ∧ simplified (join 58 (split 58 tail)) = simplified value := by
  have hspace : ∀ x ∈ name ++ [58], isSpace x = false := by
    intro x hx
    rcases List.mem_append.mp hx with hx | hx
    · exact (hname x hx).1
    · rw [List.mem_singleton.mp hx]
      rfl
  obtain ⟨p, ps, hline, hvalue⟩ := words_append_of_noSpace (by simp) hspace value
  rw [List.append_assoc, List.singleton_append] at hline
  -- what follows the colon, with simplified white space
  refine ⟨[32].intercalate (p :: ps.filter (!·.isEmpty)), ?_, ?_, ?_⟩
  · have hhead : simplified (name ++ 58 :: value) =
        name ++ 58 :: [32].intercalate (p :: ps.filter (!·.isEmpty)) := by
      rw [simplified, hline]
      cases ps.filter (!·.isEmpty) with
      | nil => simp [List.intercalate_singleton]
      | cons q qs => simp [List.intercalate_cons_cons]
    rw [hhead, split, List.splitOn_append_cons_self,
      List.splitOn_eq_singleton fun hmem => (hname 58 hmem).2 rfl]
    rfl
  · rw [simplified, words_of_noSpace fun x hx => (hname x hx).1, if_neg hne,
      List.intercalate_singleton]
  · have hwords : words ([32].intercalate (p :: ps.filter (!·.isEmpty))) = words value := by
      rw [words_intercalate, hvalue]
      · simp [List.filter_cons, List.filter_filter]
      · intro w hw
        rcases List.mem_cons.mp hw with rfl | hw
        · by_cases hnil : w = []
          · simp [hnil]
          · refine (mem_words (a := value) ?_).2
            rw [hvalue, List.filter_cons_of_pos (by simp [hnil])]
            exact List.mem_cons_self
        · refine (mem_words (a := value) ?_).2
          rw [hvalue]
          rw [List.mem_filter] at hw ⊢
          exact ⟨List.mem_cons_of_mem _ hw.1, hw.2⟩
    rw [join, split, List.intercalate_splitOn, simplified, hwords]
    rfl

end Lines

section Numbers

/-- A text of digits, and the number it denotes. -/
def IsNumber (ba : List UInt8) (n : Nat) : Prop :=
  ba ≠ [] ∧ (∀ b ∈ ba, isDigit b = true) ∧ digitsValue ba = n

/-- Digits are read as the number they denote, if it is not too large. -/
theorem toIntegral_of_isNumber {max n : Nat} {ba : List UInt8} (h : IsNumber ba n)
    (hn : n ≤ max) : toIntegral max ba = some (n : Int) := by
  obtain ⟨hne, hdigits, rfl⟩ := h
  have hhead : ∀ c : UInt8, isDigit c = false → ba.head? ≠ some c := by
    intro c hc hhead
    rw [hdigits c (List.mem_of_head? hhead)] at hc
    cases hc
  have h43 := hhead 43 rfl
  have h45 := hhead 45 rfl
  have hany : ba.any (!isDigit ·) = false := by
    rw [List.any_eq_false]
    intro b hb
    simp [hdigits b hb]
  simp [toIntegral, h43, h45, hne, hany, hn]

end Numbers

end Http
end Rpc
end Shulcrum
