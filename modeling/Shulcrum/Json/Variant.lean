import Shulcrum.Lib.SortedEntries
import Mathlib.Data.List.Lex
import Mathlib.Data.String.Basic

/-!
# The values of the JSON library

`QVariant` with the types the library reads and writes.  A `QString` is a list
of Unicode characters, so a string that is not valid Unicode cannot be built.
Strings are ordered by their UTF-16 code units, and a `QVariantMap` is the list
of its entries in the order of their keys.

What the library takes from Qt and from C for strings and floating point is a
`Platform`.

**Results.**
* `utf16_injective`: the code units determine the string, so the order of the
  keys is linear.
-/

namespace Shulcrum
namespace Json

/-- A byte string. -/
abbrev QByteArray := List UInt8

/-- A string of Unicode characters. -/
structure QString where
  chars : List Char
  deriving DecidableEq, Repr

/-- The UTF-16 code units of a character. -/
def utf16Char (c : Char) : List Nat :=
  if c.toNat < 0x10000 then [c.toNat]
  else [0xD800 + (c.toNat - 0x10000) / 0x400, 0xDC00 + (c.toNat - 0x10000) % 0x400]

def QString.utf16 (s : QString) : List Nat := s.chars.flatMap utf16Char

/-- `QString::toUtf8`. -/
def QString.toUtf8 (s : QString) : QByteArray := s.chars.flatMap String.utf8EncodeChar

/-- A character is not one half of a surrogate pair. -/
theorem char_range (c : Char) : c.toNat < 0xD800 ∨ (0xDFFF < c.toNat ∧ c.toNat < 0x110000) :=
  c.valid

theorem utf16Char_append_inj {c c' : Char} {l l' : List Nat}
    (h : utf16Char c ++ l = utf16Char c' ++ l') : c = c' ∧ l = l' := by
  have hc := char_range c
  have hc' := char_range c'
  have hval : ∀ {a b : Char}, a.toNat = b.toNat → a = b :=
    fun hab => Char.ext (UInt32.toNat_inj.mp hab)
  unfold utf16Char at h
  split_ifs at h with h1 h2 h2
  · rw [List.singleton_append, List.singleton_append, List.cons.injEq] at h
    exact ⟨hval h.1, h.2⟩
  · simp only [List.cons_append, List.nil_append, List.cons.injEq] at h
    omega
  · simp only [List.cons_append, List.nil_append, List.cons.injEq] at h
    omega
  · simp only [List.cons_append, List.nil_append, List.cons.injEq] at h
    exact ⟨hval (by omega), h.2.2⟩

theorem utf16Char_ne_nil (c : Char) : utf16Char c ≠ [] := by
  unfold utf16Char
  split_ifs
  · simp
  · simp

theorem utf16_injective : Function.Injective QString.utf16 := by
  rintro ⟨s⟩ ⟨s'⟩ h
  simp only [QString.utf16] at h
  congr 1
  induction s generalizing s' with
  | nil =>
      cases s' with
      | nil => rfl
      | cons c s' => simp [utf16Char_ne_nil] at h
  | cons c s ih =>
      cases s' with
      | nil => simp [utf16Char_ne_nil] at h
      | cons c' s' =>
          rw [List.flatMap_cons, List.flatMap_cons] at h
          obtain ⟨rfl, hrest⟩ := utf16Char_append_inj h
          rw [ih s' hrest]

/-- `operator<` of `QString`. -/
instance : LinearOrder QString := LinearOrder.lift' QString.utf16 utf16_injective

/-- `QVariant`; `D` are the floating point numbers. -/
inductive Variant (D : Type) where
  /-- A null or invalid variant. -/
  | null
  | bool (b : Bool)
  /-- `Int`, `Long` or `LongLong`. -/
  | longlong (i : Int64)
  /-- `UInt`, `ULong` or `ULongLong`. -/
  | ulonglong (u : UInt64)
  /-- `Double` or `Float`. -/
  | double (d : D)
  | string (s : QString)
  | byteArray (ba : QByteArray)
  | list (vs : List (Variant D))
  | map (entries : List (QString × Variant D))
  /-- A `QVariantHash`, in the order of its iteration. -/
  | hash (entries : List (QString × Variant D))
  | stringList (ss : List QString)
  | byteArrayList (bas : List QByteArray)
  /-- A type the library does not support. -/
  | unsupported

/-- The outcome of a conversion of the C library. -/
structure Conversion (α : Type) where
  value : α
  /-- `errno` was set. -/
  rangeError : Bool
  /-- How many characters were converted. -/
  parsed : Nat

/-- What is used of Qt and of the C library. -/
structure Platform where
  Double : Type
  /-- `std::strtod`. -/
  strtod : QByteArray → Conversion Double
  /-- `std::snprintf` with `%1.16g`; none for a number that is not finite. -/
  printDouble : Double → Option QByteArray
  /-- `QString::fromUtf8`. -/
  fromUtf8 : QByteArray → QString

end Json
end Shulcrum
