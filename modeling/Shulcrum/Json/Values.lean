import Shulcrum.Json.Variant
import Mathlib.Algebra.Order.BigOperators.Group.List

/-!
# Values and what is read back of them

The parser types an integer by its sign, makes a map of a hash and leaves out a
byte order mark at the start of a string, because `QString::fromUtf8` does.

**Results.**
* `parsed_iff`: a value is read back as it is if and only if no string and no key
  of it starts with a byte order mark.
-/

namespace Shulcrum
namespace Json

open SortedEntries

/-! ## Byte order marks -/

/-- U+FEFF. -/
def byteOrderMark : Char := Char.ofNat 0xFEFF

/-- The string without a byte order mark at its start. -/
def QString.withoutBom (s : QString) : QString :=
  if s.chars.head? = some byteOrderMark then ⟨s.chars.tail⟩ else s

/-- The string does not start with a byte order mark. -/
def QString.NoBom (s : QString) : Prop := s.chars.head? ≠ some byteOrderMark

section Bom

variable {s : QString}

theorem withoutBom_of_noBom (h : s.NoBom) : s.withoutBom = s := if_neg h

theorem length_of_not_noBom (h : ¬ s.NoBom) : s.chars.length = s.withoutBom.chars.length + 1 := by
  have hhead : s.chars.head? = some byteOrderMark := not_not.mp h
  rw [QString.withoutBom, if_pos hhead]
  cases hs : s.chars with
  | nil =>
      rw [hs] at hhead
      cases hhead
  | cons c cs => rfl

theorem noBom_of_withoutBom (h : s.withoutBom = s) : s.NoBom := by
  by_contra hbom
  have hlen := length_of_not_noBom hbom
  rw [h] at hlen
  omega

/-- If each of some strings is what is left of one of them, none starts with a mark. -/
theorem noBom_of_covered {ks : List QString} (h : ∀ k ∈ ks, ∃ k' ∈ ks, k'.withoutBom = k) :
    ∀ k ∈ ks, k.NoBom := by
  intro k hk
  by_contra hbom
  -- there is always a longer one
  have hlong : ∀ n, ∃ k ∈ ks, ¬ k.NoBom ∧ n ≤ k.chars.length := by
    intro n
    induction n with
    | zero => exact ⟨k, hk, hbom, Nat.zero_le _⟩
    | succ n ih =>
        obtain ⟨k₁, hk₁, hbom₁, hn⟩ := ih
        obtain ⟨k₂, hk₂, heq⟩ := h k₁ hk₁
        have hbom₂ : ¬ k₂.NoBom := fun hno => by
          rw [withoutBom_of_noBom hno] at heq
          exact hbom₁ (heq ▸ hno)
        have hlen := length_of_not_noBom hbom₂
        rw [heq] at hlen
        exact ⟨k₂, hk₂, hbom₂, by omega⟩
  obtain ⟨k', hk', -, hn⟩ := hlong ((ks.map fun k => k.chars.length).sum + 1)
  have hle := List.single_le_sum (l := ks.map fun k => k.chars.length)
    (fun _ _ => Nat.zero_le _) k'.chars.length (List.mem_map.mpr ⟨k', hk', rfl⟩)
  omega

end Bom

/-! ## Values -/

/-- An integer as the parser types it: unsigned if it is not negative. -/
def normalInt {D : Type} (i : Int64) : Variant D :=
  if 0 ≤ i.toInt then .ulonglong (.ofNat i.toInt.toNat) else .longlong i

mutual

/-- The value as the parser types it: integers by their sign, a hash as a map. -/
def Variant.normal {D : Type} : Variant D → Variant D
  | .longlong i => normalInt i
  | .list vs => .list (normalAll vs)
  | .map entries => .map (normalEntries entries)
  | .hash entries => .map (assignAll [] (normalEntries entries))
  | v => v

def normalAll {D : Type} : List (Variant D) → List (Variant D)
  | [] => []
  | v :: vs => v.normal :: normalAll vs

def normalEntries {D : Type} : List (QString × Variant D) → List (QString × Variant D)
  | [] => []
  | (k, v) :: entries => (k, v.normal) :: normalEntries entries

end

mutual

/-- What the parser makes of the text of the value. -/
def Variant.parsed {D : Type} : Variant D → Variant D
  | .longlong i => normalInt i
  | .string s => .string s.withoutBom
  | .list vs => .list (parsedAll vs)
  | .map entries => .map (assignAll [] (parsedEntries entries))
  | .hash entries => .map (assignAll [] (parsedEntries entries))
  | v => v

def parsedAll {D : Type} : List (Variant D) → List (Variant D)
  | [] => []
  | v :: vs => v.parsed :: parsedAll vs

def parsedEntries {D : Type} : List (QString × Variant D) → List (QString × Variant D)
  | [] => []
  | (k, v) :: entries => (k.withoutBom, v.parsed) :: parsedEntries entries

end

mutual

/-- Null, booleans, integers, strings, lists, maps and hashes; the keys of a map increase,
those of a hash differ. -/
def Variant.Plain {D : Type} : Variant D → Prop
  | .null | .bool _ | .longlong _ | .ulonglong _ | .string _ => True
  | .list vs => AllPlain vs
  | .map entries => Sorted entries ∧ EntriesPlain entries
  | .hash entries => (entries.map Prod.fst).Nodup ∧ EntriesPlain entries
  | _ => False

def AllPlain {D : Type} : List (Variant D) → Prop
  | [] => True
  | v :: vs => v.Plain ∧ AllPlain vs

def EntriesPlain {D : Type} : List (QString × Variant D) → Prop
  | [] => True
  | (_, v) :: entries => v.Plain ∧ EntriesPlain entries

end

mutual

/-- Every string and every key has the property. -/
def Variant.Strings {D : Type} (p : QString → Prop) : Variant D → Prop
  | .string s => p s
  | .list vs => AllStrings p vs
  | .map entries => EntriesStrings p entries
  | .hash entries => EntriesStrings p entries
  | _ => True

def AllStrings {D : Type} (p : QString → Prop) : List (Variant D) → Prop
  | [] => True
  | v :: vs => v.Strings p ∧ AllStrings p vs

def EntriesStrings {D : Type} (p : QString → Prop) : List (QString × Variant D) → Prop
  | [] => True
  | (k, v) :: entries => p k ∧ v.Strings p ∧ EntriesStrings p entries

end

mutual

/-- How deep the lists and maps of a value are nested. -/
def Variant.depth {D : Type} : Variant D → Nat
  | .list vs => variantsDepth vs + 1
  | .map entries => entriesDepth entries + 1
  | .hash entries => entriesDepth entries + 1
  | _ => 0

def variantsDepth {D : Type} : List (Variant D) → Nat
  | [] => 0
  | v :: vs => max v.depth (variantsDepth vs)

def entriesDepth {D : Type} : List (QString × Variant D) → Nat
  | [] => 0
  | (_, v) :: entries => max v.depth (entriesDepth entries)

end

/-! ## What is read back -/

section Parsed

variable {D : Type} {entries : List (QString × Variant D)}

theorem normal_string (s : QString) : (Variant.string s : Variant D).normal = .string s := rfl

theorem normalEntries_map (entries : List (QString × Variant D)) :
    normalEntries entries = entries.map fun e => (e.1, e.2.normal) := by
  induction entries with
  | nil => rfl
  | cons e entries ih => rw [normalEntries, ih, List.map_cons]

theorem parsedEntries_map (entries : List (QString × Variant D)) :
    parsedEntries entries = entries.map fun e => (e.1.withoutBom, e.2.parsed) := by
  induction entries with
  | nil => rfl
  | cons e entries ih => rw [parsedEntries, ih, List.map_cons]

theorem sorted_normalEntries (h : Sorted entries) : Sorted (normalEntries entries) := by
  rw [normalEntries_map]
  exact List.pairwise_map.mpr h

theorem nodup_of_sorted (h : Sorted entries) : (entries.map Prod.fst).Nodup :=
  List.pairwise_map.mpr (h.imp fun hlt => ne_of_lt hlt)

/-- No key starts with a mark, and every value comes back, if the map does. -/
theorem entries_of_assignAll (hnodup : (entries.map Prod.fst).Nodup)
    (h : assignAll [] (parsedEntries entries) = assignAll [] (normalEntries entries)) :
    ∀ e ∈ entries, e.1.NoBom ∧ e.2.parsed = e.2.normal := by
  rw [parsedEntries_map, normalEntries_map] at h
  have hkeys : ∀ e ∈ entries, e.1.NoBom := by
    have hcovered : ∀ k ∈ entries.map Prod.fst, ∃ k' ∈ entries.map Prod.fst, k'.withoutBom = k := by
      intro k hk
      obtain ⟨e, he, rfl⟩ := List.mem_map.mp hk
      have hmem : ∃ a ∈ assignAll [] (entries.map fun e => (e.1, e.2.normal)), a.1 = e.1 :=
        exists_key_assignAll.mpr ⟨_, List.mem_map.mpr ⟨e, he, rfl⟩, rfl⟩
      rw [← h] at hmem
      obtain ⟨a, ha, hkey⟩ := exists_key_assignAll.mp hmem
      obtain ⟨e', he', rfl⟩ := List.mem_map.mp ha
      exact ⟨e'.1, List.mem_map.mpr ⟨e', he', rfl⟩, hkey⟩
    intro e he
    exact noBom_of_covered hcovered e.1 (List.mem_map.mpr ⟨e, he, rfl⟩)
  intro e he
  refine ⟨hkeys e he, ?_⟩
  have hsame : (entries.map fun e => (e.1.withoutBom, e.2.parsed)) =
      entries.map fun e => (e.1, e.2.parsed) :=
    List.map_congr_left fun a ha => by rw [withoutBom_of_noBom (hkeys a ha)]
  rw [hsame] at h
  have hkeysOf : ∀ f : Variant D → Variant D,
      ((entries.map fun e => (e.1, f e.2)).map Prod.fst).Nodup := by
    intro f
    rw [List.map_map]
    exact hnodup
  exact value_of_assignAll (hkeysOf _) (hkeysOf _) h (List.mem_map.mpr ⟨e, he, rfl⟩)
    (List.mem_map.mpr ⟨e, he, rfl⟩)

mutual

theorem Variant.strings_of_parsed :
    (v : Variant D) → v.Plain → v.parsed = v.normal → v.Strings QString.NoBom
  | .null, _, _ | .bool _, _, _ | .longlong _, _, _ | .ulonglong _, _, _ => trivial
  | .string s, _, h => by
      rw [Variant.parsed, normal_string, Variant.string.injEq] at h
      exact noBom_of_withoutBom h
  | .list vs, hplain, h => by
      rw [Variant.parsed, Variant.normal, Variant.list.injEq] at h
      exact allStrings_of_parsed vs hplain h
  | .map entries, hplain, h => by
      rw [Variant.parsed, Variant.normal, Variant.map.injEq,
        ← assignAll_of_sorted (sorted_normalEntries hplain.1)] at h
      exact entriesStrings_of_parsed entries hplain.2
        (entries_of_assignAll (nodup_of_sorted hplain.1) h)
  | .hash entries, hplain, h => by
      rw [Variant.parsed, Variant.normal, Variant.map.injEq] at h
      exact entriesStrings_of_parsed entries hplain.2 (entries_of_assignAll hplain.1 h)
  | .double _, _, _ | .byteArray _, _, _ | .stringList _, _, _ | .byteArrayList _, _, _
  | .unsupported, _, _ => trivial

theorem allStrings_of_parsed :
    (vs : List (Variant D)) → AllPlain vs → parsedAll vs = normalAll vs →
    AllStrings QString.NoBom vs
  | [], _, _ => trivial
  | v :: vs, hplain, h => by
      rw [parsedAll, normalAll, List.cons.injEq] at h
      exact ⟨v.strings_of_parsed hplain.1 h.1, allStrings_of_parsed vs hplain.2 h.2⟩

theorem entriesStrings_of_parsed :
    (entries : List (QString × Variant D)) → EntriesPlain entries →
    (∀ e ∈ entries, e.1.NoBom ∧ e.2.parsed = e.2.normal) → EntriesStrings QString.NoBom entries
  | [], _, _ => trivial
  | (k, v) :: entries, hplain, h => by
      obtain ⟨⟨hk, hv⟩, hrest⟩ := List.forall_mem_cons.mp h
      exact ⟨hk, v.strings_of_parsed hplain.1 hv, entriesStrings_of_parsed entries hplain.2 hrest⟩

end

mutual

theorem Variant.parsed_of_strings :
    (v : Variant D) → v.Plain → v.Strings QString.NoBom → v.parsed = v.normal
  | .null, _, _ | .bool _, _, _ | .longlong _, _, _ | .ulonglong _, _, _ => rfl
  | .string s, _, h => by rw [Variant.parsed, normal_string, withoutBom_of_noBom h]
  | .list vs, hplain, h => by
      rw [Variant.parsed, Variant.normal, parsedAll_of_strings vs hplain h]
  | .map entries, hplain, h => by
      rw [Variant.parsed, Variant.normal, parsedEntries_of_strings entries hplain.2 h,
        assignAll_of_sorted (sorted_normalEntries hplain.1)]
  | .hash entries, hplain, h => by
      rw [Variant.parsed, Variant.normal, parsedEntries_of_strings entries hplain.2 h]
  | .double _, hplain, _ | .byteArray _, hplain, _ | .stringList _, hplain, _
  | .byteArrayList _, hplain, _ | .unsupported, hplain, _ => hplain.elim

theorem parsedAll_of_strings :
    (vs : List (Variant D)) → AllPlain vs → AllStrings QString.NoBom vs →
    parsedAll vs = normalAll vs
  | [], _, _ => rfl
  | v :: vs, hplain, h => by
      rw [parsedAll, normalAll, v.parsed_of_strings hplain.1 h.1,
        parsedAll_of_strings vs hplain.2 h.2]

theorem parsedEntries_of_strings :
    (entries : List (QString × Variant D)) → EntriesPlain entries →
    EntriesStrings QString.NoBom entries → parsedEntries entries = normalEntries entries
  | [], _, _ => rfl
  | (k, v) :: entries, hplain, h => by
      rw [parsedEntries, normalEntries, withoutBom_of_noBom h.1,
        v.parsed_of_strings hplain.1 h.2.1, parsedEntries_of_strings entries hplain.2 h.2.2]

end

/-- A value is read back as it is iff none of its strings and keys starts with a mark. -/
theorem parsed_iff {v : Variant D} (hplain : v.Plain) :
    v.parsed = v.normal ↔ v.Strings QString.NoBom :=
  ⟨v.strings_of_parsed hplain, v.parsed_of_strings hplain⟩

end Parsed

end Json
end Shulcrum
