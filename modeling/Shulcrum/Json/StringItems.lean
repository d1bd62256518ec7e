import Shulcrum.Json.Lexer
import Shulcrum.Json.Utf8

/-!
# What the string filter accepts

A string is read one byte or one escape at a time.  Here its text is split into
items: characters of one byte, escapes, and sequences of a lead byte and its
continuation bytes.  The filter joins the surrogate halves among the items, and
looks at nothing else.

**Results.**
* `exists_items_of_slowReads`: what the slow path reads is a text of items.
* `exists_slowReads_items`: it reads the text of items, if their halves are paired.
* `stringToken_iff_filtered`: the fast path changes nothing.
* `stringToken_iff_items`: what a string token is read from, and its value.
-/

namespace Shulcrum
namespace Json

open JSONUTF8StringFilter

/-! ## Items -/

/-- A part of the text of a string. -/
inductive Item where
  | char (ch : UInt8)
  | escape (esc c : UInt8)
  | unicode (a b c d : UInt8) (cp : Nat)
  | sequence (bytes : QByteArray) (cp : Nat)

namespace Item

def bytes : Item → QByteArray
  | char ch => [ch]
  | escape esc _ => [0x5c, esc]
  | unicode a b c d _ => [0x5c, 0x75, a, b, c, d]
  | sequence bytes _ => bytes

/-- The item is what its bytes spell. -/
def Valid : Item → Prop
  | char ch => ¬ ch < 0x20 ∧ ch < 0x80 ∧ ch ≠ 0x22 ∧ ch ≠ 0x5c
  | escape esc c => simpleEscape esc = some c
  | unicode a b c d cp => hextouint [a, b, c, d] = some cp
  | sequence bytes cp => LooseSequence bytes cp

/-- The number that is handed to the surrogate collation. -/
def unit : Item → Option Nat
  | char _ | escape _ _ => none
  | unicode _ _ _ _ cp | sequence _ cp => some cp

end Item

/-- The first half of a surrogate pair. -/
def IsHigh (cp : Nat) : Prop := 0xd800 ≤ cp ∧ cp < 0xdc00

/-- The second half of a surrogate pair. -/
def IsLow (cp : Nat) : Prop := 0xdc00 ≤ cp ∧ cp < 0xe000

instance (cp : Nat) : Decidable (IsHigh cp) := inferInstanceAs (Decidable (_ ∧ _))

instance (cp : Nat) : Decidable (IsLow cp) := inferInstanceAs (Decidable (_ ∧ _))

/-- The text of items. -/
def itemBytes (items : List Item) : QByteArray := items.flatMap Item.bytes

/-- What the collation makes of a number after an open half, `0` if there is none. -/
def collate (surpair cp : Nat) : Option (Nat × QByteArray) :=
  if IsHigh cp then if surpair ≠ 0 then none else some (cp, [])
  else if IsLow cp then
    if surpair ≠ 0 then
      some (0, encodeCodepoint (0x10000 ||| ((surpair - 0xd800) <<< 10) ||| (cp - 0xdc00)))
    else none
  else if surpair ≠ 0 then none
  else some (0, encodeCodepoint cp)

/-- What one item appends after an open half. -/
def Item.run (surpair : Nat) : Item → Option (Nat × QByteArray)
  | .char ch => some (surpair, [ch])
  | .escape _ c => some (surpair, [c])
  | .unicode _ _ _ _ cp | .sequence _ cp => collate surpair cp

/-- What items append, if no half is left open. -/
def decodeItems (surpair : Nat) : List Item → Option QByteArray
  | [] => if surpair = 0 then some [] else none
  | i :: items => do
      let (surpair, out) ← i.run surpair
      let rest ← decodeItems surpair items
      some (out ++ rest)

/-! ## The filter on one item -/

variable {w w' : JSONUTF8StringFilter} {text rest start : List UInt8}

/-- The filter after a result of the collation. -/
def JSONUTF8StringFilter.collated (w : JSONUTF8StringFilter) :
    Option (Nat × QByteArray) → JSONUTF8StringFilter
  | some (surpair, out) => { w with str := w.str ++ out, surpair := surpair }
  | none => w.setInvalid

theorem pushBackU_eq (hw : w.state = 0) (cp : Nat) :
    w.pushBackU cp = w.collated (collate w.surpair cp) := by
  simp only [pushBackU, hw, ne_eq, not_true_eq_false, if_false, collate, IsHigh, IsLow]
  split_ifs with h1 h2 h3 h4 h5
  · simp [collated, hw]
  · rfl
  · simp [collated]
  · rfl
  · rw [appendCodepoint, collated, h5]
  · rfl

theorem isValid_pushBackU (h : w.isValid = false) (cp : Nat) :
    (w.pushBackU cp).isValid = false := by
  unfold pushBackU setInvalid appendCodepoint
  dsimp only
  split_ifs <;> simp [h]

theorem isValid_pushBack (h : w.isValid = false) (ch : UInt8) :
    (w.pushBack ch).isValid = false := by
  unfold pushBack
  dsimp only
  split_ifs
  · exact h
  · rfl
  · exact h
  · exact h
  · exact h
  · rfl
  · exact isValid_pushBackU rfl _
  · rfl
  · refine isValid_pushBackU ?_ _
    exact h
  · exact h

/-- What is invalid stays invalid. -/
theorem SlowReads.isValid (h : SlowReads w text w') (hw : w.isValid = false) :
    w'.isValid = false := by
  induction h with
  | stop => exact hw
  | char _ _ _ _ ih => exact ih (isValid_pushBack hw _)
  | escape _ _ ih => exact ih (isValid_pushBack hw _)
  | unicode _ _ ih => exact ih (isValid_pushBackU hw _)

theorem isValid_of_finalize (h : w.finalize = true) : w.isValid = true := by
  rw [finalize] at h
  split_ifs at h
  exact h

/-- A character of one byte, raw or as an escape. -/
theorem pushBack_ascii' {ch : UInt8} (hw : w.state = 0) (hch : ch < 0x80) :
    w.pushBack ch = { w with str := w.str ++ [ch] } := by
  have hlt : ch.toNat < 0x80 := UInt8.lt_iff_toNat_lt.mp hch
  simp [pushBack, hw, hlt]

theorem simpleEscape_lt {esc c : UInt8} (h : simpleEscape esc = some c) : c < 0x80 := by
  unfold simpleEscape at h
  split_ifs at h <;>
  · rw [← Option.some.inj h]
    decide

theorem LooseSequence.ge {bytes : QByteArray} {cp : Nat} (h : LooseSequence bytes cp) :
    ∀ ch ∈ bytes, ch ≥ 0x80 := by
  have hge : ∀ x : Nat, 0x80 ≤ x → x < 0x100 → UInt8.ofNat x ≥ 0x80 := by
    intro x hx hlt
    have hnat : (UInt8.ofNat x).toNat = x := UInt8.toNat_ofNat_of_lt' hlt
    exact UInt8.le_iff_toNat_le.mpr (by rw [hnat]; exact hx)
  cases h with
  | two hx hy =>
      refine List.forall_mem_cons.mpr ⟨hge _ (by omega) (by omega), ?_⟩
      exact List.forall_mem_singleton.mpr (hge _ (by omega) (by omega))
  | three hx hy hz =>
      refine List.forall_mem_cons.mpr ⟨hge _ (by omega) (by omega), ?_⟩
      refine List.forall_mem_cons.mpr ⟨hge _ (by omega) (by omega), ?_⟩
      exact List.forall_mem_singleton.mpr (hge _ (by omega) (by omega))
  | four hx hy hz ht =>
      refine List.forall_mem_cons.mpr ⟨hge _ (by omega) (by omega), ?_⟩
      refine List.forall_mem_cons.mpr ⟨hge _ (by omega) (by omega), ?_⟩
      refine List.forall_mem_cons.mpr ⟨hge _ (by omega) (by omega), ?_⟩
      exact List.forall_mem_singleton.mpr (hge _ (by omega) (by omega))

/-- Raw bytes that are not ASCII are handed to the filter. -/
theorem slowReads_raw {bytes : QByteArray} (h : ∀ ch ∈ bytes, ch ≥ 0x80) :
    SlowReads w (bytes ++ text) w' ↔ SlowReads (bytes.foldl pushBack w) text w' := by
  induction bytes generalizing w with
  | nil => rfl
  | cons ch bytes ih =>
      have hch := h ch List.mem_cons_self
      have hne : ∀ x : UInt8, x < 0x80 → ch ≠ x := by
        rintro x hx rfl
        exact absurd hch (UInt8.not_le.mpr hx)
      have hctl : ¬ ch < 0x20 := UInt8.not_lt.mpr (UInt8.le_trans (by decide) hch)
      rw [List.cons_append, List.foldl_cons, ← ih fun x hx => h x (List.mem_cons_of_mem ch hx)]
      generalize bytes ++ text = raw
      constructor
      · intro hreads
        cases hreads with
        | stop => exact absurd rfl (hne 0x22 (by decide))
        | char _ _ _ hrest => exact hrest
        | escape _ _ => exact absurd rfl (hne 0x5c (by decide))
        | unicode _ _ => exact absurd rfl (hne 0x5c (by decide))
      · exact .char hctl (hne 0x5c (by decide)) (hne 0x22 (by decide))

/-- What the filter is after an item. -/
def afterItem (w : JSONUTF8StringFilter) (i : Item) (codepoint : Nat) : JSONUTF8StringFilter :=
  { w with codepoint := codepoint }.collated (i.run w.surpair)

/-- One item is read, whatever follows it. -/
theorem slowReads_item {i : Item} (hi : i.Valid) (hw : w.state = 0) :
    ∃ codepoint, ∀ text w', SlowReads w (i.bytes ++ text) w' ↔
      SlowReads (afterItem w i codepoint) text w' := by
  cases i with
  | char ch =>
      obtain ⟨hctl, hascii, hquote, hback⟩ := hi
      refine ⟨w.codepoint, fun text w' => ?_⟩
      have hafter : afterItem w (.char ch) w.codepoint = w.pushBack ch := by
        rw [pushBack_ascii' hw hascii]
        rfl
      rw [hafter]
      constructor
      · intro hreads
        cases hreads with
        | stop => exact absurd rfl hquote
        | char _ _ _ hrest => exact hrest
        | escape _ _ => exact absurd rfl hback
        | unicode _ _ => exact absurd rfl hback
      · exact .char hctl hback hquote
  | escape esc c =>
      have hesc : simpleEscape esc = some c := hi
      refine ⟨w.codepoint, fun text w' => ?_⟩
      have hafter : afterItem w (.escape esc c) w.codepoint = w.pushBack c := by
        rw [pushBack_ascii' hw (simpleEscape_lt hesc)]
        rfl
      rw [hafter]
      constructor
      · intro hreads
        cases hreads with
        | char _ hne _ _ => exact absurd rfl hne
        | escape hesc' hrest =>
            rw [hesc, Option.some.injEq] at hesc'
            rw [hesc']
            exact hrest
        | unicode _ _ => cases hesc
      · exact .escape hesc
  | unicode a b c d cp =>
      have hhex : hextouint [a, b, c, d] = some cp := hi
      refine ⟨w.codepoint, fun text w' => ?_⟩
      have hafter : afterItem w (.unicode a b c d cp) w.codepoint = w.pushBackU cp :=
        (pushBackU_eq hw cp).symm
      rw [hafter]
      constructor
      · intro hreads
        cases hreads with
        | char _ hne _ _ => exact absurd rfl hne
        | escape hesc _ => cases hesc
        | unicode hhex' hrest =>
            rw [hhex, Option.some.injEq] at hhex'
            rw [hhex']
            exact hrest
      · exact .unicode hhex
  | sequence bytes cp =>
      have hseq : LooseSequence bytes cp := hi
      refine ⟨cp, fun text w' => ?_⟩
      have hafter : afterItem w (.sequence bytes cp) cp = bytes.foldl pushBack w := by
        rw [foldl_pushBack_sequence hseq hw, pushBackU_eq rfl, ← hw]
        rfl
      rw [hafter]
      exact slowReads_raw hseq.ge

/-! ## Every text that is read is made of items -/

/-- Inside a sequence, what comes next is a continuation byte. -/
theorem exists_continuation {k : Nat} (h : SlowReads w text w') (hfin : w'.finalize = true)
    (hw : w.state = k + 6) :
    ∃ y < 0x40, ∃ text', text = .ofNat (y + 0x80) :: text' ∧
      SlowReads (w.pushBack (.ofNat (y + 0x80))) text' w' := by
  have hstate : w.state ≠ 0 := by omega
  have hvalid := isValid_of_finalize hfin
  -- a byte that does not continue the sequence is noted
  have hbad : ∀ ch : UInt8, ch.toNat &&& 0xc0 ≠ 0x80 → (w.pushBack ch).isValid = false := by
    intro ch hch
    simp only [pushBack, if_neg hstate, if_pos hch]
    split_ifs
    · exact isValid_pushBackU rfl _
    · rfl
  have hmask : ∀ x < 0x100, x &&& 0xc0 = 0x80 → 0x80 ≤ x ∧ x < 0xc0 := by decide +kernel
  cases h with
  | stop => simp [finalize, hstate] at hfin
  | @char _ _ ch text' hctl hback hquote hrest =>
      by_cases hch : ch.toNat &&& 0xc0 = 0x80
      · obtain ⟨hlo, hhi⟩ := hmask ch.toNat ch.toNat_lt hch
        have heq : ch = .ofNat (ch.toNat - 0x80 + 0x80) := by
          rw [Nat.sub_add_cancel hlo, UInt8.ofNat_toNat]
        rw [heq] at hrest
        exact ⟨ch.toNat - 0x80, by omega, text', by rw [← heq], hrest⟩
      · rw [hrest.isValid (hbad ch hch)] at hvalid
        cases hvalid
  | @escape _ _ esc c text' hesc hrest =>
      have hlt : c.toNat < 0x80 := UInt8.lt_iff_toNat_lt.mp (simpleEscape_lt hesc)
      have hch : c.toNat &&& 0xc0 ≠ 0x80 := by
        intro heq
        have hlo := (hmask c.toNat c.toNat_lt heq).1
        omega
      rw [hrest.isValid (hbad c hch)] at hvalid
      cases hvalid
  | @unicode _ _ a b c d cp text' _ hrest =>
      have hbadU : (w.pushBackU cp).isValid = false := by
        unfold pushBackU setInvalid appendCodepoint
        dsimp only
        rw [if_pos hstate]
        split_ifs <;> rfl
      rw [hrest.isValid hbadU] at hvalid
      cases hvalid

/-- A byte that begins nothing is noted. -/
theorem isValid_pushBack_stray {ch : UInt8} (hw : w.state = 0)
    (hch : 0x80 ≤ ch.toNat ∧ ch.toNat < 0xc0 ∨ 0xf8 ≤ ch.toNat) :
    (w.pushBack ch).isValid = false := by
  have h1 : ¬ ch.toNat < 0x80 := by omega
  simp only [pushBack, hw, if_true, if_neg h1]
  rcases hch with hch | hch
  · rw [if_pos hch.2]
    rfl
  · rw [if_neg (by omega), if_neg (by omega), if_neg (by omega), if_neg (by omega)]
    rfl

/-- A byte that is not ASCII begins a sequence. -/
theorem exists_sequence {ch : UInt8} (h : SlowReads (w.pushBack ch) text w')
    (hfin : w'.finalize = true) (hw : w.state = 0) (hch : ch ≥ 0x80) :
    ∃ bytes cp text', LooseSequence bytes cp ∧ ch :: text = bytes ++ text' := by
  have hge : 0x80 ≤ ch.toNat := UInt8.le_iff_toNat_le.mp hch
  have hvalid := isValid_of_finalize hfin
  by_cases hstray : 0x80 ≤ ch.toNat ∧ ch.toNat < 0xc0 ∨ 0xf8 ≤ ch.toNat
  · rw [h.isValid (isValid_pushBack_stray hw hstray)] at hvalid
    cases hvalid
  have heq : ∀ x, x ≤ ch.toNat → ch = .ofNat (ch.toNat - x + x) := by
    intro x hx
    rw [Nat.sub_add_cancel hx, UInt8.ofNat_toNat]
  by_cases h2 : ch.toNat < 0xe0
  · have hlead := heq 0xc0 (by omega)
    rw [hlead, pushBack_lead2 hw (by omega)] at h
    obtain ⟨y, hy, text₁, rfl, -⟩ := exists_continuation (k := 0) h hfin rfl
    rw [hlead]
    exact ⟨_, _, text₁, .two (by omega) hy, rfl⟩
  by_cases h3 : ch.toNat < 0xf0
  · have hlead := heq 0xe0 (by omega)
    rw [hlead, pushBack_lead3 hw (by omega)] at h
    obtain ⟨y, hy, text₁, rfl, h₁⟩ := exists_continuation (k := 6) h hfin rfl
    rw [pushBack_cont (k := 6) rfl hy] at h₁
    obtain ⟨z, hz, text₂, rfl, -⟩ := exists_continuation (k := 0) h₁ hfin rfl
    rw [hlead]
    exact ⟨_, _, text₂, .three (by omega) hy hz, rfl⟩
  · have hlead := heq 0xf0 (by omega)
    rw [hlead, pushBack_lead4 hw (by omega)] at h
    obtain ⟨y, hy, text₁, rfl, h₁⟩ := exists_continuation (k := 12) h hfin rfl
    rw [pushBack_cont (k := 12) rfl hy] at h₁
    obtain ⟨z, hz, text₂, rfl, h₂⟩ := exists_continuation (k := 6) h₁ hfin rfl
    rw [pushBack_cont (k := 6) rfl hz] at h₂
    obtain ⟨t, ht, text₃, rfl, -⟩ := exists_continuation (k := 0) h₂ hfin rfl
    rw [hlead]
    exact ⟨_, _, text₃, .four (by omega) hy hz ht, rfl⟩

/-- A text that is read is the closing quotation mark or begins with an item. -/
theorem exists_first_item (h : SlowReads w text w') (hfin : w'.finalize = true)
    (hw : w.state = 0) :
    (text = [0x22] ∧ w' = w) ∨ ∃ i text', Item.Valid i ∧ text = i.bytes ++ text' := by
  cases h with
  | stop => exact .inl ⟨rfl, rfl⟩
  | @char _ _ ch text' hctl hback hquote hrest =>
      right
      by_cases hascii : ch < 0x80
      · exact ⟨.char ch, text', ⟨hctl, hascii, hquote, hback⟩, rfl⟩
      · obtain ⟨bytes, cp, text'', hseq, htext⟩ :=
          exists_sequence hrest hfin hw (UInt8.not_lt.mp hascii)
        exact ⟨.sequence bytes cp, text'', hseq, htext⟩
  | @escape _ _ esc c text' hesc _ => exact .inr ⟨.escape esc c, text', hesc, rfl⟩
  | @unicode _ _ a b c d cp text' hhex _ => exact .inr ⟨.unicode a b c d cp, text', hhex, rfl⟩

theorem Item.Valid.bytes_ne_nil {i : Item} (h : i.Valid) : i.bytes ≠ [] := by
  cases i with
  | sequence bytes cp =>
      have hseq : LooseSequence bytes cp := h
      cases hseq <;> simp [Item.bytes]
  | _ => simp [Item.bytes]

theorem decodeItems_cons {i : Item} {items : List Item} {surpair : Nat} {out : QByteArray} :
    decodeItems surpair (i :: items) = some out ↔
      ∃ surpair' pre post, i.run surpair = some (surpair', pre) ∧
        decodeItems surpair' items = some post ∧ out = pre ++ post := by
  rw [decodeItems]
  cases hrun : i.run surpair with
  | none => simp
  | some r =>
      obtain ⟨surpair', pre⟩ := r
      cases hrest : decodeItems surpair' items with
      | none => simp [hrest]
      | some post => simp [hrest, eq_comm]

/-- What is read is a text of items, and what they make is appended. -/
theorem exists_items_of_slowReads (h : SlowReads w text w') (hfin : w'.finalize = true)
    (hw : w.state = 0) :
    ∃ items out, (∀ i ∈ items, Item.Valid i) ∧ text = itemBytes items ++ [0x22] ∧
      decodeItems w.surpair items = some out ∧ w'.str = w.str ++ out := by
  generalize hn : text.length = n
  -- every item takes some of the text
  induction n using Nat.strong_induction_on generalizing w text with
  | _ n ih =>
      rcases exists_first_item h hfin hw with ⟨rfl, rfl⟩ | ⟨i, text', hi, rfl⟩
      · have hsur : w'.surpair = 0 := by
          by_contra hne
          simp [finalize, hne] at hfin
        exact ⟨[], [], by simp, rfl, by rw [decodeItems, if_pos hsur], by simp⟩
      · obtain ⟨codepoint, hitem⟩ := slowReads_item hi hw
        have hrest := (hitem text' w').mp h
        have hlen : text'.length < n := by
          have hpos := List.length_pos_of_ne_nil hi.bytes_ne_nil
          rw [← hn, List.length_append]
          omega
        rw [afterItem] at hrest
        cases hrun : i.run w.surpair with
        | none =>
            rw [hrun] at hrest
            have hvalid := isValid_of_finalize hfin
            rw [hrest.isValid rfl] at hvalid
            cases hvalid
        | some r =>
            obtain ⟨surpair, pre⟩ := r
            rw [hrun] at hrest
            obtain ⟨items, post, hitems, htext, hdecode, hstr⟩ := ih _ hlen hrest hw rfl
            refine ⟨i :: items, pre ++ post, List.forall_mem_cons.mpr ⟨hi, hitems⟩, ?_, ?_, ?_⟩
            · rw [htext, itemBytes, itemBytes, List.flatMap_cons, List.append_assoc]
            · exact decodeItems_cons.mpr ⟨surpair, pre, post, hrun, hdecode, rfl⟩
            · rw [hstr]
              exact List.append_assoc _ _ _

/-- The text of items is read, if their halves are paired. -/
theorem exists_slowReads_items {items : List Item} {out : QByteArray}
    (hitems : ∀ i ∈ items, Item.Valid i) (hout : decodeItems w.surpair items = some out)
    (hw : w.state = 0) (hvalid : w.isValid = true) :
    ∃ w', SlowReads w (itemBytes items ++ [0x22]) w' ∧ w'.finalize = true ∧
      w'.str = w.str ++ out := by
  induction items generalizing w out with
  | nil =>
      rw [decodeItems] at hout
      split_ifs at hout with hsur
      cases hout
      exact ⟨w, .stop, by simp [finalize, hw, hsur, hvalid], by simp⟩
  | cons i items ih =>
      obtain ⟨hi, hitems⟩ := List.forall_mem_cons.mp hitems
      obtain ⟨surpair, pre, post, hrun, hpost, rfl⟩ := decodeItems_cons.mp hout
      obtain ⟨codepoint, hitem⟩ := slowReads_item hi hw
      have hafter : afterItem w i codepoint =
          { w with codepoint := codepoint, str := w.str ++ pre, surpair := surpair } := by
        rw [afterItem, hrun]
        rfl
      obtain ⟨w', hreads, hfin, hstr⟩ :=
        ih (w := { w with codepoint := codepoint, str := w.str ++ pre, surpair := surpair })
          hitems hpost hw hvalid
      rw [← hafter, ← hitem] at hreads
      refine ⟨w', ?_, hfin, ?_⟩
      · rw [itemBytes, List.flatMap_cons, List.append_assoc]
        exact hreads
      · rw [hstr]
        exact List.append_assoc _ _ _

/-! ## The items of a text are determined -/

/-- How many bytes a lead byte asks for, itself among them. -/
def sequenceLength (ch : UInt8) : Nat := if ch < 0xe0 then 2 else if ch < 0xf0 then 3 else 4

/-- The item that a text begins with. -/
def firstItem : List UInt8 → Option Item
  | [] => none
  | ch :: raw =>
      if ch = 0x5c then
        match raw with
        | [] => none
        | esc :: raw =>
            match simpleEscape esc with
            | some c => some (.escape esc c)
            | none =>
                match raw with
                | a :: b :: c :: d :: _ => (hextouint [a, b, c, d]).map (.unicode a b c d)
                | _ => none
      else if ch < 0x80 then some (.char ch)
      else
        let bytes := (ch :: raw).take (sequenceLength ch)
        some (.sequence bytes (bytes.foldl pushBack { str := [] }).codepoint)

theorem codepoint_pushBackU (cp : Nat) : (w.pushBackU cp).codepoint = w.codepoint := by
  unfold pushBackU setInvalid appendCodepoint
  dsimp only
  split_ifs <;> rfl

theorem LooseSequence.length {bytes : QByteArray} {cp : Nat} (h : LooseSequence bytes cp) :
    ∃ ch bs, bytes = ch :: bs ∧ sequenceLength ch = bytes.length := by
  cases h with
  | @two x y hx hy =>
      have hall : ∀ x < 0x20, sequenceLength (.ofNat (x + 0xc0)) = 2 := by decide
      exact ⟨_, _, rfl, hall x hx⟩
  | @three x y z hx hy hz =>
      have hall : ∀ x < 0x10, sequenceLength (.ofNat (x + 0xe0)) = 3 := by decide
      exact ⟨_, _, rfl, hall x hx⟩
  | @four x y z t hx hy hz ht =>
      have hall : ∀ x < 0x08, sequenceLength (.ofNat (x + 0xf0)) = 4 := by decide
      exact ⟨_, _, rfl, hall x hx⟩

theorem firstItem_sequence {bytes : QByteArray} {cp : Nat} (h : LooseSequence bytes cp)
    (text : List UInt8) : firstItem (bytes ++ text) = some (.sequence bytes cp) := by
  obtain ⟨ch, bs, rfl, hlen⟩ := h.length
  have hge : ch ≥ 0x80 := h.ge ch List.mem_cons_self
  have hback : ch ≠ 0x5c := by
    rintro rfl
    revert hge
    decide
  have hcp : ((ch :: bs).foldl pushBack { str := [] }).codepoint = cp := by
    rw [foldl_pushBack_sequence h rfl, codepoint_pushBackU]
  rw [List.cons_append, firstItem.eq_def]
  dsimp only
  rw [if_neg hback, if_neg (UInt8.not_lt.mpr hge), hlen, ← List.cons_append, List.take_left, hcp]

/-- An item is found where it is, whatever follows it. -/
theorem Item.Valid.firstItem {i : Item} (h : i.Valid) (text : List UInt8) :
    firstItem (i.bytes ++ text) = some i := by
  cases i with
  | char ch =>
      obtain ⟨-, hascii, -, hback⟩ := h
      rw [bytes, List.singleton_append, Json.firstItem.eq_def]
      dsimp only
      rw [if_neg hback, if_pos hascii]
  | escape esc c =>
      have hesc : simpleEscape esc = some c := h
      rw [bytes, List.cons_append, Json.firstItem.eq_def]
      simp only [List.cons_append, hesc, if_true]
  | unicode a b c d cp =>
      have hhex : hextouint [a, b, c, d] = some cp := h
      have hesc : simpleEscape 0x75 = none := rfl
      simp [bytes, Json.firstItem, hesc, hhex]
  | sequence bytes cp => exact firstItem_sequence h text

theorem Item.Valid.append_inj {i j : Item} (hi : i.Valid) (hj : j.Valid) {x y : List UInt8}
    (h : i.bytes ++ x = j.bytes ++ y) : i = j ∧ x = y := by
  have hij : i = j := by
    have hfirst := hi.firstItem x
    rw [h, hj.firstItem y] at hfirst
    exact (Option.some.inj hfirst).symm
  subst hij
  exact ⟨rfl, List.append_cancel_left h⟩

/-- A text up to its closing quotation mark has one sequence of items. -/
theorem itemBytes_inj {items items' : List Item} {rest rest' : List UInt8}
    (hitems : ∀ i ∈ items, Item.Valid i) (hitems' : ∀ i ∈ items', Item.Valid i)
    (h : itemBytes items ++ 0x22 :: rest = itemBytes items' ++ 0x22 :: rest') :
    items = items' := by
  -- no item begins with a quotation mark
  have hquote : ∀ {i : Item} {x y : List UInt8}, i.Valid → 0x22 :: x ≠ i.bytes ++ y := by
    intro i x y hi heq
    have hfirst := hi.firstItem y
    rw [← heq] at hfirst
    cases hfirst
    exact hi.2.2.1 rfl
  rw [itemBytes, itemBytes] at h
  induction items generalizing items' with
  | nil =>
      cases items' with
      | nil => rfl
      | cons j items' =>
          rw [List.flatMap_cons, List.append_assoc] at h
          exact absurd h (hquote (List.forall_mem_cons.mp hitems').1)
  | cons i items ih =>
      obtain ⟨hi, hitems⟩ := List.forall_mem_cons.mp hitems
      cases items' with
      | nil =>
          rw [List.flatMap_cons, List.append_assoc] at h
          exact absurd h.symm (hquote hi)
      | cons j items' =>
          obtain ⟨hj, hrest'⟩ := List.forall_mem_cons.mp hitems'
          rw [List.flatMap_cons, List.flatMap_cons, List.append_assoc, List.append_assoc] at h
          obtain ⟨rfl, hrest⟩ := hi.append_inj hj h
          rw [ih hitems hrest' hrest]

/-! ## The fast path -/

/-- A string token, where `tryFastPath` is disabled at compile time. -/
def filteredToken (start : List UInt8) : Tok × List UInt8 :=
  match slowPath { str := [] } start with
  | none => (.err, start)
  | some (w, raw) => if w.finalize then (.string w.str, raw) else (.err, raw)

theorem filteredToken_iff {data : QByteArray} :
    filteredToken start = (.string data, rest) ↔
      ∃ text w', start = text ++ rest ∧ SlowReads { str := [] } text w' ∧ w'.finalize = true ∧
        w'.str = data := by
  rw [filteredToken]
  constructor
  · intro h
    cases hslow : slowPath { str := [] } start with
    | none => simp [hslow] at h
    | some r =>
        obtain ⟨w', raw⟩ := r
        obtain ⟨text, rfl, hreads⟩ := exists_slowReads hslow
        rw [hslow] at h
        dsimp only at h
        split_ifs at h with hfin
        · cases h
          exact ⟨text, w', rfl, hreads, hfin, rfl⟩
        · simp at h
  · rintro ⟨text, w', rfl, hreads, hfin, rfl⟩
    rw [hreads.slowPath rest]
    dsimp only
    rw [if_pos hfin]

/-- What the slow path reads from the start is a string of the grammar. -/
theorem SlowReads.stringText {pre : List UInt8} (hpre : ∀ ch ∈ pre, isSimple ch = true)
    (h : SlowReads { str := pre } text w') (hfin : w'.finalize = true) :
    StringText (pre ++ text) w'.str := by
  induction text generalizing pre with
  | nil => exact absurd rfl h.ne_nil
  | cons ch text ih =>
      by_cases hs : isSimple ch = true
      · have hs' := hs
        simp only [isSimple, Bool.and_eq_true, decide_eq_true_eq, Bool.not_eq_true',
          decide_eq_false_iff_not] at hs'
        obtain ⟨⟨⟨h1, h2⟩, h3⟩, h4⟩ := hs'
        cases h with
        | stop => exact absurd rfl h1
        | escape _ _ => exact absurd rfl h2
        | unicode _ _ => exact absurd rfl h2
        | char _ _ _ hreads =>
            rw [pushBack_ascii' rfl (UInt8.not_le.mp h4)] at hreads
            rw [List.append_cons]
            refine ih (fun x hx => ?_) hreads
            rcases List.mem_append.mp hx with hx | hx
            · exact hpre x hx
            · rw [List.mem_singleton.mp hx]
              exact hs
      · cases h with
        | stop => exact .fast hpre
        | escape hesc hreads =>
            exact .slow hpre (by simp) (.escape hesc hreads) hfin
        | unicode hhex hreads =>
            exact .slow hpre (by simp) (.unicode hhex hreads) hfin
        | char h1 h2 h3 hreads =>
            refine .slow hpre (fun x hx => ?_) (.char h1 h2 h3 hreads) hfin
            rw [List.head?_cons, Option.mem_some_iff] at hx
            subst hx
            right
            by_contra hge
            simp [isSimple, h1, h2, h3, hge] at hs

/-- Characters of the fast path are passed on by the filter. -/
theorem slowReads_simple {pre : List UInt8} (hpre : ∀ ch ∈ pre, isSimple ch = true)
    (hw : w.state = 0) (h : SlowReads { w with str := w.str ++ pre } text w') :
    SlowReads w (pre ++ text) w' := by
  induction pre generalizing w with
  | nil =>
      rw [List.append_nil] at h
      exact h
  | cons ch pre ih =>
      obtain ⟨hs, hpre⟩ := List.forall_mem_cons.mp hpre
      simp only [isSimple, Bool.and_eq_true, decide_eq_true_eq, Bool.not_eq_true',
        decide_eq_false_iff_not] at hs
      obtain ⟨⟨⟨h1, h2⟩, h3⟩, h4⟩ := hs
      refine .char h3 h2 h1 ?_
      rw [pushBack_ascii' hw (UInt8.not_le.mp h4)]
      refine ih hpre hw ?_
      rw [List.append_cons] at h
      exact h

/-- The fast path and the filter accept the same strings, with the same value. -/
theorem stringToken_iff_filtered {data : QByteArray} :
    stringToken start = (.string data, rest) ↔ filteredToken start = (.string data, rest) := by
  rw [stringToken_iff, filteredToken_iff]
  constructor
  · rintro ⟨text, rfl, h⟩
    cases h with
    | fast hpre =>
        exact ⟨_, _, rfl, slowReads_simple hpre rfl .stop, rfl, rfl⟩
    | slow hpre _ hreads hfin =>
        exact ⟨_, _, rfl, slowReads_simple hpre rfl hreads, hfin, rfl⟩
  · rintro ⟨text, w', rfl, hreads, hfin, rfl⟩
    have hpre : ∀ ch ∈ ([] : List UInt8), isSimple ch = true := by simp
    exact ⟨text, rfl, hreads.stringText hpre hfin⟩

/-- A string token is read from items, and its value is what they make. -/
theorem stringToken_iff_items {data : QByteArray} :
    stringToken start = (.string data, rest) ↔
      ∃ items, (∀ i ∈ items, Item.Valid i) ∧ start = itemBytes items ++ 0x22 :: rest ∧
        decodeItems 0 items = some data := by
  rw [stringToken_iff_filtered, filteredToken_iff]
  constructor
  · rintro ⟨text, w', rfl, hreads, hfin, rfl⟩
    obtain ⟨items, out, hitems, rfl, hdecode, hstr⟩ := exists_items_of_slowReads hreads hfin rfl
    refine ⟨items, hitems, by simp, ?_⟩
    rw [hdecode, hstr]
    rfl
  · rintro ⟨items, hitems, rfl, hdecode⟩
    obtain ⟨w', hreads, hfin, hstr⟩ :=
      exists_slowReads_items (w := { str := [] }) hitems hdecode rfl rfl
    exact ⟨_, w', by simp, hreads, hfin, hstr⟩

end Json
end Shulcrum
