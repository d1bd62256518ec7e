import Mathlib.Data.List.Basic
import Mathlib.Data.Nat.Bitwise
import Mathlib.Data.Nat.Log
import Mathlib.Tactic

/-!
# Hash trees over a list, one level at a time

A list of leaves is folded into its hash tree level by level.  On every level
the last node is repeated when the number of nodes is odd, and neighbours are
then combined two by two.  Nothing is assumed about the combining function.

* `up f l` is the level above `l`, and `upN f d l` the level `d` steps above.
* `branch f n l i` is the list of the `n` siblings on the way up from leaf `i`.
* `climb f x i ys` is the node reached from `x` at position `i` with the siblings `ys`.

**Results.**
* `upN_append`: levels are computed separately on blocks of aligned length.
* `upN_cut`, `take_upN`: cutting a level.
* `branch_add`: a branch is a lower branch followed by a branch of a level.
* `branch_segment`: the lower part only depends on the aligned segment of `i`.
* `climb_branch`: climbing with the siblings of a leaf reaches the node above it.
-/

namespace Shulcrum
namespace PairTree

universe u

variable {α : Type u}

/-- Repeat the last element of a list of odd length. -/
def padEven (l : List α) : List α :=
  if l.length % 2 = 1 then l ++ l.getLast?.toList else l

/-- Combine neighbours two by two. -/
def pairUp (f : α → α → α) : List α → List α
  | a :: b :: l => f a b :: pairUp f l
  | _ => []

/-- The next level of the tree. -/
def up (f : α → α → α) (l : List α) : List α :=
  pairUp f (padEven l)

/-- The level `d` steps above the leaves. -/
def upN (f : α → α → α) : Nat → List α → List α
  | 0, l => l
  | d + 1, l => upN f d (up f l)

/-- The siblings met on the way up from position `i`, lowest first. -/
def branch (f : α → α → α) : Nat → List α → Nat → List α
  | 0, _, _ => []
  | n + 1, l, i => (padEven l)[i ^^^ 1]?.toList ++ branch f n (up f l) (i / 2)

/-- Combine a node with its siblings on the way up, lowest first. -/
def climb (f : α → α → α) : α → Nat → List α → α
  | x, _, [] => x
  | x, i, y :: ys => climb f (if i % 2 = 1 then f y x else f x y) (i / 2) ys

variable (f : α → α → α)

@[simp] theorem padEven_nil : padEven ([] : List α) = [] := by
  simp [padEven]

theorem padEven_of_even {l : List α} (h : l.length % 2 = 0) : padEven l = l := by
  simp [padEven, h]

theorem padEven_cons_cons (a b : α) (l : List α) :
    padEven (a :: b :: l) = a :: b :: padEven l := by
  unfold padEven
  have hlen : (a :: b :: l).length % 2 = l.length % 2 := by
    simp only [List.length_cons]; omega
  rw [hlen]
  split_ifs with h
  · cases l with
    | nil => simp at h
    | cons c l => simp [List.getLast?_cons]
  · rfl

theorem padEven_append_of_even {l₁ : List α} (h : l₁.length % 2 = 0) (l₂ : List α) :
    padEven (l₁ ++ l₂) = l₁ ++ padEven l₂ := by
  induction l₁ using List.twoStepInduction with
  | nil => simp
  | singleton a => simp at h
  | cons_cons a b l₁ ih _ =>
      have hl : l₁.length % 2 = 0 := by
        simp only [List.length_cons] at h; omega
      simp only [List.cons_append]
      rw [padEven_cons_cons, ih hl]

theorem length_padEven (l : List α) : (padEven l).length = 2 * ((l.length + 1) / 2) := by
  unfold padEven
  split_ifs with h
  · cases l with
    | nil => simp at h
    | cons a l =>
        simp only [List.getLast?_cons, Option.toList_some, List.length_append,
          List.length_cons, List.length_nil] at h ⊢
        omega
  · omega

@[simp] theorem up_nil : up f [] = [] := by
  simp [up, pairUp]

@[simp] theorem up_singleton (a : α) : up f [a] = [f a a] := by
  simp [up, padEven, pairUp]

@[simp] theorem up_cons_cons (a b : α) (l : List α) :
    up f (a :: b :: l) = f a b :: up f l := by
  simp [up, padEven_cons_cons, pairUp]

theorem length_up (l : List α) : (up f l).length = (l.length + 1) / 2 := by
  induction l using List.twoStepInduction with
  | nil => simp
  | singleton a => simp
  | cons_cons a b l ih _ =>
      simp only [up_cons_cons, List.length_cons, ih]
      omega

theorem up_append_of_even {l₁ : List α} (h : l₁.length % 2 = 0) (l₂ : List α) :
    up f (l₁ ++ l₂) = up f l₁ ++ up f l₂ := by
  induction l₁ using List.twoStepInduction with
  | nil => simp
  | singleton a => simp at h
  | cons_cons a b l₁ ih _ =>
      have hl : l₁.length % 2 = 0 := by
        simp only [List.length_cons] at h; omega
      simp [ih hl]

@[simp] theorem upN_nil (d : Nat) : upN f d [] = [] := by
  induction d with
  | zero => rfl
  | succ d ih => simp [upN, ih]

theorem upN_add (d k : Nat) (l : List α) : upN f (d + k) l = upN f k (upN f d l) := by
  induction d generalizing l with
  | zero => simp [upN]
  | succ d ih =>
      rw [Nat.add_right_comm]
      simp only [upN]
      exact ih (up f l)

/-- Length of a level, rounded up. -/
theorem length_upN (d : Nat) (l : List α) :
    (upN f d l).length = (l.length + 2 ^ d - 1) / 2 ^ d := by
  induction d generalizing l with
  | zero => simp [upN]
  | succ d ih =>
      rw [upN, ih, length_up, pow_succ]
      have hp : 0 < 2 ^ d := Nat.two_pow_pos d
      generalize 2 ^ d = p at hp ⊢
      rw [Nat.mul_comm p 2, ← Nat.div_div_eq_div_mul]
      congr 1
      omega

/-- Levels of a list cut at a multiple of `2 ^ d` are the levels of the parts. -/
theorem upN_append {d : Nat} {l₁ : List α} (h : 2 ^ d ∣ l₁.length) (l₂ : List α) :
    upN f d (l₁ ++ l₂) = upN f d l₁ ++ upN f d l₂ := by
  induction d generalizing l₁ l₂ with
  | zero => rfl
  | succ d ih =>
      obtain ⟨q, hq⟩ := h
      rw [pow_succ] at hq
      have heven : l₁.length % 2 = 0 := by
        rw [hq, Nat.mul_right_comm]; omega
      have hup : 2 ^ d ∣ (up f l₁).length := by
        refine ⟨q, ?_⟩
        rw [length_up, hq]
        have : 2 ^ d * 2 * q = 2 * (2 ^ d * q) := by ring
        rw [this]
        omega
      rw [upN, up_append_of_even f heven, ih hup]
      rfl

/-- A level is cut where the leaves below are cut. -/
theorem upN_cut (d k : Nat) {l : List α} (h : k * 2 ^ d ≤ l.length) :
    upN f d l = upN f d (l.take (k * 2 ^ d)) ++ upN f d (l.drop (k * 2 ^ d)) ∧
      (upN f d (l.take (k * 2 ^ d))).length = k := by
  have hp : 0 < 2 ^ d := Nat.two_pow_pos d
  have hlen : (l.take (k * 2 ^ d)).length = k * 2 ^ d := by
    rw [List.length_take, min_eq_left h]
  constructor
  · conv_lhs => rw [← List.take_append_drop (k * 2 ^ d) l]
    exact upN_append f ⟨k, by rw [hlen, Nat.mul_comm]⟩ _
  · have hsmall : (2 ^ d - 1) / 2 ^ d = 0 := Nat.div_eq_of_lt (Nat.sub_lt hp one_pos)
    rw [length_upN, hlen, Nat.add_sub_assoc hp, Nat.mul_comm, Nat.mul_add_div hp, hsmall,
      Nat.add_zero]

theorem take_upN (d k : Nat) {l : List α} (h : k * 2 ^ d ≤ l.length) :
    (upN f d l).take k = upN f d (l.take (k * 2 ^ d)) := by
  obtain ⟨hcut, hlen⟩ := upN_cut f d k h
  rw [hcut, List.take_left' hlen]

/-- A block of at most `2 ^ d` leaves has a single node `d` levels up. -/
theorem length_upN_of_le {d : Nat} {l : List α} (hne : l ≠ []) (h : l.length ≤ 2 ^ d) :
    (upN f d l).length = 1 := by
  have hpos : 0 < l.length := List.length_pos_iff.mpr hne
  have hp : 0 < 2 ^ d := Nat.two_pow_pos d
  rw [length_upN]
  apply Nat.div_eq_of_lt_le <;> omega

theorem branch_add (d k : Nat) (l : List α) (i : Nat) :
    branch f (d + k) l i = branch f d l i ++ branch f k (upN f d l) (i / 2 ^ d) := by
  induction d generalizing l i with
  | zero => simp [branch, upN]
  | succ d ih =>
      rw [Nat.add_right_comm]
      simp only [branch, upN]
      rw [ih (up f l) (i / 2), List.append_assoc, Nat.div_div_eq_div_mul,
        Nat.mul_comm 2, ← pow_succ]

/-- The sibling of a position stays on the same side of every even cut. -/
theorem xor_one_add_even {m i : Nat} (hm : m % 2 = 0) : (m + i) ^^^ 1 = m + (i ^^^ 1) := by
  rcases Nat.mod_two_eq_zero_or_one i with hi | hi
  · have hs : Even (m + i) := Nat.even_iff.mpr (by omega)
    rw [Nat.xor_one_of_even hs, Nat.xor_one_of_even (Nat.even_iff.mpr hi)]
    omega
  · have hs : Odd (m + i) := Nat.odd_iff.mpr (by omega)
    rw [Nat.xor_one_of_odd hs, Nat.xor_one_of_odd (Nat.odd_iff.mpr hi)]
    omega

theorem xor_one_lt_of_even {m i : Nat} (hm : m % 2 = 0) (hi : i < m) : i ^^^ 1 < m := by
  rcases Nat.even_or_odd i with h | h
  · rw [Nat.xor_one_of_even h]
    have := Nat.even_iff.mp h
    omega
  · rw [Nat.xor_one_of_odd h]
    omega

/--
The `d` lowest siblings of a leaf only depend on its aligned segment.  The
segment is either a full block of `2 ^ d` leaves or the end of the list.
-/
theorem branch_segment {d : Nat} {pre seg post : List α} {i : Nat}
    (hpre : 2 ^ d ∣ pre.length) (hseg : seg.length = 2 ^ d ∨ post = [])
    (hi : i < seg.length) :
    branch f d (pre ++ (seg ++ post)) (pre.length + i) = branch f d seg i := by
  induction d generalizing pre seg post i with
  | zero => rfl
  | succ d ih =>
      obtain ⟨q, hq⟩ := hpre
      have hq' : pre.length = 2 * (2 ^ d * q) := by rw [hq, pow_succ]; ring
      have hpreEven : pre.length % 2 = 0 := by omega
      have hpreUp : (up f pre).length = 2 ^ d * q := by
        rw [length_up]; omega
      have hsib : (padEven (pre ++ (seg ++ post)))[(pre.length + i) ^^^ 1]? =
          (padEven seg)[i ^^^ 1]? := by
        rw [padEven_append_of_even hpreEven, xor_one_add_even hpreEven,
          List.getElem?_append_right (by omega), Nat.add_sub_cancel_left]
        rcases hseg with hseg | rfl
        · have hsegEven : seg.length % 2 = 0 := by rw [hseg, pow_succ]; omega
          rw [padEven_append_of_even hsegEven, padEven_of_even hsegEven,
            List.getElem?_append_left (xor_one_lt_of_even hsegEven hi)]
        · rw [List.append_nil]
      have hup : up f (pre ++ (seg ++ post)) = up f pre ++ (up f seg ++ up f post) := by
        rw [up_append_of_even f hpreEven]
        rcases hseg with hseg | rfl
        · rw [up_append_of_even f (by rw [hseg, pow_succ]; omega)]
        · simp
      have hsegUp : (up f seg).length = 2 ^ d ∨ up f post = [] := by
        rcases hseg with hseg | rfl
        · left; rw [length_up, hseg, pow_succ]; omega
        · right; simp
      have hidx : (pre.length + i) / 2 = (up f pre).length + i / 2 := by omega
      simp only [branch]
      rw [hsib, hup, hidx, ih ⟨q, hpreUp⟩ hsegUp (by rw [length_up]; omega)]

theorem getElem?_pairUp {l : List α} {k : Nat} {a b : α} (ha : l[2 * k]? = some a)
    (hb : l[2 * k + 1]? = some b) : (pairUp f l)[k]? = some (f a b) := by
  induction l using List.twoStepInduction generalizing k with
  | nil => simp at ha
  | singleton x =>
      cases k with
      | zero => simp at hb
      | succ k => simp at ha
  | cons_cons x y l ih _ =>
      cases k with
      | zero =>
          simp only [Nat.mul_zero, List.getElem?_cons_zero, List.getElem?_cons_succ,
            Option.some.injEq, Nat.zero_add] at ha hb
          simp [pairUp, ha, hb]
      | succ k =>
          rw [Nat.mul_succ] at ha hb
          simp only [List.getElem?_cons_succ] at ha hb
          simpa [pairUp] using ih ha hb

/-- A node and its sibling are combined into the node above them. -/
theorem getElem?_up {l : List α} {i : Nat} {x : α} (hx : l[i]? = some x) :
    ∃ y, (padEven l)[i ^^^ 1]? = some y ∧
      (up f l)[i / 2]? = some (if i % 2 = 1 then f y x else f x y) := by
  have hi : i < l.length := (List.getElem?_eq_some_iff.mp hx).1
  have hlen := length_padEven l
  have hpad : (padEven l)[i]? = some x := by
    unfold padEven
    split_ifs
    · rw [List.getElem?_append_left hi, hx]
    · exact hx
  have hsib : i ^^^ 1 < (padEven l).length := xor_one_lt_of_even (by omega) (by omega)
  refine ⟨(padEven l)[i ^^^ 1], List.getElem?_eq_getElem hsib, ?_⟩
  have hy := List.getElem?_eq_getElem hsib
  generalize (padEven l)[i ^^^ 1] = y at hy
  rcases Nat.even_or_odd' i with ⟨k, rfl | rfl⟩
  · rw [Nat.xor_one_of_even (even_two_mul k)] at hy
    have hmod : ¬ 2 * k % 2 = 1 := by omega
    rw [if_neg hmod, Nat.mul_div_cancel_left k (by omega)]
    exact getElem?_pairUp f hpad hy
  · rw [Nat.xor_one_of_odd (odd_two_mul_add_one k), Nat.add_sub_cancel] at hy
    have hmod : (2 * k + 1) % 2 = 1 := by omega
    have hdiv : (2 * k + 1) / 2 = k := by omega
    rw [if_pos hmod, hdiv]
    exact getElem?_pairUp f hy hpad

/-- Climbing from a leaf with its branch reaches the node above it. -/
theorem climb_branch (n : Nat) {l : List α} {i : Nat} {x : α} (hx : l[i]? = some x) :
    (upN f n l)[i / 2 ^ n]? = some (climb f x i (branch f n l i)) := by
  induction n generalizing l i x with
  | zero => simpa [upN, branch, climb] using hx
  | succ n ih =>
      obtain ⟨y, hy, hup⟩ := getElem?_up f hx
      have hnext := ih hup
      rw [Nat.div_div_eq_div_mul, Nat.mul_comm 2, ← pow_succ] at hnext
      simpa only [upN, branch, hy, Option.toList_some, List.singleton_append, climb] using hnext

end PairTree
end Shulcrum
