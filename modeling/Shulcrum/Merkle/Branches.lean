import Shulcrum.Merkle.Tree

/-!
# Branches lead to the root

`calculateRootFromMerkleBranch` folds a branch from its leaf.  A branch longer
than the tree is deep goes on past the root, so a level above the root does not
give the natural branch.

**Results.**
* `calculateRoot_eq_climb`: the fold is the library's `climb`.
* `branchAndRootFromLevel_eq_iff`: the shortcut through a level gives the natural
  branch if and only if the level is one of the tree's and not too deep.
* `branchAndRoot_sound`: every branch leads to the one root.
-/

namespace Shulcrum
namespace Merkle

open PairTree

variable (hash : Hash → Hash → Hash)

/-- `calculateRootFromMerkleBranch`. -/
def calculateRootFromMerkleBranch (workingHash : Hash) (index : Nat) : List Hash → Hash
  | [] => workingHash
  | sibling :: branch =>
      let (a, b) := if index &&& 1 ≠ 0 then (sibling, workingHash) else (workingHash, sibling)
      calculateRootFromMerkleBranch (hash a b) (index >>> 1) branch

theorem calculateRoot_eq_climb (branch : List Hash) (x : Hash) (i : Nat) :
    calculateRootFromMerkleBranch hash x i branch = climb hash x i branch := by
  induction branch generalizing x i with
  | nil => rfl
  | cons y branch ih =>
      have hbit : i &&& 1 ≠ 0 ↔ i % 2 = 1 := by
        rw [Nat.and_one_is_mod]
        omega
      rw [calculateRootFromMerkleBranch, climb]
      simp only [hbit, ih, Nat.shiftRight_eq_div_pow, pow_one]
      split_ifs
      · rfl
      · rfl

/-- A branch has a sibling for every round, if the index is in range. -/
theorem length_branch (n : Nat) {hashes : List Hash} {i : Nat} (hi : i < hashes.length) :
    (branch hash n hashes i).length = n := by
  induction n generalizing hashes i with
  | zero => rfl
  | succ n ih =>
      obtain ⟨y, hy, -⟩ := getElem?_up hash (List.getElem?_eq_getElem hi)
      have hup : i / 2 < (up hash hashes).length := by
        rw [length_up]
        omega
      rw [branch, hy, Option.toList_some, List.singleton_append, List.length_cons, ih hup]

/-- Above the root, the branch from a level is longer than the natural one. -/
theorem branchAndRootFromLevel_above {hashes : List Hash} {d i : Nat} (hd : d ≤ maxDepth)
    (hi : i < hashes.length) (habove : branchLength hashes.length < d) :
    branchAndRootFromLevel hash (upN hash d hashes) (segmentAt d i hashes) i d ≠
      branchAndRoot hash hashes i none := by
  have hle : hashes.length ≤ 2 ^ d := (branchLength_le_iff (by omega)).mp habove.le
  have hzero : i / 2 ^ d = 0 := Nat.div_eq_of_lt (by omega)
  have hseg : segmentAt d i hashes = hashes := by
    rw [segmentAt, hzero, Nat.zero_mul, List.drop_zero, List.take_of_length_le hle]
  obtain ⟨r, hr, hleaf⟩ := branchAndRoot_eq_ok hash hi (Option.getD_some (a := d)) hle
  obtain ⟨top, -, hall⟩ := branchAndRoot_none hash hi
  have htop : branchAndRoot hash [r] 0 none = .ok ([], r) := by
    have hzero : 0 < [r].length := by simp
    obtain ⟨r', hr', hok⟩ := branchAndRoot_none hash hzero
    have hlen : branchLength [r].length = 0 := by simp [branchLength]
    rw [hlen, upN] at hr'
    rw [hok, hlen, branch]
    cases hr'
    rfl
  have hargs : ¬ ([r].isEmpty ∨ hashes.isEmpty ∨ d > maxDepth) := by
    simp only [List.isEmpty_iff, not_or]
    refine ⟨by simp, ?_, by omega⟩
    rintro rfl
    simp at hi
  have hlevel : branchAndRootFromLevel hash [r] hashes i d = .ok (branch hash d hashes i, r) := by
    simp only [branchAndRootFromLevel, if_neg hargs, Nat.shiftRight_eq_div_pow, hzero,
      Nat.zero_shiftLeft, Nat.sub_zero, hleaf]
    simp [bind, Except.bind, pure, Except.pure, htop]
  rw [hseg, hr, hall, hlevel]
  intro heq
  rw [Except.ok.injEq, Prod.mk.injEq] at heq
  have hlens := congrArg List.length heq.1
  rw [length_branch hash d hi, length_branch hash _ hi] at hlens
  omega

/-- A level gives the natural branch if and only if the tree has it and it is not
too deep. -/
theorem branchAndRootFromLevel_eq_iff {hashes : List Hash} {i : Nat} (hi : i < hashes.length)
    (d : Nat) :
    (∃ row, level hash hashes d = .ok row ∧
      branchAndRootFromLevel hash row (segmentAt d i hashes) i d =
        branchAndRoot hash hashes i none) ↔
    d ≤ maxDepth ∧ d ≤ branchLength hashes.length := by
  have hne : hashes ≠ [] := by
    rintro rfl
    simp at hi
  by_cases hd : d ≤ maxDepth
  · rw [level_eq_ok hash hd hne, and_iff_right hd]
    constructor
    · rintro ⟨row, hrow, heq⟩
      cases hrow
      by_contra habove
      exact branchAndRootFromLevel_above hash hd hi (not_le.mp habove) heq
    · exact fun hlen => ⟨_, rfl, branchAndRootFromLevel_eq hash hd hi hlen⟩
  · rw [level, if_pos (not_le.mp hd)]
    constructor
    · rintro ⟨row, hrow, -⟩
      cases hrow
    · exact fun h => absurd h.1 hd

/-- Every branch leads to the one root, and so do the branches cut at a level of
the tree. -/
theorem branchAndRoot_sound (hashes : List Hash) (i : Nat) (hi : i < hashes.length)
    (optLen : Option Nat) (hlen : ∀ n ∈ optLen, branchLength hashes.length ≤ n) :
    (∃ branch root, branchAndRoot hash hashes i optLen = .ok (branch, root) ∧
      calculateRootFromMerkleBranch hash hashes[i] i branch = root ∧
      ∀ j < hashes.length, ∃ branch', branchAndRoot hash hashes j optLen = .ok (branch', root)) ∧
    ∀ d, (∃ row, level hash hashes d = .ok row ∧
      branchAndRootFromLevel hash row (segmentAt d i hashes) i d =
        branchAndRoot hash hashes i none) ↔
      d ≤ maxDepth ∧ d ≤ branchLength hashes.length := by
  refine ⟨?_, branchAndRootFromLevel_eq_iff hash hi⟩
  have hnat : branchLength hashes.length ≤ optLen.getD (branchLength hashes.length) := by
    cases optLen with
    | none => exact le_rfl
    | some n => exact hlen n rfl
  have hle := (branchLength_le_iff (by omega)).mp hnat
  obtain ⟨r, hr, hok⟩ := branchAndRoot_eq_ok hash hi rfl hle
  refine ⟨_, r, hok, ?_, fun j hj => ?_⟩
  · have hclimb := climb_branch hash (optLen.getD (branchLength hashes.length))
      (List.getElem?_eq_getElem hi)
    rw [hr, List.getElem?_singleton] at hclimb
    split_ifs at hclimb
    rw [calculateRoot_eq_climb]
    exact (Option.some.inj hclimb).symm
  · obtain ⟨r', hr', hok'⟩ := branchAndRoot_eq_ok hash hj rfl hle
    rw [hr] at hr'
    cases hr'
    exact ⟨_, hok'⟩

/-- Three hashes, with the natural length. -/
theorem branchAndRoot_sound_three :
    (∃ branch root, branchAndRoot (· ^^^ ·) [1, 2, 3] 2 none = .ok (branch, root) ∧
      calculateRootFromMerkleBranch (· ^^^ ·) 3 2 branch = root ∧
      ∀ j < 3, ∃ branch', branchAndRoot (· ^^^ ·) [1, 2, 3] j none = .ok (branch', root)) :=
  (branchAndRoot_sound (· ^^^ ·) [1, 2, 3] 2 (by decide) none (by simp)).1

/-- A level above a single hash gives a longer branch. -/
theorem branchAndRootFromLevel_single :
    level (· ^^^ ·) [1] 1 = .ok [0] ∧
      branchAndRootFromLevel (· ^^^ ·) [0] (segmentAt 1 0 [1]) 0 1 = .ok ([1], 0) ∧
      branchAndRoot (· ^^^ ·) [1] 0 none = .ok ([], 1) := by
  decide

end Merkle
end Shulcrum
