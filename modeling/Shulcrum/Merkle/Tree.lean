import Shulcrum.Types
import Shulcrum.Lib.PairTree

/-!
# Merkle branches and roots

The free functions of the `Merkle` namespace: branch and root of a vector of
hashes, a level of the tree, and a branch computed from a cached level.  The
double SHA-256 of two concatenated hashes is the parameter `hash`.

**Results.**
* `branchAndRoot_eq_ok`: the loop computes the library's `branch` and the head
  of the top level.
* `level_eq_ok`: a level computed by chunks is the level of the whole list.
* `branchAndRootFromLevel_eq_ok`: a branch cut at a level is the whole branch.
-/

namespace Shulcrum
namespace Merkle

open PairTree

/-- The maximum depth of a level. -/
def maxDepth : Nat := 28

/-- Length of a merkle branch for `count` hashes. -/
def branchLength (count : Nat) : Nat :=
  if count < 1 then 0 else Nat.clog 2 count

/-- Depth of the tree of `count` hashes. -/
def treeDepth (count : Nat) : Nat :=
  branchLength count + 1

/-- A merkle branch and the root it leads to. -/
abbrev BranchAndRootPair := List Hash × Hash

variable (hash : Hash → Hash → Hash)

/--
The loop of `branchAndRoot`: `length` rounds that repeat the last hash on an odd
row, append the sibling of `index` to the branch and move one row up.
-/
def branchLoop : Nat → List Hash → Nat → List Hash → List Hash × List Hash
  | 0, hashes, _, branch => (branch, hashes)
  | n + 1, hashes, index, branch =>
      let hashes := padEven hashes
      branchLoop n (pairUp hash hashes) (index >>> 1)
        (branch ++ hashes[index ^^^ 1]?.toList)

/-- `Merkle::branchAndRoot`. -/
def branchAndRoot (hashVec : List Hash) (index : Nat) (optLen : Option Nat) :
    Except Exception BranchAndRootPair :=
  if hashVec.length = 0 ∨ index ≥ hashVec.length then
    .error (.badArgs "Bad args to branchAndRoot")
  else
    let natLen := branchLength hashVec.length
    let length := optLen.getD natLen
    if length < natLen then .error (.badArgs "Bad length arg to branchAndRoot")
    else
      match branchLoop hash length hashVec index [] with
      | (_, []) => .error (.internalError "branchAndRoot: Output hash vector is empty")
      | (branch, front :: _) => .ok (branch, front)

/-- `Merkle::root`. -/
def root (hashes : List Hash) (length : Option Nat) : Except Exception Hash :=
  (branchAndRoot hash hashes 0 length).map Prod.snd

/-- The roots of the consecutive chunks of `size` hashes, `n` chunks at most. -/
def levelLoop (depthHigher : Nat) : Nat → List Hash → Except Exception (List Hash)
  | 0, _ => .ok []
  | n + 1, hashes =>
      if hashes.isEmpty then .ok []
      else do
        let r ← root hash (hashes.take (1 <<< depthHigher)) (some depthHigher)
        let rest ← levelLoop depthHigher n (hashes.drop (1 <<< depthHigher))
        return r :: rest

/-- `Merkle::level`: the row `depthHigher` steps above the leaves. -/
def level (hashes : List Hash) (depthHigher : Nat) : Except Exception (List Hash) :=
  if depthHigher > maxDepth then .error (.badArgs "Argument depthHigher is too large")
  else if hashes.isEmpty then .error (.badArgs "Argument hashes cannot be empty")
  else levelLoop hash depthHigher hashes.length hashes

/-- `Merkle::branchAndRootFromLevel`. -/
def branchAndRootFromLevel (level leafHashes : List Hash) (index depthHigher : Nat) :
    Except Exception BranchAndRootPair :=
  if level.isEmpty ∨ leafHashes.isEmpty ∨ depthHigher > maxDepth then
    .error (.badArgs "Invalid arguments to branchAndRootFromLevel")
  else do
    let leafIndex := (index >>> depthHigher) <<< depthHigher
    let (leafBranch, leafRoot) ←
      branchAndRoot hash leafHashes (index - leafIndex) (some depthHigher)
    let index := index >>> depthHigher
    let (levelBranch, root) ← branchAndRoot hash level index none
    if level[index]? ≠ some leafRoot then
      throw (.internalError
        "branchAndRootFromLevel: leaf hashes inconsistent with level")
    return (leafBranch ++ levelBranch, root)

theorem branchLoop_eq (n : Nat) (hashes : List Hash) (index : Nat) (acc : List Hash) :
    branchLoop hash n hashes index acc =
      (acc ++ branch hash n hashes index, upN hash n hashes) := by
  induction n generalizing hashes index acc with
  | zero => simp [branchLoop, branch, upN]
  | succ n ih =>
      simp only [branchLoop, ih, branch, upN, up, List.append_assoc,
        Nat.shiftRight_eq_div_pow, pow_one]

theorem branchLength_le_iff {count n : Nat} (h : 0 < count) :
    branchLength count ≤ n ↔ count ≤ 2 ^ n := by
  rw [branchLength, if_neg (by omega), Nat.clog_le_iff_le_pow (by omega)]

/-- The branch and root of a list, for every admissible number of rounds. -/
theorem branchAndRoot_eq_ok {hashes : List Hash} {index : Nat} {optLen : Option Nat} {n : Nat}
    (hidx : index < hashes.length) (hn : optLen.getD (branchLength hashes.length) = n)
    (hle : hashes.length ≤ 2 ^ n) :
    ∃ r, upN hash n hashes = [r] ∧
      branchAndRoot hash hashes index optLen = .ok (branch hash n hashes index, r) := by
  have hne : hashes ≠ [] := by
    rintro rfl
    simp at hidx
  obtain ⟨r, hr⟩ := List.length_eq_one_iff.mp (length_upN_of_le hash hne hle)
  refine ⟨r, hr, ?_⟩
  have hnat : ¬ n < branchLength hashes.length := by
    rw [not_lt, branchLength_le_iff (by omega)]
    exact hle
  have harg : ¬ (hashes.length = 0 ∨ index ≥ hashes.length) := by omega
  simp only [branchAndRoot, if_neg harg, hn, if_neg hnat, branchLoop_eq, hr,
    List.nil_append]

theorem branchAndRoot_none {hashes : List Hash} {index : Nat} (hidx : index < hashes.length) :
    ∃ r, upN hash (branchLength hashes.length) hashes = [r] ∧
      branchAndRoot hash hashes index none =
        .ok (branch hash (branchLength hashes.length) hashes index, r) :=
  branchAndRoot_eq_ok hash hidx rfl ((branchLength_le_iff (by omega)).mp le_rfl)

/-- A branch leads from its leaf to the root. -/
theorem climb_branchAndRoot {hashes branch : List Hash} {index : Nat} {root x : Hash}
    (hx : hashes[index]? = some x)
    (h : branchAndRoot hash hashes index none = .ok (branch, root)) :
    climb hash x index branch = root := by
  obtain ⟨r, hrow, hok⟩ := branchAndRoot_none hash (List.getElem?_eq_some_iff.mp hx).1
  rw [hok] at h
  cases h
  have hclimb := climb_branch hash (branchLength hashes.length) hx
  rw [hrow, List.getElem?_singleton] at hclimb
  split_ifs at hclimb
  exact (Option.some.inj hclimb).symm

theorem root_eq_ok {hashes : List Hash} {n : Nat} (hne : hashes ≠ [])
    (hle : hashes.length ≤ 2 ^ n) :
    ∃ r, upN hash n hashes = [r] ∧ root hash hashes (some n) = .ok r := by
  have hidx : 0 < hashes.length := List.length_pos_iff.mpr hne
  obtain ⟨r, hr, hok⟩ := branchAndRoot_eq_ok hash hidx (Option.getD_some (a := n)) hle
  exact ⟨r, hr, by simp [root, hok, Except.map]⟩

theorem levelLoop_eq_ok (d n : Nat) (hashes : List Hash) (hn : hashes.length ≤ n) :
    levelLoop hash d n hashes = .ok (upN hash d hashes) := by
  induction n generalizing hashes with
  | zero =>
      have hnil : hashes = [] := List.length_eq_zero_iff.mp (by omega)
      simp [levelLoop, hnil]
  | succ n ih =>
      by_cases hnil : hashes = []
      · simp [levelLoop, hnil]
      · have hlen : 0 < hashes.length := List.length_pos_iff.mpr hnil
        have hsize : (1 <<< d) = 2 ^ d := by rw [Nat.shiftLeft_eq, one_mul]
        have hpow : 0 < 2 ^ d := Nat.two_pow_pos d
        have htake : hashes.take (2 ^ d) ≠ [] := by
          simp only [ne_eq, List.take_eq_nil_iff, not_or]
          exact ⟨by omega, hnil⟩
        obtain ⟨r, hr, hok⟩ := root_eq_ok hash (n := d) htake (by simp)
        have hrest : levelLoop hash d n (hashes.drop (2 ^ d)) =
            .ok (upN hash d (hashes.drop (2 ^ d))) := by
          apply ih
          rw [List.length_drop]
          omega
        have hsplit : upN hash d hashes = r :: upN hash d (hashes.drop (2 ^ d)) := by
          by_cases hle : hashes.length ≤ 2 ^ d
          · have hdrop : hashes.drop (2 ^ d) = [] := List.drop_eq_nil_of_le hle
            rw [List.take_of_length_le hle] at hr
            rw [hdrop, upN_nil, hr]
          · have hdvd : 2 ^ d ∣ (hashes.take (2 ^ d)).length := by
              rw [List.length_take, min_eq_left (by omega)]
            conv_lhs => rw [← List.take_append_drop (2 ^ d) hashes]
            rw [upN_append hash hdvd, hr]
            rfl
        have hemp : hashes.isEmpty = false := by simp [hnil]
        simp only [levelLoop, hemp, hsize, hok, hrest, hsplit]
        rfl

theorem level_eq_ok {hashes : List Hash} {d : Nat} (hd : d ≤ maxDepth) (hne : hashes ≠ []) :
    level hash hashes d = .ok (upN hash d hashes) := by
  have hemp : hashes.isEmpty = false := by simp [hne]
  simp only [level, if_neg (not_lt.mpr hd), hemp]
  exact levelLoop_eq_ok hash d _ hashes le_rfl

/-- A full segment of leaves is as deep as its level. -/
theorem le_branchLength {l d : Nat} (h : 2 ^ d ≤ l) : d ≤ branchLength l := by
  have hp : 0 < 2 ^ d := Nat.two_pow_pos d
  by_contra hlt
  have hle : l ≤ 2 ^ (branchLength l) := (branchLength_le_iff (by omega)).mp le_rfl
  have : 2 ^ branchLength l < 2 ^ d := Nat.pow_lt_pow_right (by omega) (by omega)
  omega

/-- Cutting the tree at depth `d` splits the branch length. -/
theorem branchLength_cut {l d : Nat} (hl : 0 < l) (hd : d ≤ branchLength l) :
    branchLength l = d + branchLength ((l + 2 ^ d - 1) / 2 ^ d) := by
  have hp : 0 < 2 ^ d := Nat.two_pow_pos d
  have hpos : 0 < (l + 2 ^ d - 1) / 2 ^ d := Nat.div_pos (by omega) hp
  have hceil : ∀ k, l ≤ 2 ^ (d + k) ↔ (l + 2 ^ d - 1) / 2 ^ d ≤ 2 ^ k := by
    intro k
    rw [Nat.div_le_iff_le_mul_add_pred hp, pow_add]
    omega
  apply le_antisymm
  · rw [branchLength_le_iff (by omega), hceil]
    exact (branchLength_le_iff hpos).mp le_rfl
  · obtain ⟨k, hk⟩ := Nat.exists_eq_add_of_le hd
    rw [hk, Nat.add_le_add_iff_left, branchLength_le_iff hpos, ← hceil, ← hk]
    exact (branchLength_le_iff (by omega)).mp le_rfl

/-- The leaves below the node of level `d` that covers position `i`. -/
def segmentAt (d i : Nat) (hashes : List Hash) : List Hash :=
  (hashes.drop (i / 2 ^ d * 2 ^ d)).take (2 ^ d)

theorem mod_lt_length_segmentAt {d i : Nat} {hashes : List Hash} (hi : i < hashes.length) :
    i % 2 ^ d < (segmentAt d i hashes).length := by
  have hmod : i % 2 ^ d < 2 ^ d := Nat.mod_lt _ (Nat.two_pow_pos d)
  have hdm := Nat.div_add_mod' i (2 ^ d)
  simp only [segmentAt, List.length_take, List.length_drop]
  omega

/-- The low branch of a leaf and the node above its segment. -/
theorem branch_segmentAt {d i : Nat} {hashes : List Hash} (hi : i < hashes.length) :
    branch hash d hashes i = branch hash d (segmentAt d i hashes) (i % 2 ^ d) ∧
      ∃ r, upN hash d (segmentAt d i hashes) = [r] ∧
        (upN hash d hashes)[i / 2 ^ d]? = some r := by
  have hdm := Nat.div_add_mod' i (2 ^ d)
  have hmod := mod_lt_length_segmentAt (d := d) hi
  have hcut : hashes = hashes.take (i / 2 ^ d * 2 ^ d) ++
      (segmentAt d i hashes ++ (hashes.drop (i / 2 ^ d * 2 ^ d)).drop (2 ^ d)) := by
    rw [segmentAt, List.take_append_drop, List.take_append_drop]
  have hlen : (hashes.take (i / 2 ^ d * 2 ^ d)).length = i / 2 ^ d * 2 ^ d := by
    rw [List.length_take]
    omega
  have hdvd : 2 ^ d ∣ (hashes.take (i / 2 ^ d * 2 ^ d)).length := by
    rw [hlen]
    exact Nat.dvd_mul_left _ _
  have hseg : (segmentAt d i hashes).length = 2 ^ d ∨
      (hashes.drop (i / 2 ^ d * 2 ^ d)).drop (2 ^ d) = [] := by
    simp only [segmentAt, List.length_take, List.drop_eq_nil_iff]
    omega
  have hne : segmentAt d i hashes ≠ [] := by
    intro h
    rw [h] at hmod
    simp at hmod
  have hle : (segmentAt d i hashes).length ≤ 2 ^ d := by simp [segmentAt]
  obtain ⟨r, hr⟩ := List.length_eq_one_iff.mp (length_upN_of_le hash hne hle)
  generalize hpre : hashes.take (i / 2 ^ d * 2 ^ d) = pre at hcut hlen hdvd
  generalize hpost : (hashes.drop (i / 2 ^ d * 2 ^ d)).drop (2 ^ d) = post at hcut hseg
  generalize hsg : segmentAt d i hashes = seg at *
  refine ⟨?_, r, hr, ?_⟩
  · have h := branch_segment hash hdvd hseg hmod
    rw [← hcut, hlen, hdm] at h
    exact h
  · have hq : i / 2 ^ d * 2 ^ d ≤ hashes.length := by omega
    obtain ⟨hall, hprelen⟩ := upN_cut hash d (i / 2 ^ d) hq
    have hup : upN hash d (seg ++ post) = upN hash d seg ++ upN hash d post := by
      rcases hseg with hseg | rfl
      · exact upN_append hash ⟨1, by rw [hseg, mul_one]⟩ post
      · simp
    have hrest : hashes.drop (i / 2 ^ d * 2 ^ d) = seg ++ post := by
      rw [← hsg, ← hpost, segmentAt, List.take_append_drop]
    rw [hall, hrest, hup, hr, List.getElem?_append_right (by omega), hprelen, Nat.sub_self]
    rfl

/-- A branch completed from a level of the tree is the branch of the whole list. -/
theorem branchAndRootFromLevel_eq {d i : Nat} {hashes : List Hash} (hd : d ≤ maxDepth)
    (hi : i < hashes.length) (hlen : d ≤ branchLength hashes.length) :
    branchAndRootFromLevel hash (upN hash d hashes) (segmentAt d i hashes) i d =
      branchAndRoot hash hashes i none := by
  obtain ⟨hbranch, r, hr, hnode⟩ := branch_segmentAt hash (d := d) hi
  have hmod := mod_lt_length_segmentAt (d := d) hi
  have hidx : i / 2 ^ d < (upN hash d hashes).length :=
    (List.getElem?_eq_some_iff.mp hnode).1
  have hcut := branchLength_cut (by omega) hlen
  rw [← length_upN hash] at hcut
  obtain ⟨leafRoot, hleaf, hleafOk⟩ := branchAndRoot_eq_ok hash (n := d) hmod
    (Option.getD_some) (by simp [segmentAt])
  obtain ⟨top, htop, htopOk⟩ := branchAndRoot_none hash hidx
  obtain ⟨top', htop', hallOk⟩ := branchAndRoot_none hash hi
  have hsame : leafRoot = r := by simpa [hr] using hleaf.symm
  have htops : top' = top := by
    rw [hcut, upN_add, htop] at htop'
    simpa using htop'.symm
  have hstart : i - (i / 2 ^ d) <<< d = i % 2 ^ d := by
    have hdm := Nat.div_add_mod' i (2 ^ d)
    rw [Nat.shiftLeft_eq]
    omega
  have hargs : ¬ ((upN hash d hashes).isEmpty ∨ (segmentAt d i hashes).isEmpty ∨
      d > maxDepth) := by
    simp only [List.isEmpty_iff, not_or]
    refine ⟨?_, ?_, by omega⟩
    · rintro h
      simp [h] at hidx
    · rintro h
      simp [h] at hmod
  rw [hallOk, hcut, branch_add, hbranch, htops]
  subst hsame
  simp only [branchAndRootFromLevel, if_neg hargs, Nat.shiftRight_eq_div_pow, hstart, hleafOk,
    htopOk, hnode]
  simp [bind, Except.bind, pure, Except.pure]

end Merkle
end Shulcrum
