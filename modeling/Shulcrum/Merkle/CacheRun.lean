import Shulcrum.Merkle.Cache

/-!
# Runs of the merkle cache

The header store and its merkle cache form one system: the store is extended
and shrunk, the cache is initialised, queried and truncated, in any order.

**Results.**
* `valid_of_reachable`: the row kept by the cache is right in every run.
* `branchAndRoot_agrees_iff`: a query for a prefix gives the branch and root of
  the plain computation exactly when the cache is initialised and the length
  asked for is not a segment border below the cached length.
-/

namespace Shulcrum
namespace Merkle

open PairTree RecordArray Invariant

/-- `Storage::MAX_HEADERS`. -/
def maxHeaders : Nat := 1000000000

/-- The ids of the stored headers. -/
structure HashSource where
  hashes : List Hash
  length_le : hashes.length ≤ maxHeaders

/-- The header store together with its cache. -/
structure CacheSystem where
  src : HashSource
  cache : Cache

variable (hash : Hash → Hash → Hash)

/-- One operation on the store or on the cache. -/
inductive CacheStep : CacheSystem → CacheSystem → Prop
  | extend {s : CacheSystem} (src' : HashSource) :
      s.src.hashes <+: src'.hashes → CacheStep s ⟨src', s.cache⟩
  | shrink {s : CacheSystem} (src' : HashSource) (n : Nat) (c' : Cache) :
      src'.hashes = s.src.hashes.take n → s.cache.truncate n = (.ok (), c') →
      CacheStep s ⟨src', c'⟩
  | initializeTo (s : CacheSystem) (l : Nat) :
      CacheStep s ⟨s.src, (s.cache.initializeTo hash s.src.hashes l).2⟩
  | initializeFrom (s : CacheSystem) (n : Nat) :
      CacheStep s ⟨s.src, (s.cache.initializeNolock hash (s.src.hashes.take n)).2⟩
  | query (s : CacheSystem) (l i : Nat) :
      CacheStep s ⟨s.src, (s.cache.branchAndRoot hash s.src.hashes l i).2⟩

/-- A run starts with any header store and a cache just constructed. -/
def CacheInit (s : CacheSystem) : Prop := s.cache = {}

namespace Cache

variable {hash} {src : List Hash} {c : Cache}

theorem Valid.length_level (h : c.Valid hash src) (hne : c.length ≠ 0) :
    c.level.length = (c.length + 2 ^ c.depthHigher - 1) / 2 ^ c.depthHigher := by
  rw [h.level_eq hne, length_upN, List.length_take, min_eq_left h.length_le]

theorem Valid.div_le_length_level (h : c.Valid hash src) :
    c.length / 2 ^ c.depthHigher ≤ c.level.length := by
  have hp : 0 < 2 ^ c.depthHigher := Nat.two_pow_pos _
  by_cases hz : c.length = 0
  · simp [hz]
  · rw [h.length_level hz]
    apply Nat.div_le_div_right
    omega

/-- The nodes above full segments of the cached prefix. -/
theorem Valid.take_level (h : c.Valid hash src) {l : Nat} (hl : l ≤ c.length) :
    c.level.take (l / 2 ^ c.depthHigher) =
      upN hash c.depthHigher (src.take (l / 2 ^ c.depthHigher * 2 ^ c.depthHigher)) := by
  have hdm := Nat.div_mul_le_self l (2 ^ c.depthHigher)
  by_cases hz : c.length = 0
  · obtain rfl : l = 0 := by omega
    simp
  · rw [h.level_eq hz, take_upN hash, List.take_take, min_eq_left (by omega)]
    rw [List.length_take, min_eq_left h.length_le]
    omega

/-- The row over `l` leaves, from the full segments kept and the leaves after them. -/
theorem Valid.take_level_append (h : c.Valid hash src) {k l : Nat} (hk : k ≤ c.length)
    (hkl : k ≤ l) (hl : l ≤ src.length) :
    c.level.take (k / 2 ^ c.depthHigher) ++
        upN hash c.depthHigher ((src.drop (k / 2 ^ c.depthHigher * 2 ^ c.depthHigher)).take
          (l - k / 2 ^ c.depthHigher * 2 ^ c.depthHigher)) =
      upN hash c.depthHigher (src.take l) := by
  have hdm := Nat.div_mul_le_self k (2 ^ c.depthHigher)
  have hlen : k / 2 ^ c.depthHigher * 2 ^ c.depthHigher ≤ (src.take l).length := by
    rw [List.length_take]
    omega
  rw [h.take_level hk, (upN_cut hash c.depthHigher _ hlen).1, List.take_take,
    min_eq_left (by omega), List.drop_take]

/-- What a call of `extendTo` leaves behind. -/
theorem Valid.extendTo (h : c.Valid hash src) (hinit : c.initialized = true) (l : Nat) :
    (c.extendTo hash src l).2.Valid hash src ∧
      (c.extendTo hash src l).2.depthHigher = c.depthHigher ∧
      (l ≤ src.length → (c.extendTo hash src l).1 = .ok () ∧
        (c.extendTo hash src l).2.length = max l c.length) := by
  have hp : 0 < 2 ^ c.depthHigher := Nat.two_pow_pos _
  by_cases hle : l ≤ c.length
  · rw [Cache.extendTo, if_pos hle]
    exact ⟨h, rfl, fun _ => ⟨rfl, (max_eq_right hle).symm⟩⟩
  · have hstart := Nat.div_mul_le_self c.length (2 ^ c.depthHigher)
    have hlim : ¬ c.length / 2 ^ c.depthHigher * 2 ^ c.depthHigher / 2 ^ c.depthHigher >
        c.level.length := by
      rw [Nat.mul_div_cancel _ hp]
      exact not_lt.mpr h.div_le_length_level
    rw [Cache.extendTo, if_neg hle]
    simp only [leafStart_eq, Nat.shiftRight_eq_div_pow, if_neg hlim]
    cases hget : getHashes src (c.length / 2 ^ c.depthHigher * 2 ^ c.depthHigher)
        (l - c.length / 2 ^ c.depthHigher * 2 ^ c.depthHigher) with
    | error e =>
        refine ⟨h, rfl, fun hl => ?_⟩
        rw [getHashes_of_le (by omega) (by omega)] at hget
        cases hget
    | ok hashes =>
        obtain ⟨hpos, hl, rfl⟩ := getHashes_ok hget
        have hlsrc : l ≤ src.length := by omega
        have hne : (src.drop (c.length / 2 ^ c.depthHigher * 2 ^ c.depthHigher)).take
            (l - c.length / 2 ^ c.depthHigher * 2 ^ c.depthHigher) ≠ [] := by
          apply List.ne_nil_of_length_pos
          rw [List.length_take, List.length_drop]
          omega
        have hrow := h.take_level_append le_rfl (l := l) (by omega) hlsrc
        simp only [getLevel, level_eq_ok hash h.depth_le hne, Nat.mul_div_cancel _ hp, hrow]
        have hmax : l = max l c.length := by omega
        exact ⟨⟨hlsrc, h.depth_le, by simp [hinit], fun _ => rfl⟩, trivial,
          fun _ => ⟨trivial, hmax⟩⟩

/-- `levelFor` on a prefix, away from the segment borders below the cached length. -/
theorem Valid.levelFor (h : c.Valid hash src) {l : Nat} (hpos : 0 < l) (hl : l ≤ c.length)
    (hborder : l = c.length ∨ l % 2 ^ c.depthHigher ≠ 0) :
    c.levelFor hash src l = .ok (upN hash c.depthHigher (src.take l)) := by
  by_cases heq : l = c.length
  · rw [Cache.levelFor, if_pos heq, heq, h.level_eq (by omega)]
  · have hp : 0 < 2 ^ c.depthHigher := Nat.two_pow_pos _
    have hmod : l % 2 ^ c.depthHigher ≠ 0 := hborder.resolve_left heq
    have hdm := Nat.div_add_mod' l (2 ^ c.depthHigher)
    have hmodlt := Nat.mod_lt l hp
    have hsrc := h.length_le
    have hlim : ¬ l / 2 ^ c.depthHigher ≥ c.level.length := by
      have hlt : l / 2 ^ c.depthHigher < (c.length + 2 ^ c.depthHigher - 1) /
          2 ^ c.depthHigher := by
        rw [Nat.lt_div_iff_mul_lt hp]
        omega
      rw [h.length_level (by omega)]
      omega
    have hcount : min (2 ^ c.depthHigher) (l - l / 2 ^ c.depthHigher * 2 ^ c.depthHigher) =
        l - l / 2 ^ c.depthHigher * 2 ^ c.depthHigher := by omega
    have hne : (src.drop (l / 2 ^ c.depthHigher * 2 ^ c.depthHigher)).take
        (l - l / 2 ^ c.depthHigher * 2 ^ c.depthHigher) ≠ [] := by
      apply List.ne_nil_of_length_pos
      rw [List.length_take, List.length_drop]
      omega
    rw [Cache.levelFor, if_neg heq]
    simp only [Nat.shiftRight_eq_div_pow, if_neg hlim, leafStart_eq, segmentLength_eq, hcount]
    rw [getHashes_of_le (by omega) (by omega)]
    simp only [getLevel, level_eq_ok hash h.depth_le hne]
    rw [h.take_level_append hl le_rfl (by omega)]

/-- On a segment border below the cached length no hash is read, and that is an error. -/
theorem Valid.levelFor_border (h : c.Valid hash src) {l : Nat} (hl : l < c.length)
    (hborder : l % 2 ^ c.depthHigher = 0) :
    c.levelFor hash src l = .error (.internalError outOfRangeMsg) := by
  have hp : 0 < 2 ^ c.depthHigher := Nat.two_pow_pos _
  have hdm := Nat.div_add_mod' l (2 ^ c.depthHigher)
  have hlim : ¬ l / 2 ^ c.depthHigher ≥ c.level.length := by
    have hlt : l / 2 ^ c.depthHigher < (c.length + 2 ^ c.depthHigher - 1) /
        2 ^ c.depthHigher := by
      rw [Nat.lt_div_iff_mul_lt hp]
      omega
    rw [h.length_level (by omega)]
    omega
  have hcount : min (2 ^ c.depthHigher) (l - l / 2 ^ c.depthHigher * 2 ^ c.depthHigher) = 0 := by
    omega
  rw [Cache.levelFor, if_neg (by omega)]
  simp only [Nat.shiftRight_eq_div_pow, if_neg hlim, leafStart_eq, segmentLength_eq, hcount,
    getHashes_zero]

/-- The answer for a prefix of the cached length, away from the segment borders. -/
theorem Valid.branchAndRootExtended (h : c.Valid hash src) {l i : Nat} (hi : i < l)
    (hl : l ≤ c.length) (hborder : l = c.length ∨ l % 2 ^ c.depthHigher ≠ 0) :
    c.branchAndRootExtended hash src l i = Merkle.branchAndRoot hash (src.take l) i none := by
  have hp : 0 < 2 ^ c.depthHigher := Nat.two_pow_pos _
  have hsrc := h.length_le
  have hdm := Nat.div_mul_le_self i (2 ^ c.depthHigher)
  have hlen : (src.take l).length = l := by
    rw [List.length_take]
    omega
  have hleaf : getHashes src (i / 2 ^ c.depthHigher * 2 ^ c.depthHigher)
      (min (2 ^ c.depthHigher) (l - i / 2 ^ c.depthHigher * 2 ^ c.depthHigher)) =
      .ok (segmentAt c.depthHigher i (src.take l)) := by
    rw [getHashes_of_le (by omega) (by omega), segmentAt, List.drop_take, List.take_take]
  rw [Cache.branchAndRootExtended, if_neg (by omega)]
  simp only [leafStart_eq, segmentLength_eq, hleaf]
  by_cases hsmall : l < 2 ^ c.depthHigher
  · have hzero : i / 2 ^ c.depthHigher = 0 := Nat.div_eq_of_lt (by omega)
    rw [if_pos hsmall, segmentAt, hzero, Nat.zero_mul, List.drop_zero, List.take_take,
      min_eq_right hsmall.le]
  · rw [if_neg hsmall, h.levelFor (by omega) hl hborder]
    exact branchAndRootFromLevel_eq hash h.depth_le (by omega) (le_branchLength (by omega))

/-- On a segment border below the cached length the query fails. -/
theorem Valid.branchAndRootExtended_border (h : c.Valid hash src) {l i : Nat} (hi : i < l)
    (hl : l < c.length) (hborder : l % 2 ^ c.depthHigher = 0) :
    c.branchAndRootExtended hash src l i = .error (.internalError outOfRangeMsg) := by
  have hsrc := h.length_le
  have hdm := Nat.div_mul_le_self i (2 ^ c.depthHigher)
  have hp : 0 < 2 ^ c.depthHigher := Nat.two_pow_pos _
  have hbig : ¬ l < 2 ^ c.depthHigher := by
    intro hlt
    rw [Nat.mod_eq_of_lt hlt] at hborder
    omega
  rw [Cache.branchAndRootExtended, if_neg (by omega)]
  simp only [leafStart_eq, segmentLength_eq]
  rw [getHashes_of_le (by omega) (by omega)]
  simp only [if_neg hbig, h.levelFor_border hl hborder]

theorem Valid.branchAndRoot (h : c.Valid hash src) (l i : Nat) :
    (c.branchAndRoot hash src l i).2.Valid hash src := by
  unfold Cache.branchAndRoot
  split_ifs with hl hi hinit
  · exact h
  · exact h
  · exact h
  · have hext := (h.extendTo (by simpa using hinit) l).1
    rcases hcase : c.extendTo hash src l with ⟨res, c'⟩
    rw [hcase] at hext
    cases res <;> exact hext

/-- A query of an initialised cache: extend it, then answer. -/
theorem branchAndRoot_of_initialized {l i : Nat} (hinit : c.initialized = true) (hi : i < l) :
    (c.branchAndRoot hash src l i).1 =
      (c.extendTo hash src l).1.bind
        fun _ => (c.extendTo hash src l).2.branchAndRootExtended hash src l i := by
  rw [Cache.branchAndRoot, if_neg (by omega), if_neg (by omega), if_neg (by simp [hinit])]
  rcases c.extendTo hash src l with ⟨res, c'⟩
  cases res <;> rfl

theorem Valid.le_of_extendTo (h : c.Valid hash src) {l : Nat}
    (hok : (c.extendTo hash src l).1 = .ok ()) : l ≤ src.length := by
  by_cases hle : l ≤ c.length
  · exact hle.trans h.length_le
  · have hstart := Nat.div_mul_le_self c.length (2 ^ c.depthHigher)
    rw [Cache.extendTo, if_neg hle] at hok
    simp only [leafStart_eq] at hok
    cases hget : getHashes src (c.length / 2 ^ c.depthHigher * 2 ^ c.depthHigher)
        (l - c.length / 2 ^ c.depthHigher * 2 ^ c.depthHigher) with
    | error e =>
        rw [hget] at hok
        cases hok
    | ok hashes =>
        obtain ⟨-, hlen, -⟩ := getHashes_ok hget
        omega

/-- An answer given is the one of the plain computation. -/
theorem Valid.branchAndRoot_ok (h : c.Valid hash src) {l i : Nat} {r : BranchAndRootPair}
    (hr : (c.branchAndRoot hash src l i).1 = .ok r) :
    i < l ∧ l ≤ src.length ∧ Merkle.branchAndRoot hash (src.take l) i none = .ok r := by
  have hi : i < l := by
    by_contra hno
    rw [Cache.branchAndRoot] at hr
    split_ifs at hr
    all_goals first | cases hr | omega
  have hinit : c.initialized = true := by
    by_contra hno
    rw [Cache.branchAndRoot, if_neg (by omega), if_neg (by omega),
      if_pos (by simpa using hno)] at hr
    cases hr
  rw [branchAndRoot_of_initialized hinit hi] at hr
  obtain ⟨hv, hdepth, hext⟩ := h.extendTo hinit l
  cases hok : (c.extendTo hash src l).1 with
  | error e =>
      rw [hok] at hr
      cases hr
  | ok u =>
      have hl := h.le_of_extendTo hok
      have hlen := (hext hl).2
      rw [hok] at hr
      change (c.extendTo hash src l).2.branchAndRootExtended hash src l i = .ok r at hr
      refine ⟨hi, hl, ?_⟩
      by_cases hborder : l = (c.extendTo hash src l).2.length ∨
          l % 2 ^ (c.extendTo hash src l).2.depthHigher ≠ 0
      · rw [hv.branchAndRootExtended hi (by omega) hborder] at hr
        exact hr
      · rw [not_or, not_not] at hborder
        rw [hv.branchAndRootExtended_border hi (by omega) hborder.2] at hr
        cases hr

/-- A query for a prefix of the store answers as the plain computation does, unless the cache
is not initialised or the length is a segment border below the cached length. -/
theorem Valid.answers_iff (h : c.Valid hash src) {l i : Nat} (hi : i < l) (hl : l ≤ src.length) :
    (∃ r, (c.branchAndRoot hash src l i).1 = .ok r ∧
        Merkle.branchAndRoot hash (src.take l) i none = .ok r) ↔
      c.initialized = true ∧ (c.length ≤ l ∨ l % c.segmentLength ≠ 0) := by
  have hlen : (src.take l).length = l := by
    rw [List.length_take, min_eq_left hl]
  have hidx : i < (src.take l).length := by omega
  obtain ⟨r, -, hplain⟩ := branchAndRoot_none hash hidx
  rw [Cache.segmentLength_eq]
  by_cases hinit : c.initialized = true
  · obtain ⟨hv', hdepth, hext⟩ := h.extendTo hinit l
    obtain ⟨hok, hlen'⟩ := hext hl
    have hrun : (c.branchAndRoot hash src l i).1 =
        (c.extendTo hash src l).2.branchAndRootExtended hash src l i := by
      rw [Cache.branchAndRoot_of_initialized hinit hi, hok]
      rfl
    by_cases hcond : c.length ≤ l ∨ l % 2 ^ c.depthHigher ≠ 0
    · have hborder : l = max l c.length ∨ l % 2 ^ c.depthHigher ≠ 0 :=
        hcond.imp (fun h => by omega) id
      rw [hrun, hv'.branchAndRootExtended hi (by omega) (by rw [hlen', hdepth]; exact hborder)]
      exact ⟨fun _ => ⟨hinit, hcond⟩, fun _ => ⟨_, hplain, hplain⟩⟩
    · rw [not_or, not_le, not_not] at hcond
      rw [hrun, hv'.branchAndRootExtended_border hi (by omega) (by rw [hdepth]; exact hcond.2)]
      constructor
      · rintro ⟨r, hr, -⟩
        cases hr
      · rintro ⟨-, h⟩
        omega
  · have herr : (c.branchAndRoot hash src l i).1 =
        .error (.internalError "branchAndRoot: Merkle cache is not initialized") := by
      rw [Cache.branchAndRoot, if_neg (by omega), if_neg (by omega), if_pos (by simpa using hinit)]
    rw [herr]
    constructor
    · rintro ⟨r, hr, -⟩
      cases hr
    · rintro ⟨h, -⟩
      exact absurd h hinit

theorem treeDepth_half_le {n : Nat} (h : n ≤ 2 ^ 32) : treeDepth n / 2 ≤ maxDepth := by
  have hlen : branchLength n ≤ 32 := by
    rcases Nat.eq_zero_or_pos n with rfl | hpos
    · simp [branchLength]
    · rw [branchLength_le_iff hpos]
      exact h
  simp only [treeDepth, maxDepth]
  omega

theorem Valid.initializeNolock (h : c.Valid hash src) (hsrc : src.length ≤ 2 ^ 32)
    (n : Nat) : (c.initializeNolock hash (src.take n)).2.Valid hash src := by
  have hlen : (src.take n).length ≤ src.length := by
    rw [List.length_take]
    omega
  by_cases hz : (src.take n).length = 0
  · simp only [Cache.initializeNolock, if_pos hz]
    exact ⟨by omega, h.depth_le, fun _ => hz, fun hne => absurd hz hne⟩
  · have hd := treeDepth_half_le (hlen.trans hsrc)
    have hne : src.take n ≠ [] := by
      intro hnil
      rw [hnil] at hz
      exact hz rfl
    simp only [Cache.initializeNolock, if_neg hz, getLevel, level_eq_ok hash hd hne]
    refine ⟨hlen, hd, by simp, fun _ => ?_⟩
    have htake : src.take (src.take n).length = src.take n := by
      rw [List.length_take]
      rcases le_total n src.length with hle | hle
      · rw [min_eq_left hle]
      · rw [min_eq_right hle, List.take_of_length_le hle, List.take_of_length_le le_rfl]
    rw [htake]

theorem Valid.initializeTo (h : c.Valid hash src) (hsrc : src.length ≤ 2 ^ 32)
    (l : Nat) : (c.initializeTo hash src l).2.Valid hash src := by
  unfold Cache.initializeTo
  cases hget : getHashes src 0 l with
  | error e => exact h
  | ok hashes =>
      obtain ⟨_, _, rfl⟩ := getHashes_ok hget
      exact h.initializeNolock hsrc l

/-- Truncation to the new length of the store, when it succeeds. -/
theorem Valid.truncate (h : c.Valid hash src) {n : Nat} {c' : Cache}
    (ht : c.truncate n = (.ok (), c')) : c'.Valid hash (src.take n) := by
  have hkeep : c.length ≤ n → c.Valid hash (src.take n) := by
    intro hle
    have hsrc := h.length_le
    refine ⟨?_, h.depth_le, h.length_zero, fun hne => ?_⟩
    · rw [List.length_take]
      omega
    · rw [h.level_eq hne, List.take_take, min_eq_left hle]
  unfold Cache.truncate at ht
  split_ifs at ht with hinit hz hle
  · cases ht
    exact hkeep (by rw [h.length_zero hinit]; omega)
  · cases ht
  · cases ht
    exact hkeep hle
  · cases ht
    have hdm := Nat.div_mul_le_self n (2 ^ c.depthHigher)
    have hp : 0 < 2 ^ c.depthHigher := Nat.two_pow_pos _
    have hsrc := h.length_le
    simp only [leafStart_eq, Nat.shiftRight_eq_div_pow, Nat.mul_div_cancel _ hp]
    refine ⟨?_, h.depth_le, fun hf => absurd hf hinit, fun _ => ?_⟩
    · change n / 2 ^ c.depthHigher * 2 ^ c.depthHigher ≤ (src.take n).length
      rw [List.length_take]
      omega
    · rw [List.take_take, min_eq_left hdm, ← h.take_level (by omega), ← List.take_take,
        List.take_length]

theorem Valid.of_prefix (h : c.Valid hash src) {src' : List Hash} (hpre : src <+: src') :
    c.Valid hash src' := by
  obtain ⟨more, rfl⟩ := hpre
  have hsrc := h.length_le
  refine ⟨?_, h.depth_le, h.length_zero, fun hne => ?_⟩
  · rw [List.length_append]
    omega
  · rw [h.level_eq hne, List.take_append_of_le_length hsrc]

end Cache

variable {hash}

theorem CacheStep.valid {s t : CacheSystem} (hst : CacheStep hash s t)
    (h : s.cache.Valid hash s.src.hashes) : t.cache.Valid hash t.src.hashes := by
  cases hst with
  | extend src' hpre => exact h.of_prefix hpre
  | shrink src' n c' hsrc ht =>
      change c'.Valid hash src'.hashes
      rw [hsrc]
      exact h.truncate ht
  | initializeTo l => exact h.initializeTo (s.src.length_le.trans (by decide)) l
  | initializeFrom n => exact h.initializeNolock (s.src.length_le.trans (by decide)) n
  | query l i => exact h.branchAndRoot l i

/-- The cached row is right in every state of every run. -/
theorem valid_of_reachable {s : CacheSystem} (hs : Reachable CacheInit (CacheStep hash) s) :
    s.cache.Valid hash s.src.hashes := by
  refine hs.invariant (I := fun s => s.cache.Valid hash s.src.hashes) ?_ ?_
  · intro s hinit
    rw [CacheInit] at hinit
    rw [hinit]
    exact ⟨by simp, by simp [maxDepth], by simp, by simp⟩
  · intro s t h hst
    exact hst.valid h

/--
In every run and for every index below a length the store has: the query
answers as the plain computation over the first `l` ids does, if and only if
the cache is initialised and `l` is not a segment border below the length the
cache holds.
-/
theorem branchAndRoot_agrees_iff {s : CacheSystem}
    (hs : Reachable CacheInit (CacheStep hash) s) {l i : Nat} (hi : i < l)
    (hl : l ≤ s.src.hashes.length) :
    (∃ r, (s.cache.branchAndRoot hash s.src.hashes l i).1 = .ok r ∧
        branchAndRoot hash (s.src.hashes.take l) i none = .ok r) ↔
      s.cache.initialized = true ∧
        (s.cache.length ≤ l ∨ l % s.cache.segmentLength ≠ 0) :=
  (valid_of_reachable hs).answers_iff hi hl

/-- Four header ids, with the cache initialised to all of them. -/
def fourIds (hash : Hash → Hash → Hash) : CacheSystem where
  src := ⟨[1, 2, 3, 4], by decide⟩
  cache := (Cache.initializeTo hash [1, 2, 3, 4] {} 4).2

theorem reachable_fourIds (hash : Hash → Hash → Hash) :
    Reachable CacheInit (CacheStep hash) (fourIds hash) := by
  have hstart : CacheInit ⟨(fourIds hash).src, {}⟩ := rfl
  exact .next (.start hstart) (.initializeTo _ 4)

theorem branchAndRoot_agrees_fourIds :
    ∃ r, ((fourIds (· + ·)).cache.branchAndRoot (· + ·) (fourIds (· + ·)).src.hashes 3 1).1 =
        .ok r ∧ branchAndRoot (· + ·) ((fourIds (· + ·)).src.hashes.take 3) 1 none = .ok r :=
  (branchAndRoot_agrees_iff (reachable_fourIds (· + ·)) (by decide) (by decide)).mpr
    ⟨by decide, .inr (by decide)⟩

/-- A query for the first two of four cached ids fails. -/
theorem branchAndRoot_border_fails :
    ¬ ∀ (hash : Hash → Hash → Hash) (s : CacheSystem),
        Reachable CacheInit (CacheStep hash) s → s.cache.initialized = true →
        ∀ l i, i < l → l ≤ s.src.hashes.length →
          ∃ r, (s.cache.branchAndRoot hash s.src.hashes l i).1 = .ok r ∧
            branchAndRoot hash (s.src.hashes.take l) i none = .ok r := by
  intro h
  obtain ⟨r, hr, -⟩ := h (· + ·) (fourIds (· + ·)) (reachable_fourIds _) (by decide) 2 0
    (by decide) (by decide)
  have hfail : ((fourIds (· + ·)).cache.branchAndRoot (· + ·) (fourIds (· + ·)).src.hashes 2 0).1 =
      .error (.internalError outOfRangeMsg) := by decide
  rw [hfail] at hr
  cases hr

end Merkle
end Shulcrum
