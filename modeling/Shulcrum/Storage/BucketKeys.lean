import Shulcrum.Storage.DBRecordArrayRun
import Shulcrum.VarIntSpan

/-!
# The buckets that keys select

The rows of a record array are ordered by the bytes of their keys.  As the
big-endian encodings are ordered as the bucket numbers, an iterator that seeks
a bucket visits that bucket and the later ones, and a deletion from a bucket's
key on removes that bucket and the later ones.

**Results.**
* `mem_keysFrom_makeKey`, `get_deleteRange_makeKey`: seeks and deletions.
* `get_truncate`: the rows after a cut.
* `seekToFirstBucket_eq`: the walk over the buckets of a table that holds a
  list.
-/

namespace Shulcrum
namespace Storage
namespace DBRecordArray

open KeyValue TreeMap

/-- `DBRecordArray::seekToFirstBucket`, and the keys that its iterator visits. -/
def seekToFirstBucket (cf : ColumnFamily) : List Bytes := keysFrom cf (makeKey 0)

/-- `DBRecordArray::bucketNumFromDbKey`. -/
def bucketNumFromDbKey (key : Bytes) : Except String Nat :=
  match VarInt.fromBytes key with
  | .error e => .error ("bucketNumFromDbKey: error in parsing db key (" ++ toHex key ++ "): " ++ e)
  | .ok v =>
      match VarInt.value true v with
      | .error e =>
          .error ("bucketNumFromDbKey: error in parsing db key (" ++ toHex key ++ "): " ++ e)
      | .ok num => .ok num

section Keys

variable {cf : ColumnFamily} {first b : Nat}

/-- The number of a bucket is read back from its key. -/
theorem bucketNumFromDbKey_makeKey (hb : b < 2 ^ 64) :
    bucketNumFromDbKey (makeKey b) = .ok b := by
  unfold bucketNumFromDbKey makeKey
  simp only [VarInt.fromBytes_encode true hb, VarInt.value_encode true hb]

/-- Keys are ordered as the bucket numbers. -/
theorem compare_makeKey {c : Nat} (hb : b < 2 ^ 64) (hc : c < 2 ^ 64) :
    compare (makeKey b) (makeKey c) = compare b c := by
  rcases Nat.lt_trichotomy b c with h | h | h
  · rw [makeKey_lt h hc, Nat.compare_eq_lt.mpr h]
  · rw [h, VarInt.compare_bytes_self, Nat.compare_eq_eq.mpr rfl]
  · rw [Std.OrientedCmp.gt_of_lt (makeKey_lt h hb), Nat.compare_eq_gt.mpr h]

/-- A seek visits the bucket and the later ones. -/
theorem mem_keysFrom_makeKey (hfirst : first < 2 ^ 64) (hb : b < 2 ^ 64) :
    makeKey b ∈ keysFrom cf (makeKey first) ↔ makeKey b ∈ cf ∧ first ≤ b := by
  rw [mem_keysFrom, compare_makeKey hb hfirst, Ne, Nat.compare_eq_lt, Nat.not_lt]

/-- No seek of a bucket visits the metadata. -/
theorem metaDataKey_not_mem_keysFrom : kMetaDataKey ∉ keysFrom cf (makeKey first) := by
  rw [mem_keysFrom]
  exact fun h => h.2 (nil_lt_makeKey first)

/-- A deletion from a bucket on removes the bucket and the later ones. -/
theorem get_deleteRange_makeKey (hfirst : first < 2 ^ 64) (hb : b < 2 ^ 64) :
    (apply cf (.deleteRange (makeKey first) pastTheEndKey))[makeKey b]? =
      if first ≤ b then none else cf[makeKey b]? := by
  rw [get_deleteRange]
  refine if_congr ?_ rfl rfl
  rw [isLE_makeKey hfirst hb]
  exact and_iff_left (makeKey_lt_pastTheEnd hb)

/-- A deletion of buckets leaves the metadata. -/
theorem get_deleteRange_meta :
    (apply cf (.deleteRange (makeKey first) pastTheEndKey))[kMetaDataKey]? =
      cf[kMetaDataKey]? := by
  have hgt : compare (makeKey first) kMetaDataKey = .gt :=
    Std.OrientedCmp.gt_of_lt (nil_lt_makeKey first)
  have hlow : ¬ (compare (makeKey first) kMetaDataKey).isLE := by
    rw [hgt]
    exact Bool.false_ne_true
  rw [get_deleteRange, if_neg fun h => hlow h.1]

end Keys

section Cuts

variable {d : DBRecordArray} {cf : ColumnFamily}

/-- What a cut to `n` records leaves of the row of a bucket. -/
def rowAfterCut (d : DBRecordArray) (n b : Nat) (row : Option Bytes) : Option Bytes :=
  if n ≤ b * d.bucketNRecs then none
  else if (b + 1) * d.bucketNRecs ≤ n then row
  else row.map (·.take (d.recSz * (n - b * d.bucketNRecs)))

theorem rowAfterCut_of_lt (hd : Sized d) {n b : Nat} (h : b < n / d.bucketNRecs)
    (row : Option Bytes) : d.rowAfterCut n b row = row := by
  have hpos := hd.bucketNRecs_pos
  have hle : (b + 1) * d.bucketNRecs ≤ n :=
    (Nat.le_div_iff_mul_le hpos).mp (Nat.succ_le_of_lt h)
  have hlt : b * d.bucketNRecs < (b + 1) * d.bucketNRecs := by
    rw [Nat.succ_mul]
    omega
  rw [rowAfterCut, if_neg (by omega), if_pos hle]

theorem rowAfterCut_of_gt (hd : Sized d) {n b : Nat} (h : n / d.bucketNRecs < b)
    (row : Option Bytes) : d.rowAfterCut n b row = none := by
  have hlt : n < b * d.bucketNRecs := (Nat.div_lt_iff_lt_mul hd.bucketNRecs_pos).mp h
  rw [rowAfterCut, if_pos hlt.le]

/-- The bucket that the cut falls into. -/
theorem rowAfterCut_self (hd : Sized d) (n : Nat) (row : Option Bytes) :
    d.rowAfterCut n (n / d.bucketNRecs) row =
      if n % d.bucketNRecs = 0 then none
      else row.map (·.take (d.recSz * (n % d.bucketNRecs))) := by
  have hsplit : n / d.bucketNRecs * d.bucketNRecs + n % d.bucketNRecs = n :=
    Nat.div_add_mod' n _
  have hnext : n < (n / d.bucketNRecs + 1) * d.bucketNRecs := by
    have hmod := Nat.mod_lt n hd.bucketNRecs_pos
    rw [Nat.succ_mul]
    omega
  have hrest : n - n / d.bucketNRecs * d.bucketNRecs = n % d.bucketNRecs := by omega
  unfold rowAfterCut
  rw [hrest, if_neg (Nat.not_le.mpr hnext)]
  refine if_congr ?_ rfl rfl
  omega

/-- `truncate` rewrites the bucket it falls into and removes the buckets after it. -/
theorem get_truncate (hd : Sized d) {n : Nat} (hn : n < d.nRecs) (hfits : d.nRecs < 2 ^ 64)
    {c : BatchWriteContext} (hc : d.beginBatchWrite.truncate cf n = (none, c)) {b : Nat}
    (hb : b < 2 ^ 64) :
    (write cf c.batch)[makeKey b]? = d.rowAfterCut n b cf[makeKey b]? := by
  have hdiv : n / d.bucketNRecs ≤ n := Nat.div_le_self _ _
  have hself := rowAfterCut_self hd n cf[makeKey (n / d.bucketNRecs)]?
  unfold BatchWriteContext.truncate beginBatchWrite at hc
  simp only [List.nil_append, if_pos hn, hd.bucketNum_eq, hd.offset_eq] at hc
  split_ifs at hc with hoff
  · -- the cut falls inside a bucket, which is rewritten
    have hinner : n % d.bucketNRecs ≠ 0 := (Nat.pos_of_mul_pos_left hoff).ne'
    rw [if_neg hinner] at hself
    cases hrow : cf[makeKey (n / d.bucketNRecs)]? with
    | none => simp [hrow] at hc
    | some val =>
        simp only [hrow] at hc
        split_ifs at hc with hlen
        · simp at hc
        · obtain ⟨-, rfl⟩ := Prod.mk.inj hc
          have hwrite : write cf [.put (makeKey (n / d.bucketNRecs))
                (val.take (d.recSz * (n % d.bucketNRecs))),
              .deleteRange (makeKey (n / d.bucketNRecs + 1)) pastTheEndKey] =
              apply (apply cf (.put (makeKey (n / d.bucketNRecs))
                (val.take (d.recSz * (n % d.bucketNRecs)))))
                (.deleteRange (makeKey (n / d.bucketNRecs + 1)) pastTheEndKey) := rfl
          have hkey : makeKey (n / d.bucketNRecs) = makeKey b ↔ n / d.bucketNRecs = b :=
            makeKey_injective (by omega) hb
          rw [hwrite, get_deleteRange_makeKey (by omega) hb, get_put, if_congr hkey rfl rfl]
          rcases Nat.lt_trichotomy b (n / d.bucketNRecs) with h | h | h
          · rw [rowAfterCut_of_lt hd h, if_neg (by omega), if_neg (by omega)]
          · subst h
            rw [hself, hrow, if_neg (by omega), if_pos rfl]
            rfl
          · rw [rowAfterCut_of_gt hd h, if_pos (by omega)]
  · have hzero : n % d.bucketNRecs = 0 := by
      by_contra hne
      exact hoff (Nat.mul_pos hd.recSz_pos (Nat.pos_of_ne_zero hne))
    rw [if_pos hzero] at hself
    obtain ⟨-, rfl⟩ := Prod.mk.inj hc
    rw [write_singleton, get_deleteRange_makeKey (by omega) hb]
    rcases Nat.lt_trichotomy b (n / d.bucketNRecs) with h | h | h
    · rw [rowAfterCut_of_lt hd h, if_neg (by omega)]
    · subst h
      rw [hself, if_pos (Nat.le_refl _)]
    · rw [rowAfterCut_of_gt hd h, if_pos (by omega)]

end Cuts

section Walk

variable {d : DBRecordArray} {cf : ColumnFamily} {l : List Bytes}

/-- The number of buckets that the check of the database expects. -/
def expectedNBuckets (d : DBRecordArray) (txNumNext : Nat) : Nat :=
  if txNumNext ≠ 0 then (txNumNext + d.bucketNRecs - 1) / d.bucketNRecs else 0

theorem lt_expectedNBuckets_iff (hd : Sized d) {n b : Nat} :
    b < d.expectedNBuckets n ↔ b * d.bucketNRecs < n := by
  have hpos := hd.bucketNRecs_pos
  unfold expectedNBuckets
  split_ifs with hn
  · rw [Nat.lt_iff_add_one_le, Nat.le_div_iff_mul_le hpos, Nat.succ_mul]
    omega
  · omega

/-- The walk from the first bucket on visits the buckets of the list in order. -/
theorem seekToFirstBucket_eq (h : Buckets d cf l) :
    seekToFirstBucket cf = (List.range (d.expectedNBuckets l.length)).map makeKey := by
  have hfits := h.fits
  have hpos := h.sized.bucketNRecs_pos
  have hlast : ∀ b, b < d.expectedNBuckets l.length → b < 2 ^ 64 := by
    intro b hb
    have hlt := (lt_expectedNBuckets_iff h.sized).mp hb
    have hle := Nat.le_mul_of_pos_right b hpos
    omega
  have hsorted : ((List.range (d.expectedNBuckets l.length)).map makeKey).Pairwise
      fun a b => compare a b = .lt := by
    rw [List.pairwise_map]
    refine List.pairwise_lt_range.imp_of_mem fun _ hc hbc => ?_
    exact makeKey_lt hbc (hlast _ (List.mem_range.mp hc))
  unfold seekToFirstBucket
  refine List.Perm.eq_of_pairwise ?_ pairwise_keysFrom hsorted ?_
  · intro a b _ _ hab hba
    rw [Std.OrientedCmp.gt_of_lt hab] at hba
    cases hba
  · have hne : ∀ {a b : Bytes}, compare a b = .lt → a ≠ b := by
      rintro a b hab rfl
      rw [VarInt.compare_bytes_self] at hab
      cases hab
    rw [List.perm_ext_iff_of_nodup (pairwise_keysFrom.imp hne) (hsorted.imp hne)]
    intro k
    constructor
    · intro hk
      rcases h.keys k (mem_keysFrom.mp hk).1 with rfl | ⟨b, hb, rfl⟩
      · exact absurd hk metaDataKey_not_mem_keysFrom
      · have hmem := ((mem_keysFrom_makeKey (by omega) hb).mp hk).1
        rw [h.mem_makeKey_iff hb, ← lt_expectedNBuckets_iff h.sized] at hmem
        exact List.mem_map_of_mem (List.mem_range.mpr hmem)
    · intro hk
      obtain ⟨b, hb, rfl⟩ := List.mem_map.mp hk
      have hb' := List.mem_range.mp hb
      refine (mem_keysFrom_makeKey (by omega) (hlast b hb')).mpr ⟨?_, Nat.zero_le b⟩
      rw [h.mem_makeKey_iff (hlast b hb'), ← lt_expectedNBuckets_iff h.sized]
      exact hb'

/-- The walk reads the bucket numbers in order, without an error. -/
theorem bucketNums_eq (h : Buckets d cf l) :
    (seekToFirstBucket cf).map bucketNumFromDbKey =
      (List.range (d.expectedNBuckets l.length)).map .ok := by
  have hfits := h.fits
  rw [seekToFirstBucket_eq h, List.map_map]
  refine List.map_congr_left fun b hb => ?_
  have hlt := (lt_expectedNBuckets_iff h.sized).mp (List.mem_range.mp hb)
  have hle := Nat.le_mul_of_pos_right b h.sized.bucketNRecs_pos
  exact bucketNumFromDbKey_makeKey (by omega)

end Walk

section Selection

/-- A concatenation of encodings comes back exactly when an `int` holds its size.  A number of 64
bits comes back from its encoding, and the big-endian encodings are ordered as the numbers, so that
seeks, deletions and cuts select the buckets they mean. -/
theorem varInt_exact (useBE : Bool) (vs : List UInt64) (u v : UInt64) (cf : ColumnFamily)
    (first b : UInt64) :
    (VarInt.readAll useBE (VarInt.encodeAll useBE vs) = .ok (vs.map UInt64.toNat) ↔
      (VarInt.encodeAll useBE vs).length < 2 ^ 31) ∧
    (VarInt.deserializeSpan (VarInt.encode useBE v.toNat) =
        .ok (VarInt.encode useBE v.toNat, []) ∧
      VarInt.value useBE (VarInt.encode useBE v.toNat) = .ok v.toNat) ∧
    compare (VarInt.encode true u.toNat) (VarInt.encode true v.toNat) =
      compare u.toNat v.toNat ∧
    ((makeKey b.toNat ∈ keysFrom cf (makeKey first.toNat) ↔
        makeKey b.toNat ∈ cf ∧ first ≤ b) ∧
      kMetaDataKey ∉ keysFrom cf (makeKey first.toNat)) ∧
    ((apply cf (.deleteRange (makeKey first.toNat) pastTheEndKey))[makeKey b.toNat]? =
        (if first ≤ b then none else cf[makeKey b.toNat]?) ∧
      (apply cf (.deleteRange (makeKey first.toNat) pastTheEndKey))[kMetaDataKey]? =
        cf[kMetaDataKey]?) ∧
    (∀ (d : DBRecordArray) (l : List Bytes), Buckets d cf l →
      (seekToFirstBucket cf).map bucketNumFromDbKey =
        (List.range (d.expectedNBuckets l.length)).map .ok) ∧
    (∀ (d : DBRecordArray) (n : UInt64) (c : BatchWriteContext),
      Sized d → d.nRecs < 2 ^ 64 → n.toNat < d.nRecs →
        d.beginBatchWrite.truncate cf n.toNat = (none, c) →
        (write cf c.batch)[makeKey b.toNat]? =
          d.rowAfterCut n.toNat b.toNat cf[makeKey b.toNat]?) := by
  have hle : first.toNat ≤ b.toNat ↔ first ≤ b := UInt64.le_iff_toNat_le.symm
  refine ⟨VarInt.readAll_encodeAll_iff, ?_, compare_makeKey u.toNat_lt v.toNat_lt, ?_, ?_, ?_, ?_⟩
  · exact ⟨VarInt.deserializeSpan_encode useBE v.toNat_lt, VarInt.value_encode useBE v.toNat_lt⟩
  · refine ⟨?_, metaDataKey_not_mem_keysFrom⟩
    exact (mem_keysFrom_makeKey first.toNat_lt b.toNat_lt).trans (and_congr_right fun _ => hle)
  · refine ⟨?_, get_deleteRange_meta⟩
    exact (get_deleteRange_makeKey first.toNat_lt b.toNat_lt).trans (if_congr hle rfl rfl)
  · intro d l h
    exact bucketNums_eq h
  · intro d n c hd hfits hn hc
    exact get_truncate hd hn hfits hc b.toNat_lt

/-- An array of three records, two in a bucket, and its cut after the first bucket. -/
theorem varInt_exact_small :
    VarInt.readAll true (VarInt.encodeAll true [247, 248, 65536]) = .ok [247, 248, 65536] ∧
      ∃ (d : DBRecordArray) (cf : ColumnFamily) (c : BatchWriteContext),
        cf = write ∅ [.put (makeKey 0) [1, 2], .put (makeKey 1) [3]] ∧
        d.beginBatchWrite.truncate cf 2 = (none, c) ∧
        (write cf c.batch)[makeKey 1]? = none := by
  obtain ⟨hread, -, -, -, -, -, hcut⟩ := varInt_exact true [247, 248, 65536] 0 0
    (write ∅ [.put (makeKey 0) [1, 2], .put (makeKey 1) [3]]) 0 1
  refine ⟨hread.mpr (by decide), ?_⟩
  let d : DBRecordArray := {
    name := "headers"
    recSz := 1
    magic := 7
    bucketNRecs := 2
    bucketShiftAmt := 1
    nRecs := 3 }
  have hsized : Sized d := ⟨by decide, rfl, by decide⟩
  refine ⟨d, _, _, rfl, rfl, ?_⟩
  exact hcut d 2 _ hsized (by decide) (by decide) rfl

/-- Two gibibytes of zeroes, each the encoding of a zero, look like an empty string. -/
theorem not_readAll_zeros :
    ¬ ∀ (useBE : Bool) (vs : List UInt64),
      VarInt.readAll useBE (VarInt.encodeAll useBE vs) = .ok (vs.map UInt64.toNat) := by
  intro h
  have hshort := VarInt.readAll_encodeAll_iff.mp (h false (List.replicate (2 ^ 31) 0))
  rw [VarInt.length_encodeAll_zeros] at hshort
  exact absurd hshort (Nat.lt_irrefl _)

end Selection

end DBRecordArray
end Storage
end Shulcrum
