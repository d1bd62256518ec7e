import Shulcrum.Storage.DBRecordArrayReads

/-!
# Writes and reopenings of a record array

Every committed batch takes the table of a list to the table of the new list,
and a table that holds a list can be opened again.  So after every run the
reads of the array are the reads of a list.

**Results.**
* `Buckets.merge`, `Buckets.cut`: the two kinds of writes.
* `Holds.commit`, `Holds.reopen`: the two kinds of steps.
* `recordArray_refines_list`: whole runs.
-/

namespace Shulcrum
namespace Storage
namespace DBRecordArray

open BTC Chunks KeyValue TreeMap

section Keys

theorem makeKey_ne_nil (b : Nat) : makeKey b ≠ [] := by
  unfold makeKey VarInt.encode
  split_ifs
  · simp
  · intro h
    have hlen := congrArg List.length h
    rw [VarInt.length_payload] at hlen
    have := VarInt.numBytes_pos b
    simp at hlen
    omega

theorem makeKey_injective {b c : Nat} (hb : b < 2 ^ 64) (hc : c < 2 ^ 64) :
    makeKey b = makeKey c ↔ b = c :=
  ⟨VarInt.encode_injective hb hc, congrArg makeKey⟩

theorem makeKey_lt {b c : Nat} (h : b < c) (hc : c < 2 ^ 64) :
    compare (makeKey b) (makeKey c) = .lt :=
  VarInt.encode_lt h hc

/-- The keys from a bucket on. -/
theorem isLE_makeKey {b c : Nat} (hb : b < 2 ^ 64) (hc : c < 2 ^ 64) :
    (compare (makeKey b) (makeKey c)).isLE ↔ b ≤ c := by
  rcases Nat.lt_trichotomy b c with h | h | h
  · simp [makeKey_lt h hc, h.le]
  · simp [h, Std.ReflCmp.compare_self]
  · have hgt : compare (makeKey b) (makeKey c) = .gt :=
      Std.OrientedCmp.gt_of_lt (makeKey_lt h hb)
    simp [hgt]
    omega

theorem nil_lt_makeKey (b : Nat) : compare ([] : Bytes) (makeKey b) = .lt := by
  cases h : makeKey b with
  | nil => exact absurd h (makeKey_ne_nil b)
  | cons x k => rfl

theorem length_makeKey_le {b : Nat} (hb : b < 2 ^ 64) : (makeKey b).length ≤ 9 := by
  have hle : VarInt.numBytes b ≤ 8 := VarInt.numBytes_le (by omega) (by omega)
  unfold makeKey VarInt.encode
  split_ifs
  · simp only [List.length_cons, VarInt.length_payload]
    omega
  · rw [VarInt.length_payload]
    omega

/-- A string of bytes is below a longer string of `0xff`. -/
theorem lt_replicate {x : Bytes} {n : Nat} (h : x.length < n) :
    compare x (List.replicate n 0xff) = .lt := by
  induction x generalizing n with
  | nil =>
      cases n with
      | zero => simp at h
      | succ n => rfl
  | cons a x ih =>
      cases n with
      | zero => simp at h
      | succ n =>
          have hrest : compare x (List.replicate n 0xff) = .lt := ih (by simpa using h)
          rw [List.replicate_succ, VarInt.compare_cons, hrest]
          by_cases ha : a = 0xff
          · rw [ha, VarInt.compare_byte_self]
            rfl
          · have hlt : a.toNat < (0xff : UInt8).toNat := by
              have h1 := a.toNat_lt
              have h2 : a.toNat ≠ 255 := fun he => ha (UInt8.toNat_inj.mp he)
              change a.toNat < 255
              omega
            rw [VarInt.compare_byte_lt hlt]
            rfl

theorem makeKey_lt_pastTheEnd {b : Nat} (hb : b < 2 ^ 64) :
    compare (makeKey b) pastTheEndKey = .lt :=
  lt_replicate (by have := length_makeKey_le hb; omega)

end Keys

section Writes

variable {d : DBRecordArray} {cf : ColumnFamily} {l : List Bytes}

/-- Appending a record merges it into the last bucket. -/
theorem Buckets.merge (h : Buckets d cf l) {r : Bytes} (hr : r.length = d.recSz)
    (hfits : l.length + 1 < 2 ^ 64) :
    Buckets { d with nRecs := d.nRecs + 1 }
      (apply cf (.merge (makeKey (l.length / d.bucketNRecs)) r)) (l ++ [r]) := by
  have hpos := h.sized.bucketNRecs_pos
  have hb : l.length / d.bucketNRecs < 2 ^ 64 :=
    lt_of_le_of_lt (Nat.div_le_self _ _) (by omega)
  constructor
  · exact ⟨h.sized.recSz_pos, h.sized.bucketNRecs_eq, h.sized.small⟩
  · intro r' hr'
    rcases List.mem_append.mp hr' with hr' | hr'
    · exact h.records r' hr'
    · rw [List.mem_singleton.mp hr']
      exact hr
  · simp [h.nRecs_eq]
  · simpa using hfits
  · intro b hb'
    rw [get_merge, h.get b hb']
    simp only [chunk_concat hpos, makeKey_injective hb hb']
    by_cases hbb : l.length / d.bucketNRecs = b
    · subst hbb
      by_cases hnil : chunk d.bucketNRecs l (l.length / d.bucketNRecs) = []
      · simp [hnil]
      · simp [hnil]
    · simp [hbb, Ne.symm hbb]
  · intro k hk
    obtain ⟨v, hv⟩ := mem_iff_getElem?.mp hk
    rw [get_merge] at hv
    split_ifs at hv with hkey
    · exact Or.inr ⟨_, hb, hkey.symm⟩
    · exact h.keys k (mem_iff_getElem?.mpr ⟨v, hv⟩)

/-- A cut deletes the buckets from `first` on, after the bucket before was rewritten. -/
theorem Buckets.deleteRange (h : Buckets d cf l) {n first : Nat} (cf' : ColumnFamily)
    (hn : n ≤ l.length) (hfirst : first < 2 ^ 64)
    (hget : ∀ b, b < first → cf'[makeKey b]? =
      if chunk d.bucketNRecs (l.take n) b = [] then none
      else some (chunk d.bucketNRecs (l.take n) b).flatten)
    (hpast : ∀ b, first ≤ b → chunk d.bucketNRecs (l.take n) b = [])
    (hkeys : ∀ k ∈ cf', k = kMetaDataKey ∨ ∃ b, b < 2 ^ 64 ∧ k = makeKey b) :
    Buckets { d with nRecs := n } (apply cf' (.deleteRange (makeKey first) pastTheEndKey))
      (l.take n) := by
  constructor
  · exact ⟨h.sized.recSz_pos, h.sized.bucketNRecs_eq, h.sized.small⟩
  · intro r hr
    exact h.records r (List.mem_of_mem_take hr)
  · simp [hn]
  · have := h.fits
    rw [List.length_take]
    omega
  · intro b hb
    have hcmp := isLE_makeKey hfirst hb
    rw [get_deleteRange]
    by_cases hle : first ≤ b
    · rw [if_pos ⟨hcmp.mpr hle, makeKey_lt_pastTheEnd hb⟩, if_pos (hpast b hle)]
    · rw [if_neg fun hc => hle (hcmp.mp hc.1)]
      exact hget b (by omega)
  · intro k hk
    obtain ⟨v, hv⟩ := mem_iff_getElem?.mp hk
    rw [get_deleteRange] at hv
    split_ifs at hv
    exact hkeys k (mem_iff_getElem?.mpr ⟨v, hv⟩)

/-- What the chunks of a cut list are, as the table holds them. -/
theorem Buckets.get_take (h : Buckets d cf l) {n b : Nat} (hb : b < n / d.bucketNRecs)
    (hlt : b < 2 ^ 64) :
    cf[makeKey b]? = if chunk d.bucketNRecs (l.take n) b = [] then none
      else some (chunk d.bucketNRecs (l.take n) b).flatten := by
  rw [h.get b hlt, chunk_take h.sized.bucketNRecs_pos, if_pos hb]

/-- `truncate` cuts the list, without an error. -/
theorem Buckets.truncate (h : Buckets d cf l) (n : Nat) :
    ∃ c : BatchWriteContext, d.beginBatchWrite.truncate cf n = (none, c) ∧
      Buckets c.d (write cf c.batch) (l.take n) ∧ c.lastWrite = none ∧
      c.d = { d with nRecs := c.d.nRecs } ∧
      (c.dirty = false → c.batch = [] ∧ c.d = d) := by
  have hpos := h.sized.bucketNRecs_pos
  have hfits := h.fits
  unfold BatchWriteContext.truncate beginBatchWrite
  simp only [h.nRecs_eq, List.nil_append]
  by_cases hn : n < l.length
  · have hdiv : n / d.bucketNRecs ≤ n := Nat.div_le_self _ _
    have hsplit : n / d.bucketNRecs * d.bucketNRecs + n % d.bucketNRecs = n :=
      Nat.div_add_mod' n _
    have hmod := Nat.mod_lt n hpos
    rw [if_pos hn, h.sized.offset_eq, h.sized.bucketNum_eq]
    by_cases hoff : d.recSz * (n % d.bucketNRecs) > 0
    · -- the cut falls inside a bucket, which is rewritten
      have hinner : 0 < n % d.bucketNRecs := Nat.pos_of_mul_pos_left hoff
      have hbucket := h.get_bucket hn
      have hlen := length_flatten_of_length (h.chunk_records (n / d.bucketNRecs))
      have hlong : ¬ (chunk d.bucketNRecs l (n / d.bucketNRecs)).flatten.length ≤
          d.recSz * (n % d.bucketNRecs) := by
        have hfit := h.slice_fits hn
        have := h.sized.recSz_pos
        omega
      have hval : (chunk d.bucketNRecs l (n / d.bucketNRecs)).flatten.take
          (d.recSz * (n % d.bucketNRecs)) =
          (chunk d.bucketNRecs (l.take n) (n / d.bucketNRecs)).flatten := by
        rw [chunk_take hpos, if_neg (by omega), if_pos rfl, take_flatten (h.chunk_records _)]
      simp only [hbucket, if_pos hoff, if_neg hlong, hval]
      refine ⟨_, rfl, ?_, rfl, rfl, fun hc => by cases hc⟩
      have hsmall : n / d.bucketNRecs + 1 < 2 ^ 64 := by
        have hle : n / d.bucketNRecs * 1 ≤ n / d.bucketNRecs * d.bucketNRecs :=
          Nat.mul_le_mul_left _ hpos
        omega
      refine h.deleteRange (apply cf (.put (makeKey (n / d.bucketNRecs)) _)) hn.le hsmall
        ?_ ?_ ?_
      · intro b hb
        rw [get_put]
        by_cases hbb : n / d.bucketNRecs = b
        · subst hbb
          have hne : chunk d.bucketNRecs (l.take n) (n / d.bucketNRecs) ≠ [] := by
            rw [Ne, chunk_eq_nil_iff hpos, List.length_take]
            omega
          rw [if_pos rfl, if_neg hne]
        · rw [if_neg (fun he => hbb ((makeKey_injective (by omega) (by omega)).mp he))]
          exact h.get_take (by omega) (by omega)
      · intro b hb
        rw [chunk_take hpos, if_neg (by omega), if_neg (by omega)]
      · intro k hk
        obtain ⟨v, hv⟩ := mem_iff_getElem?.mp hk
        rw [get_put] at hv
        split_ifs at hv with hkey
        · exact Or.inr ⟨_, by omega, hkey.symm⟩
        · exact h.keys k (mem_iff_getElem?.mpr ⟨v, hv⟩)
    · have hzero : n % d.bucketNRecs = 0 := by
        by_contra hne
        exact hoff (Nat.mul_pos h.sized.recSz_pos (Nat.pos_of_ne_zero hne))
      simp only [if_neg hoff]
      refine ⟨_, rfl, ?_, rfl, rfl, fun hc => by cases hc⟩
      refine h.deleteRange cf hn.le (by omega) ?_ ?_ h.keys
      · intro b hb
        exact h.get_take hb (by omega)
      · intro b hb
        rw [chunk_take hpos, if_neg (by omega)]
        split_ifs
        · rw [hzero, List.take_zero]
        · rfl
  · rw [if_neg hn]
    refine ⟨_, rfl, ?_, rfl, rfl, fun _ => ⟨rfl, rfl⟩⟩
    rw [List.take_of_length_le (by omega)]
    exact h

/-! ## A batch in the making -/

/-- The context of a batch that takes the table of `d` to the list `l`. -/
structure Pending (d : DBRecordArray) (cf : ColumnFamily) (c : BatchWriteContext)
    (l : List Bytes) : Prop where
  buckets : Buckets c.d (write cf c.batch) l
  key_eq : ∀ num key, c.lastWrite = some (num, key) → key = makeKey num
  same : c.d = { d with nRecs := c.d.nRecs }
  clean : c.dirty = false → c.batch = [] ∧ c.d = d

theorem Buckets.pending (h : Buckets d cf l) : Pending d cf d.beginBatchWrite l := by
  constructor
  · exact h
  · intro num key hk
    cases hk
  · rfl
  · exact fun _ => ⟨rfl, rfl⟩

theorem Buckets.pending_truncate (h : Buckets d cf l) (n : Nat) :
    Pending d cf (d.beginBatchWrite.truncate cf n).2 (l.take n) := by
  obtain ⟨c, hc, hbuckets, hlast, hsame, hclean⟩ := h.truncate n
  rw [hc]
  refine ⟨hbuckets, ?_, hsame, hclean⟩
  intro num key hk
  rw [hlast] at hk
  cases hk

theorem append_fst {c : BatchWriteContext} {r : Bytes} (hr : r.length = c.d.recSz) :
    (c.append r).1 = none := by
  unfold BatchWriteContext.append
  rw [if_neg (not_not.mpr hr)]

theorem Pending.bucketKey_eq {c : BatchWriteContext} (h : Pending d cf c l) (b : Nat) :
    c.bucketKey b = makeKey b := by
  unfold BatchWriteContext.bucketKey
  cases hlast : c.lastWrite with
  | none => rfl
  | some w =>
      obtain ⟨num, key⟩ := w
      dsimp only
      split_ifs with hnum
      · rfl
      · rw [h.key_eq num key hlast, not_not.mp hnum]

/-- One call of `append`: a record of the wrong size is refused. -/
theorem Pending.append {c : BatchWriteContext} (h : Pending d cf c l) (r : Bytes)
    (hfits : (l ++ [r].filter (·.length == d.recSz)).length < 2 ^ 64) :
    Pending d cf (c.append r).2 (l ++ [r].filter (·.length == d.recSz)) := by
  have hrec : c.d.recSz = d.recSz := by rw [h.same]
  unfold BatchWriteContext.append
  by_cases hr : r.length = d.recSz
  · have hkey : c.bucketKey (c.d.recordNumToBucketNum c.d.nRecs) =
        makeKey (l.length / c.d.bucketNRecs) := by
      rw [h.bucketKey_eq, h.buckets.sized.bucketNum_eq, h.buckets.nRecs_eq]
    have hr' : r.length = c.d.recSz := by rw [hrec, hr]
    have hlist : [r].filter (·.length == d.recSz) = [r] := by simp [hr]
    rw [hlist] at hfits ⊢
    simp only [if_neg (not_not.mpr hr'), hkey]
    refine ⟨?_, ?_, ?_, fun hc => by cases hc⟩
    · rw [write_append]
      exact h.buckets.merge hr' (by simpa using hfits)
    · intro num key hk
      simp only [Option.some.injEq, Prod.mk.injEq] at hk
      obtain ⟨rfl, rfl⟩ := hk
      rw [h.buckets.sized.bucketNum_eq, h.buckets.nRecs_eq]
    · rw [h.same]
  · have hlist : [r].filter (·.length == d.recSz) = [] := by simp [hr]
    rw [if_pos (by rw [hrec]; exact hr), hlist, List.append_nil]
    exact h

/-- A run of calls of `append`. -/
theorem Pending.appends {c : BatchWriteContext} (h : Pending d cf c l) (recs : List Bytes)
    (hfits : (l ++ recs.filter (·.length == d.recSz)).length < 2 ^ 64) :
    Pending d cf (recs.foldl (fun c r => (c.append r).2) c)
      (l ++ recs.filter (·.length == d.recSz)) := by
  induction recs generalizing c l with
  | nil => simpa using h
  | cons r recs ih =>
      have hsplit : l ++ (r :: recs).filter (·.length == d.recSz) =
          l ++ [r].filter (·.length == d.recSz) ++ recs.filter (·.length == d.recSz) := by
        rw [List.append_assoc, ← List.filter_append]
        rfl
      rw [hsplit] at hfits ⊢
      rw [List.foldl_cons]
      refine ih (h.append r ?_) hfits
      rw [List.length_append] at hfits
      omega

/-! ## Steps -/

/-- The table holds the list and its metadata. -/
structure Holds (d : DBRecordArray) (cf : ColumnFamily) (l : List Bytes) : Prop where
  buckets : Buckets d cf l
  metaRow : cf[kMetaDataKey]? = some d.metaData.toBytes

/-- The context of a batch after at most one cut and the appends. -/
def batchContext (d : DBRecordArray) (cf : ColumnFamily) (cut : Option Nat) (recs : List Bytes) :
    BatchWriteContext :=
  recs.foldl (fun c r => (c.append r).2)
    (cut.elim d.beginBatchWrite fun n => (d.beginBatchWrite.truncate cf n).2)

/-- The batch is committed to the table. -/
def commit (d : DBRecordArray) (cf : ColumnFamily) (cut : Option Nat) (recs : List Bytes) :
    DBRecordArray × ColumnFamily :=
  ((d.batchContext cf cut recs).d, write cf (d.batchContext cf cut recs).finish)

/-- What a batch does to the list: records of the wrong size are refused. -/
def commitList (recSz : Nat) (l : List Bytes) (cut : Option Nat) (recs : List Bytes) :
    List Bytes :=
  cut.elim l (l.take ·) ++ recs.filter (·.length == recSz)

/-- The metadata row does not touch the buckets. -/
theorem Buckets.putMeta (h : Buckets d cf l) (value : Bytes) :
    Buckets d (apply cf (.put kMetaDataKey value)) l := by
  refine ⟨h.sized, h.records, h.nRecs_eq, h.fits, ?_, ?_⟩
  · intro b hb
    have hne : kMetaDataKey ≠ makeKey b := Ne.symm (makeKey_ne_nil b)
    rw [get_put, if_neg hne, h.get b hb]
  · intro k hk
    obtain ⟨v, hv⟩ := mem_iff_getElem?.mp hk
    rw [get_put] at hv
    split_ifs at hv with hkey
    · exact Or.inl hkey.symm
    · exact h.keys k (mem_iff_getElem?.mpr ⟨v, hv⟩)

theorem Holds.commit {cut : Option Nat} {recs : List Bytes} (h : Holds d cf l)
    (hfits : (commitList d.recSz l cut recs).length < 2 ^ 64) :
    Holds (d.commit cf cut recs).1 (d.commit cf cut recs).2 (commitList d.recSz l cut recs) ∧
      (d.commit cf cut recs).1 = { d with nRecs := (d.commit cf cut recs).1.nRecs } := by
  have hstart : Pending d cf
      (cut.elim d.beginBatchWrite fun n => (d.beginBatchWrite.truncate cf n).2)
      (cut.elim l (l.take ·)) := by
    cases cut with
    | none => exact h.buckets.pending
    | some n => exact h.buckets.pending_truncate n
  have hend : Pending d cf (d.batchContext cf cut recs) (commitList d.recSz l cut recs) :=
    hstart.appends recs hfits
  refine ⟨?_, hend.same⟩
  unfold DBRecordArray.commit
  generalize d.batchContext cf cut recs = c at hend
  unfold BatchWriteContext.finish
  split_ifs with hdirty
  · rw [write_append, write_singleton]
    refine ⟨hend.buckets.putMeta _, ?_⟩
    rw [writeMeta, get_put, if_pos rfl]
  · obtain ⟨hbatch, hd⟩ := hend.clean (by simpa using hdirty)
    refine ⟨hend.buckets, ?_⟩
    rw [hbatch, hd, write_nil]
    exact h.metaRow

end Writes
section Opening

variable {d : DBRecordArray} {cf : ColumnFamily} {l : List Bytes}

theorem fieldAt_append (a b c : Bytes) :
    MetaData.fieldAt (a ++ (b ++ c)) a.length b.length = ofLE b := by
  have hle : a.length + b.length ≤ (a ++ (b ++ c)).length := by
    simp only [List.length_append]
    omega
  rw [MetaData.fieldAt, if_pos hle, List.drop_left, List.take_left]

/-- The metadata is read back from its row. -/
theorem fromBytes_toBytes (m : MetaData) (hrec : m.recSz < 2 ^ 64) (hb : m.bucketNRecs < 2 ^ 64)
    (hn : m.nRecs < 2 ^ 64) : MetaData.fromBytes m.toBytes = m := by
  have h1 := fieldAt_append [] (leBytes 4 m.magic.toNat)
    (leBytes 8 m.recSz ++ (leBytes 8 m.bucketNRecs ++ leBytes 8 m.nRecs))
  have h2 := fieldAt_append (leBytes 4 m.magic.toNat) (leBytes 8 m.recSz)
    (leBytes 8 m.bucketNRecs ++ leBytes 8 m.nRecs)
  have h3 := fieldAt_append (leBytes 4 m.magic.toNat ++ leBytes 8 m.recSz)
    (leBytes 8 m.bucketNRecs) (leBytes 8 m.nRecs)
  have h4 := fieldAt_append (leBytes 4 m.magic.toNat ++ leBytes 8 m.recSz ++
    leBytes 8 m.bucketNRecs) (leBytes 8 m.nRecs) []
  rw [ofLE_leBytes m.magic.toNat_lt] at h1
  rw [ofLE_leBytes hrec] at h2
  rw [ofLE_leBytes hb] at h3
  rw [ofLE_leBytes hn] at h4
  simp only [List.nil_append, List.append_nil, List.append_assoc, List.length_append,
    length_leBytes, List.length_nil] at h1 h2 h3 h4
  simp [MetaData.fromBytes, MetaData.toBytes, h1, h2, h3, h4]

theorem popcount_pred_two_pow {k : Nat} (hk : k ≤ 64) : popcount (2 ^ k - 1) = k := by
  have hcount : ∀ n, (List.range n).countP (fun i => (2 ^ k - 1).testBit i) = min n k := by
    intro n
    induction n with
    | zero => simp
    | succ n ih =>
        rw [List.range_succ, List.countP_append, ih, List.countP_singleton,
          Nat.testBit_two_pow_sub_one]
        by_cases hn : n < k
        · simp [hn]
          omega
        · simp [hn]
          omega
  rw [popcount, hcount]
  omega

theorem hasSingleBit_two_pow (k : Nat) : hasSingleBit (2 ^ k) = true := by
  simp [hasSingleBit, Nat.log2_two_pow]

/-- The shift of a sized array is the one the constructor computes. -/
theorem Sized.popcount_eq (hd : Sized d) : popcount (d.bucketNRecs - 1) = d.bucketShiftAmt := by
  have hle : 2 ^ d.bucketShiftAmt ≤ 2 ^ 31 := by
    rw [← hd.bucketNRecs_eq]
    exact le_trans (Nat.le_mul_of_pos_left _ hd.recSz_pos) hd.small
  have hshift : d.bucketShiftAmt ≤ 31 := (Nat.pow_le_pow_iff_right (by omega)).mp hle
  rw [hd.bucketNRecs_eq, popcount_pred_two_pow (by omega)]

/-- The constructor sets the sizes. -/
theorem sized_of_params (name : String) {recSz pot : Nat} (magic : UInt32) (n : Nat)
    (hpot : hasSingleBit pot = true) (hsize : ¬ (recSz = 0 ∨ recSz * pot > 2 ^ 31)) :
    Sized {
      name := name
      recSz := recSz
      magic := magic
      bucketNRecs := pot
      bucketShiftAmt := popcount (pot - 1)
      nRecs := n } := by
  have hpow : pot = 2 ^ Nat.log2 pot := beq_iff_eq.mp hpot
  have hpos : 0 < recSz := by omega
  have hle : pot ≤ 2 ^ 31 := by
    have := Nat.le_mul_of_pos_left pot hpos
    omega
  have hlog : Nat.log2 pot ≤ 31 := by
    rw [hpow] at hle
    exact (Nat.pow_le_pow_iff_right (by omega)).mp hle
  refine ⟨hpos, ?_, by simp only; omega⟩
  simp only
  conv_rhs => rw [hpow, popcount_pred_two_pow (by omega)]
  exact hpow

theorem buckets_empty (hd : Sized d) (hn : d.nRecs = 0) : Buckets d ∅ [] := by
  refine ⟨hd, ?_, hn, by simp, ?_, ?_⟩
  · intro r hr
    exact absurd hr List.not_mem_nil
  · intro b _
    simp [chunk]
  · intro k hk
    simp at hk

theorem exists_make (name : String) {recSz pot : Nat} (magic : UInt32) (hrec : 0 < recSz)
    (hpot : hasSingleBit pot = true) (hsize : recSz * pot ≤ 2 ^ 31) :
    ∃ s, make name ∅ recSz pot magic = .ok s := by
  have hempty : (∅ : ColumnFamily).minKey? = none := by simp
  have hparams : ¬ (recSz = 0 ∨ recSz * pot > 2 ^ 31) := by omega
  unfold make
  rw [if_neg (by simp [hpot]), if_neg hparams]
  simp only [readOrInitMeta, hempty]
  exact ⟨_, rfl⟩

/-- An empty table becomes an array without records. -/
theorem holds_make_empty {name : String} {recSz pot : Nat} {magic : UInt32}
    (h : make name ∅ recSz pot magic = .ok (d, cf)) :
    Holds d cf [] ∧ d.recSz = recSz ∧ d.magic = magic ∧ d.name = name := by
  unfold make at h
  split_ifs at h with hpot hsize
  have hempty : (∅ : ColumnFamily).minKey? = none := by simp
  simp only [readOrInitMeta, hempty, Except.ok.injEq, Prod.mk.injEq] at h
  obtain ⟨rfl, rfl⟩ := h
  have hsized := sized_of_params name magic 0 (by simpa using hpot) hsize
  refine ⟨⟨(buckets_empty hsized rfl).putMeta _, ?_⟩, rfl, rfl, rfl⟩
  rw [write_singleton, writeMeta, get_put, if_pos rfl]

theorem Buckets.mem_makeKey_iff (h : Buckets d cf l) {b : Nat} (hb : b < 2 ^ 64) :
    makeKey b ∈ cf ↔ b * d.bucketNRecs < l.length := by
  have hnil := chunk_eq_nil_iff (l := l) (b := b) h.sized.bucketNRecs_pos
  rw [mem_iff_getElem?, h.get b hb]
  split_ifs with hc
  · have := hnil.mp hc
    simp
    omega
  · have : ¬ l.length ≤ b * d.bucketNRecs := fun hle => hc (hnil.mpr hle)
    simp
    omega

theorem Holds.mem_meta (h : Holds d cf l) : kMetaDataKey ∈ cf :=
  mem_iff_getElem?.mpr ⟨_, h.metaRow⟩

theorem Holds.minKey_eq (h : Holds d cf l) : cf.minKey? = some kMetaDataKey := by
  rw [Std.ExtTreeMap.minKey?_eq_some_iff_mem_and_forall]
  refine ⟨h.mem_meta, ?_⟩
  intro k _
  exact List.isLE_compare_nil_left

/-- The last row of an array with records is the bucket of the last record. -/
theorem Holds.maxKey_eq (h : Holds d cf l) :
    cf.maxKey? = some (if l = [] then kMetaDataKey
      else makeKey ((l.length - 1) / d.bucketNRecs)) := by
  have hpos := h.buckets.sized.bucketNRecs_pos
  have hfits := h.buckets.fits
  rw [Std.ExtTreeMap.maxKey?_eq_some_iff_mem_and_forall]
  by_cases hl : l = []
  · rw [if_pos hl]
    refine ⟨h.mem_meta, ?_⟩
    intro k hk
    rcases h.buckets.keys k hk with rfl | ⟨b, hb, rfl⟩
    · simp [Std.ReflCmp.compare_self]
    · rw [h.buckets.mem_makeKey_iff hb, hl] at hk
      simp at hk
  · have hlen : 0 < l.length := List.length_pos_iff.mpr hl
    have hlast : (l.length - 1) / d.bucketNRecs < 2 ^ 64 :=
      lt_of_le_of_lt (Nat.div_le_self _ _) (by omega)
    rw [if_neg hl]
    constructor
    · rw [h.buckets.mem_makeKey_iff hlast]
      have := Nat.div_mul_le_self (l.length - 1) d.bucketNRecs
      omega
    · intro k hk
      rcases h.buckets.keys k hk with rfl | ⟨b, hb, rfl⟩
      · exact List.isLE_compare_nil_left
      · rw [isLE_makeKey hb hlast]
        rw [h.buckets.mem_makeKey_iff hb] at hk
        rw [Nat.le_div_iff_mul_le hpos]
        omega

/-- The checks of the metadata accept the row of the array. -/
theorem Sized.checkMeta_eq (hd : Sized d) (pot : Nat) :
    checkMeta { d with
        bucketNRecs := pot, bucketShiftAmt := popcount (pot - 1), nRecs := 0 } d.metaData =
      .ok { d with nRecs := 0 } := by
  have hsingle : hasSingleBit d.bucketNRecs = true := by
    rw [hd.bucketNRecs_eq]
    exact hasSingleBit_two_pow _
  have hsmall : ¬ d.recSz * d.bucketNRecs % 2 ^ 64 > 2 ^ 31 :=
    not_lt.mpr ((Nat.mod_le _ _).trans hd.small)
  unfold checkMeta metaData
  simp only [ne_eq, not_true_eq_false, if_false, hsingle, hsmall, hd.popcount_eq]
  by_cases hpot : d.bucketNRecs = pot
  · rw [if_neg (not_not.mpr hpot), ← hpot, hd.popcount_eq]
  · rw [if_pos hpot]

/-- The check of the last row accepts a table that holds a list. -/
theorem Holds.checkLastRow_eq (h : Holds d cf l) :
    checkLastRow { d with nRecs := 0 } d.metaData (cf.maxKey?.getD kMetaDataKey)
      (cf.getD (cf.maxKey?.getD kMetaDataKey) []) = .ok () := by
  have hpos := h.buckets.sized.bucketNRecs_pos
  have hrec := h.buckets.sized.recSz_pos
  have hsized : Sized { d with nRecs := 0 } :=
    ⟨h.buckets.sized.recSz_pos, h.buckets.sized.bucketNRecs_eq, h.buckets.sized.small⟩
  rw [h.maxKey_eq]
  by_cases hl : l = []
  · have hzero : d.nRecs = 0 := by
      rw [h.buckets.nRecs_eq, hl]
      rfl
    simp [checkLastRow, metaData, hzero, hl]
  · have hlen : 0 < l.length := List.length_pos_iff.mpr hl
    have hchunk := length_chunk d.bucketNRecs l ((l.length - 1) / d.bucketNRecs)
    have hdiv := Nat.div_mul_le_self (l.length - 1) d.bucketNRecs
    have hlt := Nat.lt_div_mul_add (a := l.length - 1) hpos
    have hval : cf.getD (makeKey ((l.length - 1) / d.bucketNRecs)) [] =
        (chunk d.bucketNRecs l ((l.length - 1) / d.bucketNRecs)).flatten := by
      rw [Std.ExtTreeMap.getD_eq_getD_getElem?, h.buckets.get_bucket (by omega)]
      rfl
    have hbytes := length_flatten_of_length
      (h.buckets.chunk_records ((l.length - 1) / d.bucketNRecs))
    have hmeta : d.metaData.nRecs = l.length := h.buckets.nRecs_eq
    have hmod : d.recSz * (chunk d.bucketNRecs l ((l.length - 1) / d.bucketNRecs)).length %
        d.recSz = 0 := Nat.mul_mod_right _ _
    have hquot : d.recSz * (chunk d.bucketNRecs l ((l.length - 1) / d.bucketNRecs)).length /
        d.recSz = (chunk d.bucketNRecs l ((l.length - 1) / d.bucketNRecs)).length :=
      Nat.mul_div_cancel_left _ hrec
    have hcount : (l.length - 1) / d.bucketNRecs * d.bucketNRecs +
        (chunk d.bucketNRecs l ((l.length - 1) / d.bucketNRecs)).length = l.length := by
      rw [hchunk]
      omega
    unfold checkLastRow
    simp only [hl, if_false, Option.getD_some, hmeta, hlen, if_true,
      hsized.bucketNum_eq, hsized.bucketBase_eq, hval, hbytes, hmod, hquot, hcount, ne_eq,
      not_true_eq_false]

/-- A table that holds a list is opened again as the same array. -/
theorem Holds.reopen (h : Holds d cf l) {pot : Nat} (hpot : hasSingleBit pot = true)
    (hsize : d.recSz * pot ≤ 2 ^ 31) :
    make d.name cf d.recSz pot d.magic = .ok (d, cf) := by
  have hrec := h.buckets.sized.recSz_pos
  have hfits := h.buckets.fits
  have hparams : ¬ (d.recSz = 0 ∨ d.recSz * pot > 2 ^ 31) := by omega
  have hmeta : MetaData.fromBytes (cf.getD kMetaDataKey []) = d.metaData := by
    have hsmall := h.buckets.sized.small
    have hb := h.buckets.sized.bucketNRecs_pos
    have h1 : d.recSz ≤ d.recSz * d.bucketNRecs := Nat.le_mul_of_pos_right _ hb
    have h2 : d.bucketNRecs ≤ d.recSz * d.bucketNRecs := Nat.le_mul_of_pos_left _ hrec
    rw [Std.ExtTreeMap.getD_eq_getD_getElem?, h.metaRow, Option.getD_some]
    apply fromBytes_toBytes
    · simp only [metaData]
      omega
    · simp only [metaData]
      omega
    · simp only [metaData, h.buckets.nRecs_eq]
      omega
  unfold make
  rw [if_neg (by simp [hpot]), if_neg hparams]
  unfold readOrInitMeta
  simp only [h.minKey_eq, ne_eq, not_true_eq_false, if_false, hmeta]
  have hcheck := h.buckets.sized.checkMeta_eq pot
  have hlast := h.checkLastRow_eq
  simp only [hcheck, bind, Except.bind, hlast, pure, Except.pure]
  rfl

end Opening

section Runs

/-- A step of a run: a committed batch, or the array is opened again. -/
inductive Op where
  | write (cut : Option Nat) (recs : List Bytes)
  | reopen (bucketNRecsPOT : Nat)

/-- What a step does to the array and its table. -/
def step (s : DBRecordArray × ColumnFamily) : Op → Except String (DBRecordArray × ColumnFamily)
  | .write cut recs => .ok (s.1.commit s.2 cut recs)
  | .reopen pot => make s.1.name s.2 s.1.recSz pot s.1.magic

/-- What a step does to the list. -/
def stepList (recSz : Nat) (l : List Bytes) : Op → List Bytes
  | .write cut recs => commitList recSz l cut recs
  | .reopen _ => l

/-- A bucket size that the constructor takes. -/
def Op.Valid (recSz : Nat) : Op → Prop
  | .write _ _ => True
  | .reopen pot => hasSingleBit pot = true ∧ recSz * pot ≤ 2 ^ 31

/-- The list has fewer than `2 ^ 64` records, the range of a record number, throughout. -/
def Fits (recSz : Nat) (l : List Bytes) : List Op → Prop
  | [] => True
  | op :: ops => (stepList recSz l op).length < 2 ^ 64 ∧ Fits recSz (stepList recSz l op) ops

/-- All reads of the array are reads of the list. -/
structure ReadsAs (d : DBRecordArray) (cf : ColumnFamily) (l : List Bytes) : Prop where
  numRecords : d.nRecs = l.length
  readRecord : ∀ i, (∀ r, l[i]? = some r → d.readRecord cf i = .ok r) ∧
    (l.length ≤ i → ∃ e, d.readRecord cf i = .error e)
  readRecords : ∀ start count,
    (d.readRecords cf start count).1 = (l.drop start).take count
  readRandomRecords : ∀ recNums continueOnError,
    (d.readRandomRecords cf recNums continueOnError).1 =
      elementWise continueOnError (recNums.map (d.readRecord cf))
  reopens : ∀ pot, hasSingleBit pot = true → d.recSz * pot ≤ 2 ^ 31 →
    make d.name cf d.recSz pot d.magic = .ok (d, cf)

variable {d : DBRecordArray} {cf : ColumnFamily} {l : List Bytes}

theorem Holds.readsAs (h : Holds d cf l) : ReadsAs d cf l := by
  constructor
  · exact h.buckets.nRecs_eq
  · intro i
    rw [h.buckets.readRecord_eq]
    constructor
    · intro r hr
      rw [hr]
      rfl
    · intro hi
      rw [List.getElem?_eq_none hi]
      exact ⟨_, rfl⟩
  · intro start count
    rw [(h.buckets.readRecords_eq start count).1]
    unfold RecordArray.readRecords
    dsimp only
    split_ifs with hlen hzero
    · have hcount : count = 0 := by omega
      rw [hcount, List.take_zero]
    · rcases Nat.le_total count (l.length - start) with hle | hle
      · rw [Nat.min_eq_left hle]
      · rw [Nat.min_eq_right hle, List.take_of_length_le (by simp),
          List.take_of_length_le (by simpa using hle)]
    · rw [List.drop_eq_nil_of_le (by omega), List.take_nil]
    · exact absurd rfl ‹¬ 0 = 0›
  · intro recNums continueOnError
    exact h.buckets.readRandomLoop_eq continueOnError recNums none
  · intro pot hpot hsize
    exact h.reopen hpot hsize

/-- One step keeps the table of a list. -/
theorem Holds.step (h : Holds d cf l) {op : Op} (hvalid : op.Valid d.recSz)
    (hfits : (stepList d.recSz l op).length < 2 ^ 64) :
    ∃ d' cf', DBRecordArray.step (d, cf) op = .ok (d', cf') ∧
      Holds d' cf' (stepList d.recSz l op) ∧ d'.recSz = d.recSz := by
  cases op with
  | write cut recs =>
      obtain ⟨hholds, hsame⟩ := h.commit hfits
      exact ⟨(d.commit cf cut recs).1, (d.commit cf cut recs).2, rfl, hholds,
        (congrArg DBRecordArray.recSz hsame).trans rfl⟩
  | reopen pot => exact ⟨d, cf, h.reopen hvalid.1 hvalid.2, h, rfl⟩

/-- A whole run keeps the table of a list. -/
theorem Holds.run (h : Holds d cf l) {ops : List Op} (hvalid : ∀ op ∈ ops, op.Valid d.recSz)
    (hfits : Fits d.recSz l ops) :
    ∃ d' cf', ops.foldlM DBRecordArray.step (d, cf) = .ok (d', cf') ∧
      Holds d' cf' (ops.foldl (stepList d.recSz) l) := by
  induction ops generalizing d cf l with
  | nil => exact ⟨d, cf, rfl, h⟩
  | cons op ops ih =>
      obtain ⟨hfit, hfits⟩ := hfits
      obtain ⟨d', cf', hstep, hholds, hrec⟩ := h.step (hvalid op List.mem_cons_self) hfit
      rw [← hrec] at hfits hholds
      obtain ⟨d'', cf'', hrun, hend⟩ := ih hholds
        (fun op hop => hrec ▸ hvalid op (List.mem_cons_of_mem _ hop)) hfits
      refine ⟨d'', cf'', ?_, ?_⟩
      · rw [List.foldlM_cons, hstep]
        exact hrun
      · rw [hrec] at hend
        exact hend

/-- After every run from an empty table the array reads as the list of its records. -/
theorem recordArray_refines_list {name : String} {recSz pot : Nat} {magic : UInt32}
    {s : DBRecordArray × ColumnFamily} (hmake : make name ∅ recSz pot magic = .ok s)
    {ops : List Op} (hvalid : ∀ op ∈ ops, op.Valid recSz) (hfits : Fits recSz [] ops) :
    ∃ d cf, ops.foldlM DBRecordArray.step s = .ok (d, cf) ∧
      ReadsAs d cf (ops.foldl (stepList recSz) []) := by
  obtain ⟨d, cf⟩ := s
  obtain ⟨hholds, rfl, -, -⟩ := holds_make_empty hmake
  obtain ⟨d', cf', hrun, hend⟩ := hholds.run hvalid hfits
  exact ⟨d', cf', hrun, hend.readsAs⟩

/-- Three appends, a reopening with another bucket size, and a cut with an append. -/
theorem recordArray_refines_list_small :
    ∃ s d cf, make "headers" ∅ 1 2 7 = .ok s ∧
      [Op.write none [[1], [2], [3]], .reopen 4, .write (some 1) [[9], [8, 8]]].foldlM
        DBRecordArray.step s = .ok (d, cf) ∧
      ReadsAs d cf [[1], [9]] := by
  have hpot : hasSingleBit 4 = true := hasSingleBit_two_pow 2
  have hvalid : ∀ op ∈ [Op.write none [[1], [2], [3]], .reopen 4, .write (some 1) [[9], [8, 8]]],
      op.Valid 1 := by
    simp [Op.Valid, hpot]
  have hfits : Fits 1 [] [Op.write none [[1], [2], [3]], .reopen 4,
      .write (some 1) [[9], [8, 8]]] := by
    simp [Fits, stepList, commitList]
  obtain ⟨s, hs⟩ : ∃ s, make "headers" ∅ 1 2 7 = .ok s :=
    exists_make "headers" 7 (by omega) (hasSingleBit_two_pow 1) (by omega)
  obtain ⟨d, cf, hrun, hreads⟩ := recordArray_refines_list hs hvalid hfits
  exact ⟨s, d, cf, hs, hrun, hreads⟩

end Runs
end DBRecordArray
end Storage
end Shulcrum
