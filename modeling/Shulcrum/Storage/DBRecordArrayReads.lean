import Shulcrum.Lib.Chunks
import Shulcrum.Storage.DBRecordArray
import Shulcrum.Storage.RecordArray

/-!
# Reads of a record array

`Buckets` says that a table holds a list of records: every bucket is the
concatenation of its chunk of the list, and there are no other rows than the
buckets and the metadata.  All reads of a table that holds a list are reads of
the list.

**Results.**
* `readRecord_eq`, `readRecords_eq`: single and consecutive reads.
* `readRandomRecords_eq`: reads of any list of record numbers.
-/

namespace Shulcrum
namespace Storage
namespace DBRecordArray

open Chunks KeyValue TreeMap

/-- The sizes fit together: buckets hold a power of two of records. -/
structure Sized (d : DBRecordArray) : Prop where
  recSz_pos : 0 < d.recSz
  bucketNRecs_eq : d.bucketNRecs = 2 ^ d.bucketShiftAmt
  small : d.recSz * d.bucketNRecs ≤ 2 ^ 31

/-- The table holds the records of `l` in its buckets. -/
structure Buckets (d : DBRecordArray) (cf : ColumnFamily) (l : List Bytes) : Prop where
  sized : Sized d
  records : ∀ r ∈ l, r.length = d.recSz
  nRecs_eq : d.nRecs = l.length
  fits : l.length < 2 ^ 64
  get : ∀ b, b < 2 ^ 64 → cf[makeKey b]? =
    if chunk d.bucketNRecs l b = [] then none else some (chunk d.bucketNRecs l b).flatten
  keys : ∀ k ∈ cf, k = kMetaDataKey ∨ ∃ b, b < 2 ^ 64 ∧ k = makeKey b

section Reads

variable {d : DBRecordArray} {cf : ColumnFamily} {l : List Bytes}

theorem Sized.bucketNRecs_pos (hd : Sized d) : 0 < d.bucketNRecs := by
  rw [hd.bucketNRecs_eq]
  exact Nat.two_pow_pos _

theorem Sized.bucketNum_eq (hd : Sized d) (i : Nat) :
    d.recordNumToBucketNum i = i / d.bucketNRecs := by
  rw [recordNumToBucketNum, Nat.shiftRight_eq_div_pow, hd.bucketNRecs_eq]

theorem Sized.bucketBase_eq (hd : Sized d) (i : Nat) :
    d.recordNumBucketBase i = i / d.bucketNRecs * d.bucketNRecs := by
  rw [recordNumBucketBase, hd.bucketNum_eq, Nat.shiftLeft_eq, ← hd.bucketNRecs_eq]

theorem Sized.offset_eq (hd : Sized d) (i : Nat) :
    d.recordNumOffsetFromBucketBase i = d.recSz * (i % d.bucketNRecs) := by
  have hsplit : i / d.bucketNRecs * d.bucketNRecs + i % d.bucketNRecs = i := Nat.div_add_mod' i _
  rw [recordNumOffsetFromBucketBase, hd.bucketBase_eq]
  congr 1
  omega

theorem Buckets.chunk_records (h : Buckets d cf l) (b : Nat) :
    ∀ r ∈ chunk d.bucketNRecs l b, r.length = d.recSz := by
  intro r hr
  exact h.records r (List.mem_of_mem_drop (List.mem_of_mem_take hr))

/-- The bucket of a record that is there. -/
theorem Buckets.get_bucket (h : Buckets d cf l) {i : Nat} (hi : i < l.length) :
    cf[makeKey (i / d.bucketNRecs)]? =
      some (chunk d.bucketNRecs l (i / d.bucketNRecs)).flatten := by
  have hfits := h.fits
  have hb : i / d.bucketNRecs < 2 ^ 64 := lt_of_le_of_lt (Nat.div_le_self _ _) (by omega)
  have hne : chunk d.bucketNRecs l (i / d.bucketNRecs) ≠ [] := by
    rw [Ne, chunk_eq_nil_iff h.sized.bucketNRecs_pos]
    have := Nat.div_mul_le_self i d.bucketNRecs
    omega
  rw [h.get _ hb, if_neg hne]

/-- The bytes of a record inside its bucket. -/
theorem Buckets.slice (h : Buckets d cf l) {i : Nat} {r : Bytes} (hi : l[i]? = some r) :
    (((chunk d.bucketNRecs l (i / d.bucketNRecs)).flatten.drop
      (d.recSz * (i % d.bucketNRecs))).take d.recSz) = r := by
  apply slice_flatten (h.chunk_records _)
  rw [getElem?_chunk h.sized.bucketNRecs_pos, hi]

/-- The bucket reaches to the end of the record. -/
theorem Buckets.slice_fits (h : Buckets d cf l) {i : Nat} (hi : i < l.length) :
    d.recSz * (i % d.bucketNRecs) + d.recSz ≤
      (chunk d.bucketNRecs l (i / d.bucketNRecs)).flatten.length := by
  have hpos := h.sized.bucketNRecs_pos
  have hmem : i % d.bucketNRecs < (chunk d.bucketNRecs l (i / d.bucketNRecs)).length := by
    rw [length_chunk]
    have hmod := Nat.mod_lt i hpos
    have hsplit : i / d.bucketNRecs * d.bucketNRecs + i % d.bucketNRecs = i :=
      Nat.div_add_mod' i _
    omega
  rw [length_flatten_of_length (h.chunk_records _)]
  calc d.recSz * (i % d.bucketNRecs) + d.recSz
      = d.recSz * (i % d.bucketNRecs + 1) := by rw [Nat.mul_succ]
    _ ≤ d.recSz * (chunk d.bucketNRecs l (i / d.bucketNRecs)).length :=
        Nat.mul_le_mul_left _ hmem

/-- The bucket kept from the last read is the one in the table. -/
def Cached (cf : ColumnFamily) (lastRead : Option LastRead) : Prop :=
  ∀ last, lastRead = some last → cf[makeKey last.bucketNum]? = some last.bucketValue

theorem cached_none : Cached cf none := by
  intro last h
  cases h

/-- A read gives the record, with or without the bucket of the last read. -/
theorem Buckets.readSequentialInner_eq (h : Buckets d cf l) {lastRead : Option LastRead}
    (hlast : Cached cf lastRead) (i : Nat) :
    (d.readSequentialInner cf i lastRead).1 =
        l[i]?.elim (.error (d.outOfRange i)) .ok ∧
      Cached cf (d.readSequentialInner cf i lastRead).2 := by
  unfold readSequentialInner
  rw [h.sized.bucketNum_eq, h.sized.offset_eq]
  split_ifs with hi
  · rw [h.nRecs_eq] at hi
    obtain ⟨r, hr⟩ : ∃ r, l[i]? = some r := ⟨l[i], List.getElem?_eq_getElem hi⟩
    have hbucket := h.get_bucket hi
    have hslice := h.slice hr
    have hfits := h.slice_fits hi
    cases hc : lastRead.filter (·.bucketNum == i / d.bucketNRecs) with
    | none =>
        simp only [hc, hbucket, if_pos hfits, hslice, hr]
        refine ⟨rfl, ?_⟩
        intro last hl
        cases hl
        exact hbucket
    | some last =>
        obtain ⟨hl, hnum⟩ := Option.filter_eq_some_iff.mp hc
        have hval := hlast last hl
        rw [beq_iff_eq.mp hnum, hbucket] at hval
        have hval' := Option.some.inj hval
        simp only [hc, ← hval', if_pos hfits, hslice, hr]
        exact ⟨rfl, hlast⟩
  · rw [h.nRecs_eq] at hi
    have hnone : l[i]? = none := List.getElem?_eq_none (by omega)
    rw [hnone]
    exact ⟨rfl, hlast⟩

/-- `readRecord` reads the list. -/
theorem Buckets.readRecord_eq (h : Buckets d cf l) (i : Nat) :
    d.readRecord cf i = l[i]?.elim (.error (d.outOfRange i)) .ok :=
  (h.readSequentialInner_eq cached_none i).1

theorem Buckets.readRecordsLoop_eq (h : Buckets d cf l) (count start : Nat)
    {lastRead : Option LastRead} (hlast : Cached cf lastRead)
    (hfit : start + count ≤ l.length) :
    d.readRecordsLoop cf count start lastRead = ((l.drop start).take count, none) := by
  induction count generalizing start lastRead with
  | zero => simp [readRecordsLoop]
  | succ count ih =>
      have hi : start < l.length := by omega
      obtain ⟨hread, hcached⟩ := h.readSequentialInner_eq hlast start
      rw [List.getElem?_eq_getElem hi] at hread
      rw [readRecordsLoop]
      generalize hres : d.readSequentialInner cf start lastRead = res at hread hcached
      obtain ⟨out, last⟩ := res
      simp only [Option.elim_some] at hread
      subst hread
      simp only [ih (start + 1) hcached (by omega)]
      rw [List.drop_eq_getElem_cons hi, List.take_succ_cons]

/-- `readRecords` reads a part of the list. -/
theorem Buckets.readRecords_eq (h : Buckets d cf l) (start count : Nat) :
    (d.readRecords cf start count).1 = (RecordArray.readRecords l start count).1 ∧
      (d.readRecords cf start count).2.getD "" = (RecordArray.readRecords l start count).2 := by
  unfold readRecords RecordArray.readRecords
  rw [h.nRecs_eq]
  dsimp only
  split_ifs with hrange hzero
  · exact ⟨rfl, rfl⟩
  · rw [h.readRecordsLoop_eq _ start cached_none (by omega)]
    exact ⟨rfl, rfl⟩
  · exact ⟨rfl, rfl⟩
  · exact absurd rfl ‹¬ 0 = 0›

/-- A read inside the array succeeds. -/
theorem Buckets.readRecords_ok (h : Buckets d cf l) {start count : Nat} (hpos : 0 < count)
    (hfit : start + count ≤ l.length) :
    d.readRecords cf start count = ((l.drop start).take count, none) := by
  have hstart : l.length > start := by omega
  have hcount : min count (l.length - start) = count := by omega
  unfold readRecords
  rw [h.nRecs_eq]
  dsimp only
  rw [if_pos hstart, hcount, if_neg (by omega)]
  exact h.readRecordsLoop_eq count start cached_none hfit

/-! ## Random reads -/

/-- The records up to the first failure. -/
def okPrefix : List (Except String Bytes) → List Bytes
  | .ok rec :: rs => rec :: okPrefix rs
  | _ => []

/-- A failed read stands for an empty record. -/
def orEmpty : Except String Bytes → Bytes
  | .ok rec => rec
  | .error _ => []

/-- What the element-wise reads of a list of record numbers give in the two error modes. -/
def elementWise (continueOnError : Bool) (rs : List (Except String Bytes)) : List Bytes :=
  if continueOnError then rs.map orEmpty else okPrefix rs

/-- No bucket is given up when errors are passed over, or once one is collected. -/
theorem collectBuckets_isSome {continueOnError : Bool} {buckets : ColumnFamily}
    (recNums : List Nat) (err : Option String)
    (h : continueOnError = true ∨ buckets.isEmpty = false) :
    ∃ bs, (d.collectBuckets continueOnError recNums buckets err).1 = some bs := by
  induction recNums generalizing buckets err with
  | nil => exact ⟨buckets, rfl⟩
  | cons i recNums ih =>
      rw [collectBuckets]
      split_ifs with hi hgive
      · obtain ⟨hc, he⟩ := hgive
        rcases h with h | h
        · exact absurd h hc
        · rw [h] at he
          cases he
      · exact ih _ h
      · refine ih err (Or.inr ?_)
        rw [Std.ExtTreeMap.isEmpty_eq_false_iff]
        simp

/-- The buckets of the records that are there are collected. -/
theorem mem_collectBuckets {continueOnError : Bool} {recNums : List Nat}
    {buckets bs : ColumnFamily} {err : Option String}
    (h : (d.collectBuckets continueOnError recNums buckets err).1 = some bs) :
    (∀ k ∈ buckets, k ∈ bs) ∧
      ∀ i ∈ recNums, i < d.nRecs → makeKey (d.recordNumToBucketNum i) ∈ bs := by
  induction recNums generalizing buckets err with
  | nil =>
      cases h
      exact ⟨fun k hk => hk, fun i hi => absurd hi List.not_mem_nil⟩
  | cons j recNums ih =>
      rw [collectBuckets] at h
      split_ifs at h with hj hgive
      · obtain ⟨hkeep, hall⟩ := ih h
        refine ⟨hkeep, ?_⟩
        intro i hi hlt
        rcases List.mem_cons.mp hi with rfl | hi
        · omega
        · exact hall i hi hlt
      · obtain ⟨hkeep, hall⟩ := ih h
        refine ⟨fun k hk => hkeep k (Std.ExtTreeMap.mem_insertIfNew.mpr (Or.inr hk)), ?_⟩
        intro i hi hlt
        rcases List.mem_cons.mp hi with rfl | hi
        · exact hkeep _ (Std.ExtTreeMap.mem_insertIfNew.mpr (Or.inl Std.ReflCmp.compare_self))
        · exact hall i hi hlt

theorem getD_multiGet {buckets : ColumnFamily} {k : Bytes} (hk : k ∈ buckets) :
    (multiGet cf buckets).getD k [] = cf.getD k [] := by
  obtain ⟨v, hv⟩ := mem_iff_getElem?.mp hk
  rw [multiGet, Std.ExtTreeMap.getD_eq_getD_getElem?, Std.ExtTreeMap.getElem?_map, hv]
  rfl

/-- The last loop of a batch reads every record from its bucket. -/
theorem Buckets.collectRecords_eq (h : Buckets d cf l) {continueOnError : Bool}
    {buckets : ColumnFamily} {recNums : List Nat} {err : Option String}
    (hb : ∀ i ∈ recNums, i < d.nRecs → makeKey (d.recordNumToBucketNum i) ∈ buckets) :
    (d.collectRecords continueOnError (multiGet cf buckets) recNums err).1 =
        elementWise continueOnError (recNums.map (d.readRecord cf)) ∧
      (d.collectRecords continueOnError (multiGet cf buckets) recNums err).2.1 =
        (continueOnError || recNums.all (· < d.nRecs)) := by
  induction recNums generalizing err with
  | nil =>
      cases continueOnError <;> exact ⟨rfl, rfl⟩
  | cons i recNums ih =>
      have hrest := fun (err : Option String) =>
        @ih err fun j hj => hb j (List.mem_cons_of_mem i hj)
      have hread := h.readRecord_eq i
      rw [collectRecords]
      by_cases hi : i < d.nRecs
      · have hil : i < l.length := h.nRecs_eq ▸ hi
        have hval : (multiGet cf buckets).getD (makeKey (d.recordNumToBucketNum i)) [] =
            (chunk d.bucketNRecs l (i / d.bucketNRecs)).flatten := by
          rw [getD_multiGet (hb i List.mem_cons_self hi), h.sized.bucketNum_eq,
            Std.ExtTreeMap.getD_eq_getD_getElem?, h.get_bucket hil]
          rfl
        have hfits := h.slice_fits hil
        have hr : l[i]? = some l[i] := List.getElem?_eq_getElem hil
        have hcond : i < d.nRecs ∧ d.recordNumOffsetFromBucketBase i + d.recSz ≤
            ((multiGet cf buckets).getD (makeKey (d.recordNumToBucketNum i)) []).length := by
          rw [hval, h.sized.offset_eq]
          exact ⟨hi, hfits⟩
        rw [hr] at hread
        rw [if_pos hcond, hval, h.sized.offset_eq, h.slice hr]
        obtain ⟨hrecs, hok⟩ := hrest err
        refine ⟨?_, ?_⟩
        · simp only [hrecs, List.map_cons, hread, Option.elim_some]
          cases continueOnError <;> rfl
        · simp only [hok, List.all_cons, hi, decide_true, Bool.true_and]
      · have hnone : l[i]? = none := List.getElem?_eq_none (by rw [← h.nRecs_eq]; omega)
        rw [hnone] at hread
        have hcond : ¬ (i < d.nRecs ∧ d.recordNumOffsetFromBucketBase i + d.recSz ≤
            ((multiGet cf buckets).getD (makeKey (d.recordNumToBucketNum i)) []).length) :=
          fun hc => hi hc.1
        rw [if_neg hcond]
        cases continueOnError with
        | false =>
            simp only [List.map_cons, hread, Option.elim_none, List.all_cons, hi]
            exact ⟨rfl, rfl⟩
        | true =>
            obtain ⟨hrecs, hok⟩ := hrest (if i < d.nRecs then setErrStr err (d.notInDB i) else err)
            simp only [List.map_cons, hread, Option.elim_none]
            refine ⟨?_, ?_⟩
            · simp only [not_true_eq_false, if_false, hrecs]
              rfl
            · simpa using hok

/-- One batch gives the element-wise reads, and goes on when no read failed. -/
theorem Buckets.doBatch_eq (h : Buckets d cf l) (continueOnError : Bool) (batch : List Nat)
    (err : Option String) :
    (d.doBatch cf continueOnError batch err).1 =
        elementWise continueOnError (batch.map (d.readRecord cf)) ∧
      (d.doBatch cf continueOnError batch err).2.1 =
        (continueOnError || batch.all (· < d.nRecs)) := by
  unfold doBatch
  cases hc : d.collectBuckets continueOnError batch ∅ err with
  | mk bs err' =>
      cases bs with
      | some bs =>
          have hsome : (d.collectBuckets continueOnError batch ∅ err).1 = some bs := by rw [hc]
          exact h.collectRecords_eq (mem_collectBuckets hsome).2
      | none =>
          -- the first record of the batch is not there
          cases batch with
          | nil => cases hc
          | cons i batch =>
              rw [collectBuckets] at hc
              split_ifs at hc with hi hgive
              · have hfalse : continueOnError = false := Bool.eq_false_iff.mpr hgive.1
                have hread := h.readRecord_eq i
                have hnone : l[i]? = none := List.getElem?_eq_none (by rw [← h.nRecs_eq]; omega)
                have hlt : ¬ i < d.nRecs := by omega
                rw [hnone] at hread
                subst hfalse
                simp only [List.map_cons, hread, List.all_cons, hlt, Option.elim_none]
                exact ⟨rfl, rfl⟩
              · have hcont : continueOnError = true ∨
                    (∅ : ColumnFamily).isEmpty = false := by
                  cases continueOnError with
                  | true => exact Or.inl rfl
                  | false => simp at hgive
                obtain ⟨bs, hbs⟩ := collectBuckets_isSome (d := d) batch
                  (setErrStr err (d.notInDB i)) hcont
                rw [hc] at hbs
                cases hbs
              · have hcont : continueOnError = true ∨ ((∅ : ColumnFamily).insertIfNew
                    (makeKey (d.recordNumToBucketNum i)) []).isEmpty = false := by
                  refine Or.inr ?_
                  rw [Std.ExtTreeMap.isEmpty_eq_false_iff]
                  simp
                obtain ⟨bs, hbs⟩ := collectBuckets_isSome (d := d) batch err hcont
                rw [hc] at hbs
                cases hbs

theorem okPrefix_append {rs rs' : List (Except String Bytes)}
    (h : ∀ r ∈ rs, ∃ rec, r = .ok rec) : okPrefix (rs ++ rs') = okPrefix rs ++ okPrefix rs' := by
  induction rs with
  | nil => rfl
  | cons r rs ih =>
      obtain ⟨rec, rfl⟩ := h r List.mem_cons_self
      have hrest := ih fun r hr => h r (List.mem_cons_of_mem _ hr)
      simp only [List.cons_append, okPrefix, hrest]

theorem okPrefix_append_of_failure {rs rs' : List (Except String Bytes)}
    (h : ∃ r ∈ rs, ∃ e, r = .error e) : okPrefix (rs ++ rs') = okPrefix rs := by
  induction rs with
  | nil =>
      obtain ⟨r, hr, -⟩ := h
      exact absurd hr List.not_mem_nil
  | cons r rs ih =>
      cases r with
      | error e => rfl
      | ok rec =>
          obtain ⟨r, hr, e, rfl⟩ := h
          rcases List.mem_cons.mp hr with hr | hr
          · cases hr
          · simp only [List.cons_append, okPrefix, ih ⟨_, hr, e, rfl⟩]

/-- `readRandomRecords` gives the element-wise reads in both error modes. -/
theorem Buckets.readRandomLoop_eq (h : Buckets d cf l) (continueOnError : Bool)
    (recNums : List Nat) (err : Option String) :
    (d.readRandomLoop cf continueOnError recNums err).1 =
      elementWise continueOnError (recNums.map (d.readRecord cf)) := by
  induction hn : recNums.length using Nat.strong_induction_on generalizing recNums err with
  | _ n ih =>
      rw [readRandomLoop]
      split_ifs with hnil
      · subst hnil
        cases continueOnError <;> rfl
      · obtain ⟨hrecs, hok⟩ := h.doBatch_eq continueOnError (recNums.take d.batchSize) err
        have hsplit : recNums.map (d.readRecord cf) =
            (recNums.take d.batchSize).map (d.readRecord cf) ++
              (recNums.drop d.batchSize).map (d.readRecord cf) := by
          rw [← List.map_append, List.take_append_drop]
        have hless : (recNums.drop d.batchSize).length < n := by
          have hpos : 0 < recNums.length := List.length_pos_iff.mpr hnil
          have hsize := d.batchSize_pos
          rw [List.length_drop]
          omega
        generalize hb : d.doBatch cf continueOnError (recNums.take d.batchSize) err = out
          at hrecs hok
        obtain ⟨recs, ok, err'⟩ := out
        simp only at hrecs hok
        subst hrecs hok
        have hgo := ih _ hless (recNums.drop d.batchSize) err' rfl
        cases continueOnError with
        | true =>
            simp only [Bool.true_or, hgo, elementWise, if_true, hsplit, List.map_append]
        | false =>
            cases hall : (recNums.take d.batchSize).all (· < d.nRecs) with
            | true =>
                have hreads : ∀ r ∈ (recNums.take d.batchSize).map (d.readRecord cf),
                    ∃ rec, r = .ok rec := by
                  intro r hr
                  obtain ⟨i, hi, rfl⟩ := List.mem_map.mp hr
                  have hlt : i < l.length := by
                    have := List.all_eq_true.mp hall i hi
                    rw [← h.nRecs_eq]
                    exact of_decide_eq_true this
                  rw [h.readRecord_eq, List.getElem?_eq_getElem hlt]
                  exact ⟨_, rfl⟩
                simp only [Bool.false_or, hgo]
                rw [hsplit]
                exact (okPrefix_append hreads).symm
            | false =>
                have hfail : ∃ r ∈ (recNums.take d.batchSize).map (d.readRecord cf),
                    ∃ e, r = .error e := by
                  obtain ⟨i, hi, hlt⟩ := List.all_eq_false.mp hall
                  refine ⟨_, List.mem_map_of_mem hi, d.outOfRange i, ?_⟩
                  have hge : l[i]? = none := by
                    apply List.getElem?_eq_none
                    rw [← h.nRecs_eq]
                    simpa using hlt
                  rw [h.readRecord_eq, hge]
                  rfl
                simp only [Bool.false_or]
                rw [hsplit]
                exact (okPrefix_append_of_failure hfail).symm

end Reads
end DBRecordArray
end Storage
end Shulcrum
