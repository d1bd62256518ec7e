import Shulcrum.Lib.Fallible
import Shulcrum.Lib.Invariant
import Shulcrum.Storage.TxHash2TxNumMgr

/-!
# Runs of the txid index

The hashes of all transactions of the chain are in the record array, in order
of their numbers.  The row of a key has the numbers of the hashes with this
key, in ascending order, and a key without a hash has no row.  Blocks and undos
keep the table so, and a rebuild makes it so.  A row is read as a string of
`VarInt`s, so that only rows of less than two gibibytes are read.

**Results.**
* `Bucketed.inserts`, `Bucketed.truncate`: the table after a block and an undo.
* `Indexed.find_eq`, `Indexed.findMany_eq`: lookups give the first number of
  the hash.
* `Indexed.rebuildDB`: the table after a rebuild.
-/

namespace Shulcrum
namespace Storage
namespace TxHash2TxNumMgr

open BTC KeyValue TreeMap Positions Invariant DBRecordArray Fallible

theorem ok_bind {α β : Type} (a : α) (f : α → Except Exception β) :
    (Except.ok a >>= f) = f a := rfl

section Keys

variable (m : TxHash2TxNumMgr)

theorem length_keyOf {bv : Bytes} (h : bv.length = hashLen) : (m.keyOf bv).length = m.keyBytes := by
  have hle := m.keyBytes_inRange.2
  unfold keyOf
  rw [h]
  cases m.keyPos with
  | Beginning =>
      simp only [List.length_take, h]
      omega
  | Middle =>
      simp only [List.length_take, List.length_drop, h]
      unfold hashLen at *
      omega
  | End =>
      simp only [List.length_take, List.length_drop, h]
      omega

theorem makeKeyFromHash_eq {bv : Bytes} (h : bv.length = hashLen) :
    m.makeKeyFromHash bv = .ok (m.keyOf bv) :=
  if_neg (not_not.mpr h)

theorem length_makeLargestTxNumSeenKey : m.keyBytes < m.makeLargestTxNumSeenKey.length := by
  unfold makeLargestTxNumSeenKey
  split_ifs with h
  · rw [List.length_append, List.length_replicate]
    omega
  · omega

/-- The two ways to insert the hashes of a block do the same. -/
theorem insertForBlockPhased_eq (blockTxNum0 : Nat) (hashes : List Bytes) :
    m.insertForBlockPhased blockTxNum0 hashes = m.insertForBlock blockTxNum0 hashes := by
  have hmerges : ∀ n, m.insertForBlockInner1 n hashes =
      (List.map fun e => Write.merge e.1 e.2) <$> m.insertPhase1 n hashes := by
    induction hashes with
    | nil =>
        intro n
        rfl
    | cons hash hashes ih =>
        intro n
        rw [insertForBlockInner1, ih (n + 1)]
        simp only [insertPhase1, List.zipIdx_cons, List.mapM_cons]
        cases m.makeKeyFromHash hash with
        | error e => rfl
        | ok key =>
            generalize (hashes.zipIdx (n + 1)).mapM (fun e =>
              (fun key => (key, VarInt.encode false e.2)) <$> m.makeKeyFromHash e.1) = kv
            cases kv with
            | error e => rfl
            | ok kv => rfl
  unfold insertForBlockPhased insertForBlock
  rw [hmerges]
  cases m.insertPhase1 blockTxNum0 hashes with
  | error e => rfl
  | ok kv => rfl

end Keys

/-! ## The table -/

/-- The row of some numbers. -/
def bucket (nums : List Nat) : Option Bytes :=
  if nums = [] then none else some (nums.flatMap (VarInt.encode false))

/-- Every key has the numbers of its hashes. -/
structure Bucketed (m : TxHash2TxNumMgr) (cf : ColumnFamily) (hashes : List Bytes) : Prop where
  noEmptyKey : [] ∉ cf
  row : ∀ key, key.length = m.keyBytes → cf[key]? = bucket (positions m.keyOf key hashes)

section Table

variable {m : TxHash2TxNumMgr} {cf : ColumnFamily} {hashes : List Bytes}

theorem bucket_concat (nums : List Nat) (n : Nat) :
    bucket (nums ++ [n]) = some ((bucket nums).getD [] ++ VarInt.encode false n) := by
  unfold bucket
  by_cases h : nums = []
  · simp [h]
  · simp [h]

/-- A key is never empty. -/
theorem keyOf_ne_nil (m : TxHash2TxNumMgr) {bv : Bytes} (h : bv.length = hashLen) :
    m.keyOf bv ≠ [] := by
  intro hnil
  have hlen := m.length_keyOf h
  have hpos := m.keyBytes_inRange.1
  rw [hnil, List.length_nil] at hlen
  omega

/-- The number of one hash is merged into its row. -/
theorem Bucketed.insert (h : Bucketed m cf hashes) {hash : Bytes} (hlen : hash.length = hashLen) :
    Bucketed m (apply cf (.merge (m.keyOf hash) (VarInt.encode false hashes.length)))
      (hashes ++ [hash]) := by
  constructor
  · have hget :
        (apply cf (.merge (m.keyOf hash) (VarInt.encode false hashes.length)))[([] : Bytes)]? =
          cf[([] : Bytes)]? := by
      rw [get_merge, if_neg (m.keyOf_ne_nil hlen)]
    rw [not_mem_iff_getElem?, hget, ← not_mem_iff_getElem?]
    exact h.noEmptyKey
  · intro key hkey
    rw [get_merge, h.row key hkey, positions_concat]
    split_ifs with heq
    · rw [bucket_concat]
    · rw [List.append_nil]

/-- The numbers of a block are merged into their rows. -/
theorem Bucketed.inserts {new : List Bytes} :
    ∀ {cf : ColumnFamily} {hashes : List Bytes}, Bucketed m cf hashes →
      (∀ hash ∈ new, hash.length = hashLen) →
      ∃ batch, m.insertForBlockInner1 hashes.length new = .ok batch ∧
        Bucketed m (write cf batch) (hashes ++ new) := by
  induction new with
  | nil =>
      intro cf hashes h _
      rw [List.append_nil]
      exact ⟨[], rfl, h⟩
  | cons hash new ih =>
      intro cf hashes h hnew
      have hlen := hnew hash List.mem_cons_self
      obtain ⟨batch, hbatch, hrest⟩ := ih (h.insert hlen)
        fun x hx => hnew x (List.mem_cons_of_mem hash hx)
      rw [List.length_append, List.length_singleton] at hbatch
      rw [List.append_assoc] at hrest
      refine ⟨.merge (m.keyOf hash) (VarInt.encode false hashes.length) :: batch, ?_, hrest⟩
      rw [insertForBlockInner1, m.makeKeyFromHash_eq hlen, hbatch]
      rfl

/-- The row of the largest number is none of those of the hashes. -/
theorem Bucketed.save (h : Bucketed m cf hashes) (m' : TxHash2TxNumMgr)
    (hkey : m'.makeLargestTxNumSeenKey = m.makeLargestTxNumSeenKey) :
    Bucketed m (apply cf m'.saveLargestTxNumSeen) hashes := by
  have hlong := m.length_makeLargestTxNumSeenKey
  have hget : ∀ key : Bytes, key.length ≤ m.keyBytes →
      (apply cf m'.saveLargestTxNumSeen)[key]? = cf[key]? := by
    intro key hle
    have hne : m.makeLargestTxNumSeenKey ≠ key := by
      intro heq
      rw [heq] at hlong
      omega
    unfold saveLargestTxNumSeen
    rw [hkey]
    split_ifs with hpos
    · rw [get_put, if_neg hne]
    · rw [get_delete, if_neg hne]
  constructor
  · rw [not_mem_iff_getElem?, hget [] (Nat.zero_le _), ← not_mem_iff_getElem?]
    exact h.noEmptyKey
  · intro key hlen
    rw [hget key (le_of_eq hlen)]
    exact h.row key hlen

/-- An `int` holds the size of the row of a key, if there is one. -/
def ShortRow (m : TxHash2TxNumMgr) (key : Bytes) : Prop :=
  ∀ row, m.cf[key]? = some row → row.length < 2 ^ 31

theorem Bucketed.length_lt (h : Bucketed m m.cf hashes) {key : Bytes}
    (hkey : key.length = m.keyBytes) (hshort : m.ShortRow key) :
    ((positions m.keyOf key hashes).flatMap (VarInt.encode false)).length < 2 ^ 31 := by
  by_cases hnil : positions m.keyOf key hashes = []
  · rw [hnil]
    exact Nat.two_pow_pos 31
  · refine hshort _ ?_
    rw [h.row key hkey, bucket, if_neg hnil]

end Table

/-! ## Undoing a block -/

section Undo

variable {m : TxHash2TxNumMgr} {hashes : List Bytes}

theorem deserializeAll_row {nums : List Nat} (h : ∀ n ∈ nums, n < 2 ^ 64)
    (hlen : (nums.flatMap (VarInt.encode false)).length < 2 ^ 31) :
    VarInt.deserializeAll false (nums.flatMap (VarInt.encode false)).length
        (nums.flatMap (VarInt.encode false)) = .ok (nums.map fun n => (n, VarInt.encode false n)) :=
  (VarInt.deserializeAll_encode_iff h).mpr hlen

/-- The numbers from `txNum` on are taken out of a row. -/
theorem filterRow_eq {nums : List Nat} (h : ∀ n ∈ nums, n < 2 ^ 64)
    (hlen : (nums.flatMap (VarInt.encode false)).length < 2 ^ 31) (txNum : Nat) :
    filterRow txNum (nums.flatMap (VarInt.encode false)) =
      .ok ((nums.filter (· < txNum)).flatMap (VarInt.encode false)) := by
  have hfilter : ((nums.map fun n => (n, VarInt.encode false n)).filter
      fun val => ! decide (val.1 ≥ txNum)).flatMap Prod.snd =
      (nums.filter (· < txNum)).flatMap (VarInt.encode false) := by
    rw [List.filter_map, List.flatMap_map]
    congr 1
    apply List.filter_congr
    intro n _
    simp only [Function.comp_apply, ge_iff_le, ← Nat.not_lt, decide_not, Bool.not_not]
  rw [filterRow, deserializeAll_row h hlen]
  simp only [hfilter]

/-- The row of a hash that is cut off. -/
theorem Bucketed.undoRow_eq (h : Bucketed m m.cf hashes) (hsize : hashes.length < 2 ^ 64)
    {txNum : Nat} {key : Bytes} (hkey : key.length = m.keyBytes)
    (hshort : m.ShortRow key) (hmem : positions m.keyOf key hashes ≠ []) :
    m.undoRow txNum key =
      .ok ((positions m.keyOf key (hashes.take txNum)).flatMap (VarInt.encode false), true) := by
  have hlt : ∀ n ∈ positions m.keyOf key hashes, n < 2 ^ 64 :=
    fun n hn => lt_trans (lt_of_mem_positions hn) hsize
  rw [undoRow, h.row key hkey, bucket, if_neg hmem]
  simp only [filterRow_eq hlt (h.length_lt hkey hshort), ← positions_take]
  rfl

theorem undoWrites_eq (keys : List Bytes) (nums : Bytes → List Nat) :
    undoWrites
        { keySlices := keys
          valsBackToDb := keys.map fun key => (nums key).flatMap (VarInt.encode false)
          ok := keys.map fun _ => true } =
      keys.map fun key => replace key (bucket (nums key)) := by
  unfold undoWrites
  induction keys with
  | nil => rfl
  | cons key keys ih =>
      simp only [List.map_cons, List.zip_cons_cons, List.flatMap_cons, ih]
      have hempty : ((nums key).flatMap (VarInt.encode false)).isEmpty = true ↔ nums key = [] := by
        have hle := VarInt.length_le_flatMap_encode false (nums key)
        rw [List.isEmpty_iff]
        constructor
        · intro hnil
          rw [hnil] at hle
          exact List.length_eq_zero_iff.mp (Nat.le_zero.mp hle)
        · intro hnil
          rw [hnil]
          rfl
      unfold bucket
      by_cases hnil : nums key = []
      · simp [hnil, replace]
      · simp [hnil, hempty, replace]

/-- What is read before the hashes past a number are cut off. -/
theorem Bucketed.undoPhase1_eq (h : Bucketed m m.cf hashes) (hd : Holds m.dra m.draCf hashes)
    (hrec : m.dra.recSz = hashLen) {txNum : Nat} (hlt : txNum < hashes.length)
    (hshort : ∀ hash ∈ hashes.drop txNum, m.ShortRow (m.keyOf hash)) :
    m.undoPhase1 txNum =
      .ok
        { keySlices := (hashes.drop txNum).map m.keyOf
          valsBackToDb := ((hashes.drop txNum).map m.keyOf).map fun key =>
            (positions m.keyOf key (hashes.take txNum)).flatMap (VarInt.encode false)
          ok := ((hashes.drop txNum).map m.keyOf).map fun _ => true } := by
  have hcount := hd.buckets.nRecs_eq
  have hlen : ∀ hash ∈ hashes.drop txNum, hash.length = hashLen := by
    intro hash hh
    rw [← hrec]
    exact hd.buckets.records hash (List.mem_of_mem_drop hh)
  have hread : m.dra.readRecords m.draCf txNum (hashes.length - txNum) =
      (hashes.drop txNum, none) := by
    rw [hd.buckets.readRecords_ok (by omega) (by omega), List.take_of_length_le]
    rw [List.length_drop]
  have hkeys : (hashes.drop txNum).mapM m.makeKeyFromHash =
      .ok ((hashes.drop txNum).map m.keyOf) :=
    mapM_ok fun hash hh => m.makeKeyFromHash_eq (hlen hash hh)
  have hrows : ((hashes.drop txNum).map m.keyOf).mapM (m.undoRow txNum) =
      .ok (((hashes.drop txNum).map m.keyOf).map fun key =>
        ((positions m.keyOf key (hashes.take txNum)).flatMap (VarInt.encode false), true)) := by
    apply mapM_ok
    intro key hkey
    obtain ⟨hash, hh, rfl⟩ := List.mem_map.mp hkey
    obtain ⟨i, hi⟩ := List.mem_iff_getElem?.mp (List.mem_of_mem_drop hh)
    refine h.undoRow_eq hd.buckets.fits (m.length_keyOf (hlen hash hh)) (hshort hash hh) ?_
    exact List.ne_nil_of_mem (mem_positions.mpr ⟨hash, hi, rfl⟩)
  unfold undoPhase1
  dsimp only
  rw [hcount, if_neg (by omega), if_neg (by omega), hread]
  dsimp only
  rw [if_neg (by simp), hkeys, ok_bind, hrows, ok_bind]
  simp only [List.map_map]
  rfl

/-- A row that was read is short. -/
theorem Bucketed.shortRow_of_undoRow (h : Bucketed m m.cf hashes) (hsize : hashes.length < 2 ^ 64)
    {txNum : Nat} {key : Bytes} (hkey : key.length = m.keyBytes) {r : Bytes × Bool}
    (hok : m.undoRow txNum key = .ok r) : m.ShortRow key := by
  intro row hrow
  have hnums := h.row key hkey
  rw [hrow, bucket] at hnums
  split_ifs at hnums with hnil
  obtain rfl := Option.some.inj hnums
  by_contra hlong
  obtain ⟨e, he⟩ : ∃ e, VarInt.deserializeAll false
      ((positions m.keyOf key hashes).flatMap (VarInt.encode false)).length
      ((positions m.keyOf key hashes).flatMap (VarInt.encode false)) = .error e :=
    VarInt.deserializeAll_of_ge (fun n hn => lt_trans (lt_of_mem_positions hn) hsize)
      (not_lt.mp hlong)
  simp only [undoRow, hrow, filterRow, he] at hok
  cases hok

/-- The hashes past a number are cut off. -/
theorem Bucketed.truncate (h : Bucketed m m.cf hashes) (hd : Holds m.dra m.draCf hashes)
    (hrec : m.dra.recSz = hashLen) (txNum : Nat) :
    Bucketed m
      (write m.cf (((hashes.drop txNum).map m.keyOf).map fun key =>
        replace key (bucket (positions m.keyOf key (hashes.take txNum))))) (hashes.take txNum) := by
  have hlen : ∀ hash ∈ hashes, hash.length = hashLen := by
    intro hash hh
    rw [← hrec]
    exact hd.buckets.records hash hh
  constructor
  · rw [not_mem_iff_getElem?, get_write_replace, if_neg, ← not_mem_iff_getElem?]
    · exact h.noEmptyKey
    · intro hmem
      obtain ⟨hash, hh, hnil⟩ := List.mem_map.mp hmem
      exact m.keyOf_ne_nil (hlen hash (List.mem_of_mem_drop hh)) hnil
  · intro key hkey
    rw [get_write_replace]
    split_ifs with hmem
    · rfl
    · -- no number of this key is cut off
      rw [h.row key hkey, positions_take, List.filter_eq_self.mpr]
      intro n hn
      rw [decide_eq_true_iff]
      by_contra hge
      obtain ⟨hash, hget, hk⟩ := mem_positions.mp hn
      refine hmem (List.mem_map.mpr ⟨hash, List.mem_iff_getElem?.mpr ⟨n - txNum, ?_⟩, hk⟩)
      rw [List.getElem?_drop, show txNum + (n - txNum) = n by omega]
      exact hget

end Undo

/-! ## Lookups -/

/-- The index of a list of hashes. -/
structure Indexed (m : TxHash2TxNumMgr) (hashes : List Bytes) : Prop where
  holds : Holds m.dra m.draCf hashes
  recSz : m.dra.recSz = hashLen
  table : Bucketed m m.cf hashes
  largest : m.largestTxNumSeen = (hashes.length : Int) - 1

section Lookups

variable {m : TxHash2TxNumMgr} {hashes : List Bytes}

theorem Indexed.length_eq (h : Indexed m hashes) {hash : Bytes} (hh : hash ∈ hashes) :
    hash.length = hashLen := by
  rw [← h.recSz]
  exact h.holds.buckets.records hash hh

/-- The records of numbers of the chain. -/
theorem Indexed.readRandomRecords_eq (h : Indexed m hashes) {nums : List Nat}
    (hnums : ∀ n ∈ nums, n < hashes.length) :
    (m.dra.readRandomRecords m.draCf nums true).1 = nums.map fun n => hashes[n]?.getD [] := by
  rw [h.holds.readsAs.readRandomRecords, elementWise, if_pos rfl, List.map_map]
  apply List.map_congr_left
  intro n hn
  rw [Function.comp_apply, h.holds.buckets.readRecord_eq, List.getElem?_eq_getElem (hnums n hn)]
  rfl

/-- Among the records of some numbers, the first one that is the hash. -/
theorem firstMatch_map (g : Nat → Bytes) (nums : List Nat) (txHash : Bytes) :
    firstMatch (nums.map g) nums txHash = nums.find? fun n => decide (g n = txHash) := by
  unfold firstMatch
  induction nums with
  | nil => rfl
  | cons n nums ih =>
      rw [List.map_cons, List.zip_cons_cons, List.find?_cons, List.find?_cons]
      cases hd : decide (g n = txHash) with
      | true => rfl
      | false => exact ih

/-- The first number of a hash is found among those of its key. -/
theorem find?_row (m : TxHash2TxNumMgr) (hashes : List Bytes) {txHash : Bytes}
    (hlen : txHash.length = hashLen) :
    (positions m.keyOf (m.keyOf txHash) hashes).find?
      (fun n => decide (hashes[n]?.getD [] = txHash)) =
      hashes.findIdx? fun hash => decide (hash = txHash) := by
  rw [← find?_positions m.keyOf txHash hashes]
  apply Positions.find?_congr
  intro n _
  apply decide_eq_decide.mpr
  cases hget : hashes[n]? with
  | none =>
      have hne : txHash ≠ [] := by
        rintro rfl
        cases hlen
      simp [hne.symm]
  | some hash => simp

/-- `find` gives the first number of the hash. -/
theorem Indexed.find_eq (h : Indexed m hashes) {txHash : Bytes} (hlen : txHash.length = hashLen)
    (hshort : m.ShortRow (m.keyOf txHash)) :
    m.find txHash = .ok (hashes.findIdx? fun hash => decide (hash = txHash)) := by
  have hrow := h.table.row _ (m.length_keyOf hlen)
  have hlast : ∀ n ∈ positions m.keyOf (m.keyOf txHash) hashes, n < hashes.length :=
    fun n hn => lt_of_mem_positions hn
  have hfits := h.holds.buckets.fits
  have hrowLen := h.table.length_lt (m.length_keyOf hlen) hshort
  rw [find, m.makeKeyFromHash_eq hlen, ok_bind, hrow, bucket, ← find?_row m hashes hlen]
  generalize positions m.keyOf (m.keyOf txHash) hashes = nums at *
  by_cases hnil : nums = []
  · rw [if_pos hnil, hnil]
    rfl
  · have hvals := deserializeAll_row (fun n hn => lt_trans (hlast n hn) hfits) hrowLen
    have hnums : (nums.map fun n => (n, VarInt.encode false n)).map Prod.fst = nums := by
      rw [List.map_map]
      exact List.map_id nums
    rw [if_neg hnil]
    simp only [hvals, hnums, h.readRandomRecords_eq hlast, firstMatch_map]
    simp [hnil]
    rfl

/-- A lookup needs the row of the hash and the records only. -/
theorem find_congr {m' : TxHash2TxNumMgr} {txHash : Bytes} (hbytes : m'.keyBytes = m.keyBytes)
    (hpos : m'.keyPos = m.keyPos) (hdra : m'.dra = m.dra) (hdraCf : m'.draCf = m.draCf)
    (hrow : m'.cf[m.keyOf txHash]? = m.cf[m.keyOf txHash]?) :
    m'.find txHash = m.find txHash := by
  have hkey : m'.makeKeyFromHash txHash = m.makeKeyFromHash txHash := by
    simp only [makeKeyFromHash, keyOf, hbytes, hpos]
  rw [find, find, hkey, hdra, hdraCf]
  unfold makeKeyFromHash
  split_ifs
  · rfl
  · rw [ok_bind, ok_bind, hrow]

/-- The matches of several hashes, each in its range of the record numbers. -/
def matchRanges (recs : List Bytes) (recNums : List Nat) (hs : List Bytes)
    (ranges : List (Option (Nat × Nat))) : List (Option Nat) :=
  (hs.zip ranges).map fun e =>
    e.2.bind fun range =>
      firstMatch ((recs.drop range.1).take (range.2 - range.1))
        ((recNums.drop range.1).take (range.2 - range.1)) e.1

/-- The numbers of all hashes are collected, and each hash finds its own again. -/
theorem collectRecNums_eq (g : Nat → Bytes) {nums : Bytes → List Nat} {hs : List Bytes}
    (hnums : ∀ h ∈ hs, ∀ n ∈ nums h, n < 2 ^ 64)
    (hlen : ∀ h ∈ hs, ((nums h).flatMap (VarInt.encode false)).length < 2 ^ 31) :
    ∀ pre : List Nat, ∃ ranges,
      collectRecNums (hs.map fun h => bucket (nums h)) pre = .ok (pre ++ hs.flatMap nums, ranges) ∧
      ∀ post, matchRanges ((pre ++ hs.flatMap nums ++ post).map g) (pre ++ hs.flatMap nums ++ post)
        hs ranges = hs.map fun h => (nums h).find? fun n => decide (g n = h) := by
  induction hs with
  | nil =>
      intro pre
      refine ⟨[], ?_, fun post => rfl⟩
      rw [List.flatMap_nil, List.append_nil]
      rfl
  | cons h hs ih =>
      intro pre
      have hrest := ih (fun x hx => hnums x (List.mem_cons_of_mem h hx))
        fun x hx => hlen x (List.mem_cons_of_mem h hx)
      by_cases hnil : nums h = []
      · obtain ⟨ranges, hcollect, hmatch⟩ := hrest pre
        refine ⟨none :: ranges, ?_, ?_⟩
        · simp only [List.map_cons, bucket, if_pos hnil, collectRecNums]
          simp only [bucket] at hcollect
          rw [hcollect, List.flatMap_cons, hnil]
          rfl
        · intro post
          rw [List.flatMap_cons, hnil, List.nil_append, List.map_cons, ← hmatch post, hnil]
          rfl
      · obtain ⟨ranges, hcollect, hmatch⟩ := hrest (pre ++ nums h)
        have hvals := deserializeAll_row (hnums h List.mem_cons_self) (hlen h List.mem_cons_self)
        have hblob : ((nums h).flatMap (VarInt.encode false)).isEmpty = false := by
          have hle := VarInt.length_le_flatMap_encode false (nums h)
          have hpos := List.length_pos_iff.mpr hnil
          rw [List.isEmpty_eq_false_iff]
          exact List.ne_nil_of_length_pos (by omega)
        have hfst : ((nums h).map fun n => (n, VarInt.encode false n)).map Prod.fst = nums h := by
          rw [List.map_map]
          exact List.map_id _
        have hpos : pre.length + (nums h).length > pre.length := by
          have := List.length_pos_iff.mpr hnil
          omega
        refine ⟨some (pre.length, pre.length + (nums h).length) :: ranges, ?_, ?_⟩
        · simp only [List.map_cons, bucket, if_neg hnil, collectRecNums, hblob, hvals, hfst,
            List.length_map, if_pos hpos]
          simp only [bucket] at hcollect
          rw [hcollect, List.flatMap_cons, List.append_assoc]
          rfl
        · intro post
          have hall : pre ++ (h :: hs).flatMap nums ++ post =
              pre ++ nums h ++ hs.flatMap nums ++ post := by
            simp
          have hslice : ((pre ++ nums h ++ hs.flatMap nums ++ post).drop pre.length).take
              (nums h).length = nums h := by
            simp
          rw [hall, List.map_cons, ← hmatch post]
          unfold matchRanges
          rw [List.zip_cons_cons, List.map_cons]
          congr 1
          simp only [Option.bind_some, Nat.add_sub_cancel_left, ← List.map_drop, ← List.map_take,
            hslice, firstMatch_map]

/-- `findMany` finds every hash as `find` does. -/
theorem Indexed.findMany_eq (h : Indexed m hashes) {hs : List Bytes}
    (hlen : ∀ txHash ∈ hs, txHash.length = hashLen)
    (hshort : ∀ txHash ∈ hs, m.ShortRow (m.keyOf txHash)) :
    m.findMany hs =
      .ok (hs.map fun txHash => hashes.findIdx? fun hash => decide (hash = txHash)) := by
  have hkeys : hs.mapM m.makeKeyFromHash = .ok (hs.map m.keyOf) :=
    mapM_ok fun txHash hh => m.makeKeyFromHash_eq (hlen txHash hh)
  have hrows : (hs.map m.keyOf).map (m.cf[·]?) =
      hs.map fun txHash => bucket (positions m.keyOf (m.keyOf txHash) hashes) := by
    rw [List.map_map]
    apply List.map_congr_left
    intro txHash hh
    exact h.table.row _ (m.length_keyOf (hlen txHash hh))
  have hlast : ∀ txHash ∈ hs, ∀ n ∈ positions m.keyOf (m.keyOf txHash) hashes, n < hashes.length :=
    fun _ _ n hn => lt_of_mem_positions hn
  obtain ⟨ranges, hcollect, hmatch⟩ := collectRecNums_eq (fun n => hashes[n]?.getD [])
    (fun txHash hh n hn => lt_trans (hlast txHash hh n hn) h.holds.buckets.fits)
    (fun txHash hh => h.table.length_lt (m.length_keyOf (hlen txHash hh)) (hshort txHash hh)) []
  have hrecs : (m.dra.readRandomRecords m.draCf
      (hs.flatMap fun txHash => positions m.keyOf (m.keyOf txHash) hashes) true).1 =
      (hs.flatMap fun txHash => positions m.keyOf (m.keyOf txHash) hashes).map
        fun n => hashes[n]?.getD [] := by
    apply h.readRandomRecords_eq
    intro n hn
    obtain ⟨txHash, hh, hn⟩ := List.mem_flatMap.mp hn
    exact hlast txHash hh n hn
  have hresult := hmatch []
  rw [List.nil_append, List.append_nil] at hresult
  rw [List.nil_append] at hcollect
  have hfound : (hs.map fun txHash => (positions m.keyOf (m.keyOf txHash) hashes).find?
      fun n => decide (hashes[n]?.getD [] = txHash)) =
      hs.map fun txHash => hashes.findIdx? fun hash => decide (hash = txHash) := by
    apply List.map_congr_left
    intro txHash hh
    exact find?_row m hashes (hlen txHash hh)
  unfold findMany
  by_cases hnil : hs = []
  · rw [if_pos (List.isEmpty_iff.mpr hnil), hnil]
    rfl
  · rw [if_neg (by simpa using hnil), hkeys, ok_bind, hrows, hcollect, ok_bind]
    dsimp only
    rw [hrecs, if_neg (by simp), ← hfound, ← hresult]
    rfl

end Lookups

/-! ## Blocks, undos and rebuilds -/

section Steps

variable {m : TxHash2TxNumMgr} {hashes : List Bytes}

/-- Only the part of the hash that is the key matters. -/
theorem Bucketed.congr {m' : TxHash2TxNumMgr} {cf : ColumnFamily} (h : Bucketed m cf hashes)
    (hbytes : m'.keyBytes = m.keyBytes) (hpos : m'.keyPos = m.keyPos) : Bucketed m' cf hashes := by
  have hkey : m'.keyOf = m.keyOf := by
    funext bv
    simp only [keyOf, hbytes, hpos]
  refine ⟨h.noEmptyKey, fun key hlen => ?_⟩
  rw [hkey]
  exact h.row key (hlen.trans hbytes)

/-- What `insertForBlock` does to the table and to the largest number. -/
theorem Bucketed.insertForBlock (h : Bucketed m m.cf hashes)
    (hlargest : m.largestTxNumSeen = (hashes.length : Int) - 1) {new : List Bytes}
    (hnew : ∀ hash ∈ new, hash.length = hashLen) :
    ∃ batch, m.insertForBlock hashes.length new =
        .ok ({ m with largestTxNumSeen := ((hashes ++ new).length : Int) - 1 }, batch) ∧
      Bucketed m (write m.cf batch) (hashes ++ new) := by
  obtain ⟨merges, hmerges, hrows⟩ := h.inserts hnew
  rw [TxHash2TxNumMgr.insertForBlock, hmerges, ok_bind]
  by_cases hnil : new = []
  · refine ⟨merges, ?_, hrows⟩
    have hsame : ({ m with largestTxNumSeen := ((hashes ++ new).length : Int) - 1 } :
        TxHash2TxNumMgr) = m := by
      rw [hnil, List.append_nil, ← hlargest]
    rw [hsame, insertForBlockInner2, if_pos (List.isEmpty_iff.mpr hnil)]
    dsimp only
    rw [List.append_nil]
    rfl
  · have hcount :
        ((hashes.length : Int) + new.length - 1) = ((hashes ++ new).length : Int) - 1 := by
      rw [List.length_append]
      omega
    rw [insertForBlockInner2, if_neg (by simpa using hnil)]
    dsimp only
    rw [hcount]
    refine ⟨_, rfl, ?_⟩
    rw [write_append, write_singleton]
    exact hrows.save _ rfl

/-- A block is indexed and its hashes are appended to the record array, in one batch. -/
def connect (m : TxHash2TxNumMgr) (phased : Bool) (hashes : List Bytes) :
    Except Exception TxHash2TxNumMgr := do
  let insert := if phased then m.insertForBlockPhased else m.insertForBlock
  let (m, batch) ← insert m.dra.nRecs hashes
  let (dra, draCf) := m.dra.commit m.draCf none hashes
  return { m with cf := write m.cf batch, dra := dra, draCf := draCf }

/-- The hashes from `txNum` on leave the index and the record array, in one batch. -/
def disconnect (m : TxHash2TxNumMgr) (txNum : Nat) : Except Exception TxHash2TxNumMgr := do
  let (m, batch) ← m.truncateForUndoPhased txNum
  let (dra, draCf) := m.dra.commit m.draCf (some txNum) []
  return { m with cf := write m.cf batch, dra := dra, draCf := draCf }

theorem Indexed.connect (h : Indexed m hashes) (phased : Bool) {new : List Bytes}
    (hnew : ∀ hash ∈ new, hash.length = hashLen) (hfits : (hashes ++ new).length < 2 ^ 64) :
    ∃ m', m.connect phased new = .ok m' ∧ Indexed m' (hashes ++ new) := by
  obtain ⟨batch, hinsert, htable⟩ := h.table.insertForBlock h.largest hnew
  have hlist : commitList m.dra.recSz hashes none new = hashes ++ new := by
    rw [commitList, Option.elim_none, List.filter_eq_self.mpr]
    intro hash hh
    rw [h.recSz, hnew hash hh, beq_self_eq_true]
  obtain ⟨hholds, hsame⟩ := @Holds.commit _ _ _ none new h.holds (by rw [hlist]; exact hfits)
  rw [hlist] at hholds
  have hboth : (if phased then m.insertForBlockPhased else m.insertForBlock) =
      m.insertForBlock := by
    have hphased : m.insertForBlockPhased = m.insertForBlock := by
      funext n hs
      exact m.insertForBlockPhased_eq n hs
    rw [hphased, ite_self]
  rw [TxHash2TxNumMgr.connect, hboth, h.holds.buckets.nRecs_eq]
  dsimp only
  rw [hinsert, ok_bind]
  refine ⟨_, rfl, hholds, ?_, htable.congr rfl rfl, rfl⟩
  exact (congrArg DBRecordArray.recSz hsame).trans h.recSz

theorem Indexed.disconnect (h : Indexed m hashes) {txNum : Nat} (hle : txNum ≤ hashes.length)
    (hshort : ∀ hash ∈ hashes.drop txNum, m.ShortRow (m.keyOf hash)) :
    ∃ m', m.disconnect txNum = .ok m' ∧ Indexed m' (hashes.take txNum) := by
  have hfits := h.holds.buckets.fits
  have hlist : commitList m.dra.recSz hashes (some txNum) [] = hashes.take txNum := by
    rw [commitList, Option.elim_some, List.filter_nil, List.append_nil]
  obtain ⟨hholds, hsame⟩ := @Holds.commit _ _ _ (some txNum) [] h.holds
    (by rw [hlist, List.length_take]; omega)
  rw [hlist] at hholds
  have hrec := (congrArg DBRecordArray.recSz hsame).trans h.recSz
  rcases Nat.eq_or_lt_of_le hle with heq | hlt
  · have hphase : m.undoPhase1 txNum = .ok {} := by
      rw [undoPhase1, h.holds.buckets.nRecs_eq, heq]
      simp
    have hnone : m.truncateForUndoPhased txNum = .ok (m, []) := by
      rw [truncateForUndoPhased, hphase]
      rfl
    rw [TxHash2TxNumMgr.disconnect, hnone, ok_bind]
    refine ⟨_, rfl, hholds, hrec, ?_, ?_⟩
    · rw [heq, List.take_length]
      exact h.table.congr rfl rfl
    · rw [heq, List.take_length]
      exact h.largest
  · have hphase := h.table.undoPhase1_eq h.holds h.recSz hlt hshort
    have hcut := h.table.truncate h.holds h.recSz txNum
    have hmax : max ((txNum : Int) - 1) (-1) = ((hashes.take txNum).length : Int) - 1 := by
      rw [List.length_take]
      omega
    have hcount : min (min ((hashes.drop txNum).map m.keyOf).length
        (((hashes.drop txNum).map m.keyOf).map fun key =>
          (positions m.keyOf key (hashes.take txNum)).flatMap (VarInt.encode false)).length)
        (((hashes.drop txNum).map m.keyOf).map fun _ => true).length ≠ 0 := by
      simp only [List.length_map, List.length_drop]
      omega
    rw [TxHash2TxNumMgr.disconnect, truncateForUndoPhased, hphase, ok_bind, if_neg hcount,
      undoWrites_eq, hmax]
    refine ⟨_, rfl, hholds, hrec, ?_, rfl⟩
    rw [write_append, write_singleton]
    exact (hcut.save { m with largestTxNumSeen := ((hashes.take txNum).length : Int) - 1 }
      rfl).congr rfl rfl

/-- An undo that succeeds has read the rows of the hashes it cuts off. -/
theorem Indexed.shortRow_of_disconnect (h : Indexed m hashes) {txNum : Nat}
    (hle : txNum ≤ hashes.length) {m' : TxHash2TxNumMgr} (hok : m.disconnect txNum = .ok m') :
    ∀ hash ∈ hashes.drop txNum, m.ShortRow (m.keyOf hash) := by
  intro hash hh
  have hcount := h.holds.buckets.nRecs_eq
  have hlt : txNum < hashes.length := by
    have hpos := List.length_pos_of_mem hh
    rw [List.length_drop] at hpos
    omega
  have hread : m.dra.readRecords m.draCf txNum (hashes.length - txNum) =
      (hashes.drop txNum, none) := by
    rw [h.holds.buckets.readRecords_ok (by omega) (by omega), List.take_of_length_le]
    rw [List.length_drop]
  have hkeys : (hashes.drop txNum).mapM m.makeKeyFromHash =
      .ok ((hashes.drop txNum).map m.keyOf) :=
    mapM_ok fun x hx => m.makeKeyFromHash_eq (h.length_eq (List.mem_of_mem_drop hx))
  rw [TxHash2TxNumMgr.disconnect, bind_eq_ok] at hok
  obtain ⟨_, htrunc, -⟩ := hok
  rw [truncateForUndoPhased, bind_eq_ok] at htrunc
  obtain ⟨ph, hphase, -⟩ := htrunc
  unfold undoPhase1 at hphase
  dsimp only at hphase
  rw [hcount, if_neg (by omega), if_neg (by omega), hread] at hphase
  dsimp only at hphase
  rw [if_neg (by simp), hkeys, ok_bind, bind_eq_ok] at hphase
  obtain ⟨rows, hrows, -⟩ := hphase
  obtain ⟨r, hr⟩ := of_mapM_mem hrows _ (List.mem_map_of_mem hh)
  exact h.table.shortRow_of_undoRow h.holds.buckets.fits
    (m.length_keyOf (h.length_eq (List.mem_of_mem_drop hh))) hr

theorem compare_lt_append (x : Bytes) (c : UInt8) : compare x (x ++ [c]) = .lt := by
  induction x with
  | nil => rfl
  | cons a x ih =>
      rw [List.cons_append, VarInt.compare_cons, VarInt.compare_byte_self, Ordering.eq_then, ih]

/-- Every row is deleted. -/
theorem deleteAllEntries_eq (m : TxHash2TxNumMgr) (hempty : [] ∉ m.cf) :
    m.deleteAllEntries = .ok { m with largestTxNumSeen := -1, cf := ∅ } := by
  have hgone : ∀ key : Bytes, (apply m.cf (.deleteRange (m.cf.minKey?.getD [])
      (if (m.cf.maxKey?.getD []).isEmpty then m.cf.maxKey?.getD []
        else m.cf.maxKey?.getD [] ++ [0xff])))[key]? = none := by
    intro key
    by_cases hmem : key ∈ m.cf
    · obtain ⟨first, hfirst⟩ :=
        Option.isSome_iff_exists.mp (Std.ExtTreeMap.isSome_minKey?_of_mem hmem)
      obtain ⟨last, hlast⟩ :=
        Option.isSome_iff_exists.mp (Std.ExtTreeMap.isSome_maxKey?_of_mem hmem)
      obtain ⟨-, hmin⟩ := Std.ExtTreeMap.minKey?_eq_some_iff_mem_and_forall.mp hfirst
      obtain ⟨hin, hmax⟩ := Std.ExtTreeMap.maxKey?_eq_some_iff_mem_and_forall.mp hlast
      have hne : last ≠ [] := fun hnil => hempty (hnil ▸ hin)
      rw [hfirst, hlast, Option.getD_some, Option.getD_some, if_neg (by simpa using hne),
        get_deleteRange, if_pos]
      exact ⟨hmin key hmem,
        Std.TransCmp.lt_of_isLE_of_lt (hmax key hmem) (compare_lt_append last 0xff)⟩
    · rw [get_deleteRange, not_mem_iff_getElem?.mp hmem, ite_self]
  generalize hend : (if (m.cf.maxKey?.getD []).isEmpty then m.cf.maxKey?.getD []
    else m.cf.maxKey?.getD [] ++ [0xff]) = endKey at hgone
  have hcleared : apply m.cf (.deleteRange (m.cf.minKey?.getD []) endKey) = ∅ := by
    apply Std.ExtTreeMap.ext_getElem?
    intro key
    rw [hgone key]
    simp
  have hbatch : write m.cf [.deleteRange (m.cf.minKey?.getD []) endKey,
      saveLargestTxNumSeen { m with largestTxNumSeen := -1 }] = ∅ := by
    have hsplit : write m.cf [.deleteRange (m.cf.minKey?.getD []) endKey,
        saveLargestTxNumSeen { m with largestTxNumSeen := -1 }] =
        apply (apply m.cf (.deleteRange (m.cf.minKey?.getD []) endKey))
          (saveLargestTxNumSeen { m with largestTxNumSeen := -1 }) := rfl
    rw [hsplit, hcleared]
    apply Std.ExtTreeMap.ext_getElem?
    intro key
    simp [saveLargestTxNumSeen, get_delete]
  unfold deleteAllEntries
  simp only [hend, hbatch]
  simp

/-- The two have the same keys and the same records. -/
structure SameRecords (m' m : TxHash2TxNumMgr) : Prop where
  keyBytes : m'.keyBytes = m.keyBytes
  keyPos : m'.keyPos = m.keyPos
  dra : m'.dra = m.dra
  draCf : m'.draCf = m.draCf

theorem SameRecords.keyOf {m' m : TxHash2TxNumMgr} (h : SameRecords m' m) : m'.keyOf = m.keyOf := by
  funext bv
  simp only [TxHash2TxNumMgr.keyOf, h.keyBytes, h.keyPos]

/-- The rows of the first records are there. -/
structure Rebuilding (m : TxHash2TxNumMgr) (hashes : List Bytes) (i : Nat) : Prop where
  holds : Holds m.dra m.draCf hashes
  recSz : m.dra.recSz = hashLen
  le : i ≤ hashes.length
  table : Bucketed m m.cf (hashes.take i)
  largest : m.largestTxNumSeen = (i : Int) - 1

theorem Rebuilding.indexed {i : Nat} (h : Rebuilding m hashes i) (hall : i = hashes.length) :
    Indexed m hashes := by
  have htable := h.table
  rw [hall, List.take_length] at htable
  refine ⟨h.holds, h.recSz, htable, ?_⟩
  rw [h.largest, hall]

/-- The loop of a rebuild indexes the rest of the records. -/
theorem Rebuilding.rebuildLoop {batchSize : Nat} (hbatch : 0 < batchSize) {fuel : Nat} :
    ∀ {m : TxHash2TxNumMgr} {i : Nat}, Rebuilding m hashes i → hashes.length ≤ i + fuel →
      ∃ m', rebuildLoop batchSize fuel i m = .ok m' ∧ Indexed m' hashes ∧ SameRecords m' m := by
  induction fuel with
  | zero =>
      intro m i h hfuel
      exact ⟨m, rfl, h.indexed (le_antisymm h.le hfuel), rfl, rfl, rfl, rfl⟩
  | succ fuel ih =>
      intro m i h hfuel
      have hcount := h.holds.buckets.nRecs_eq
      rw [TxHash2TxNumMgr.rebuildLoop, hcount]
      by_cases hlt : i < hashes.length
      · obtain ⟨k, hk⟩ : ∃ k, min batchSize (hashes.length - i) = k := ⟨_, rfl⟩
        have hread := h.holds.buckets.readRecords_ok (by omega : 0 < k) (by omega : i + k ≤ _)
        have hlen : ((hashes.drop i).take k).length = k := by
          rw [List.length_take, List.length_drop]
          omega
        have hbase : (hashes.take i).length = i := by
          rw [List.length_take]
          omega
        have hnew : ∀ hash ∈ (hashes.drop i).take k, hash.length = hashLen := by
          intro hash hh
          rw [← h.recSz]
          exact h.holds.buckets.records hash (List.mem_of_mem_drop (List.mem_of_mem_take hh))
        obtain ⟨batch, hinsert, htable⟩ := h.table.insertForBlock
          (by rw [hbase]; exact h.largest) hnew
        rw [← List.take_add] at hinsert htable
        rw [hbase] at hinsert
        have hnext : m.insertForBlockNoBatch i ((hashes.drop i).take k) =
            .ok { m with
              cf := write m.cf batch
              largestTxNumSeen := ((i + k : Nat) : Int) - 1 } := by
          rw [insertForBlockNoBatch, hinsert, ok_bind, List.length_take, min_eq_left (by omega)]
          rfl
        rw [if_pos hlt, hk, hread]
        dsimp only
        rw [if_neg (by simp), hnext, ok_bind, hlen]
        have hstep : Rebuilding
            { m with
              cf := write m.cf batch
              largestTxNumSeen := ((i + k : Nat) : Int) - 1 } hashes (i + k) :=
          ⟨h.holds, h.recSz, by omega, htable.congr rfl rfl, rfl⟩
        obtain ⟨m', hrun, hindexed, hsame⟩ := ih hstep (by omega)
        exact ⟨m', hrun, hindexed, hsame.keyBytes, hsame.keyPos, hsame.dra, hsame.draCf⟩
      · have hall : i = hashes.length := le_antisymm h.le (not_lt.mp hlt)
        rw [if_neg hlt]
        exact ⟨m, rfl, h.indexed hall, rfl, rfl, rfl, rfl⟩

/-- A rebuild indexes the records, whatever the table was. -/
theorem rebuildDB_ok (hd : Holds m.dra m.draCf hashes) (hrec : m.dra.recSz = hashLen)
    (hempty : [] ∉ m.cf) :
    ∃ m', m.rebuildDB = .ok m' ∧ Indexed m' hashes ∧ SameRecords m' m := by
  have hcount := hd.buckets.nRecs_eq
  have hstart : Rebuilding { m with largestTxNumSeen := -1, cf := ∅ } hashes 0 := by
    refine ⟨hd, hrec, Nat.zero_le _, ⟨by simp, fun key _ => ?_⟩, rfl⟩
    rw [List.take_zero, positions_nil]
    simp [bucket]
  rw [rebuildDB, deleteAllEntries_eq m hempty, ok_bind]
  obtain ⟨m', hrun, hindexed, hsame⟩ : ∃ m', rebuildLoop 50000 m.dra.nRecs 0
      { m with largestTxNumSeen := -1, cf := ∅ } = .ok m' ∧ Indexed m' hashes ∧
        SameRecords m' { m with largestTxNumSeen := -1, cf := ∅ } :=
    hstart.rebuildLoop (by decide) (by simp [hcount])
  exact ⟨m', hrun, hindexed, hsame.keyBytes, hsame.keyPos, hsame.dra, hsame.draCf⟩

end Steps

/-! ## Runs -/

/-- An index with the hashes it was given, in order of their numbers. -/
structure IndexRun where
  mgr : TxHash2TxNumMgr
  hashes : List Bytes

/-- A run starts with empty tables. -/
def IndexRun.Start (r : IndexRun) : Prop :=
  r.hashes = [] ∧ r.mgr.cf = ∅ ∧ r.mgr.largestTxNumSeen = -1 ∧
    ∃ name pot magic, make name ∅ hashLen pot magic = .ok (r.mgr.dra, r.mgr.draCf)

/-- The steps of a run: blocks with their hashes, and undos down to a number.  Numbers have 64
bits. -/
inductive IndexStep : IndexRun → IndexRun → Prop
  | insert {r : IndexRun} {m : TxHash2TxNumMgr} {phased : Bool} {new : List Bytes}
      (hnew : ∀ hash ∈ new, hash.length = hashLen) (hfits : (r.hashes ++ new).length < 2 ^ 64)
      (hstep : r.mgr.connect phased new = .ok m) : IndexStep r ⟨m, r.hashes ++ new⟩
  | undo {r : IndexRun} {m : TxHash2TxNumMgr} {txNum : Nat} (hle : txNum ≤ r.hashes.length)
      (hstep : r.mgr.disconnect txNum = .ok m) : IndexStep r ⟨m, r.hashes.take txNum⟩

section Runs

theorem indexed_of_start {r : IndexRun} (h : r.Start) : Indexed r.mgr r.hashes := by
  obtain ⟨hhashes, hcf, hlargest, name, pot, magic, hmake⟩ := h
  obtain ⟨hholds, hrec, -⟩ := holds_make_empty hmake
  rw [hhashes]
  refine ⟨hholds, hrec, ⟨by simp [hcf], fun key _ => ?_⟩, hlargest⟩
  rw [hcf, positions_nil]
  simp [bucket]

theorem indexed_of_step {r r' : IndexRun} (h : Indexed r.mgr r.hashes) (hstep : IndexStep r r') :
    Indexed r'.mgr r'.hashes := by
  cases hstep with
  | @insert m phased new hnew hfits hstep =>
      obtain ⟨m', hm', hindexed⟩ := h.connect phased hnew hfits
      obtain rfl := Except.ok.inj (hstep.symm.trans hm')
      exact hindexed
  | undo hle hstep =>
      obtain ⟨m', hm', hindexed⟩ := h.disconnect hle (h.shortRow_of_disconnect hle hstep)
      obtain rfl := Except.ok.inj (hstep.symm.trans hm')
      exact hindexed

theorem indexed_of_reachable {r : IndexRun} (h : Reachable IndexRun.Start IndexStep r) :
    Indexed r.mgr r.hashes :=
  Reachable.invariant (I := fun r => Indexed r.mgr r.hashes) (fun _ h => indexed_of_start h)
    (fun _ _ h hst => indexed_of_step h hst) h

/-- The record of a number. -/
theorem Indexed.readRecord_iff {m : TxHash2TxNumMgr} {hashes : List Bytes} (h : Indexed m hashes)
    {n : Nat} {hash : Bytes} : m.dra.readRecord m.draCf n = .ok hash ↔ hashes[n]? = some hash := by
  rw [h.holds.buckets.readRecord_eq]
  cases hashes[n]? with
  | none => simp
  | some x => simp

/-- The first number of a hash. -/
theorem findIdx?_eq_some {hashes : List Bytes} {txHash : Bytes} {n : Nat} :
    (hashes.findIdx? fun hash => decide (hash = txHash)) = some n ↔
      hashes[n]? = some txHash ∧ ∀ k < n, hashes[k]? ≠ some txHash := by
  rw [List.findIdx?_eq_some_iff_getElem]
  constructor
  · rintro ⟨hn, hhit, hmiss⟩
    refine ⟨List.getElem?_eq_some_iff.mpr ⟨hn, decide_eq_true_iff.mp hhit⟩, ?_⟩
    intro k hk hget
    obtain ⟨hlt, heq⟩ := List.getElem?_eq_some_iff.mp hget
    exact hmiss k hk (decide_eq_true_iff.mpr heq)
  · rintro ⟨hget, hmiss⟩
    obtain ⟨hn, heq⟩ := List.getElem?_eq_some_iff.mp hget
    refine ⟨hn, decide_eq_true_iff.mpr heq, ?_⟩
    intro k hk hhit
    exact hmiss k hk (List.getElem?_eq_some_iff.mpr ⟨lt_trans hk hn, decide_eq_true_iff.mp hhit⟩)

/--
In every run a lookup finds the first number at which the record array has the
hash, and nothing if it has it nowhere, if an `int` holds the size of the row of
the hash.  Lookups of many such hashes are lookups of each, the two ways to
insert a block are the same, and a rebuild gives a table with the same lookups,
whatever was in the table before.  No block fails, and no undo that cuts off
such hashes only.
-/
theorem txid_index_of_runs {r : IndexRun} (h : Reachable IndexRun.Start IndexStep r) :
    (∀ txHash n, txHash.length = hashLen → r.mgr.ShortRow (r.mgr.keyOf txHash) →
      (r.mgr.find txHash = .ok (some n) ↔
        r.mgr.dra.readRecord r.mgr.draCf n = .ok txHash ∧
          ∀ k < n, r.mgr.dra.readRecord r.mgr.draCf k ≠ .ok txHash)) ∧
    (∀ txHash, txHash.length = hashLen → r.mgr.ShortRow (r.mgr.keyOf txHash) →
      (r.mgr.find txHash = .ok none ↔ txHash ∉ r.hashes) ∧ ∃ res, r.mgr.find txHash = .ok res) ∧
    (∀ n txHash, r.mgr.dra.readRecord r.mgr.draCf n = .ok txHash ↔ r.hashes[n]? = some txHash) ∧
    (∀ txHashes, (∀ txHash ∈ txHashes, txHash.length = hashLen) →
      (∀ txHash ∈ txHashes, r.mgr.ShortRow (r.mgr.keyOf txHash)) →
      r.mgr.findMany txHashes = txHashes.mapM r.mgr.find) ∧
    (∀ blockTxNum0 new,
      r.mgr.insertForBlockPhased blockTxNum0 new = r.mgr.insertForBlock blockTxNum0 new) ∧
    (∀ cf : ColumnFamily, [] ∉ cf → ∃ m', rebuildDB { r.mgr with cf := cf } = .ok m' ∧
      ∀ txHash, txHash.length = hashLen → m'.find txHash = r.mgr.find txHash) ∧
    [] ∉ r.mgr.cf ∧
    (∀ phased new, (∀ hash ∈ new, hash.length = hashLen) → (r.hashes ++ new).length < 2 ^ 64 →
      ∃ m', IndexStep r ⟨m', r.hashes ++ new⟩ ∧ r.mgr.connect phased new = .ok m') ∧
    ∀ txNum ≤ r.hashes.length,
      (∀ hash ∈ r.hashes.drop txNum, r.mgr.ShortRow (r.mgr.keyOf hash)) →
      ∃ m', IndexStep r ⟨m', r.hashes.take txNum⟩ := by
  have hi := indexed_of_reachable h
  refine ⟨?_, ?_, fun n txHash => hi.readRecord_iff, ?_, r.mgr.insertForBlockPhased_eq, ?_,
    hi.table.noEmptyKey, ?_, ?_⟩
  · intro txHash n hlen hshort
    rw [hi.find_eq hlen hshort, Except.ok.injEq, findIdx?_eq_some, hi.readRecord_iff]
    simp only [ne_eq, hi.readRecord_iff]
  · intro txHash hlen hshort
    rw [hi.find_eq hlen hshort]
    refine ⟨?_, _, rfl⟩
    rw [Except.ok.injEq, List.findIdx?_eq_none_iff]
    constructor
    · intro hnone hmem
      exact absurd (hnone txHash hmem) (by simp)
    · rintro hnot hash hmem
      exact decide_eq_false fun heq => hnot (heq ▸ hmem)
  · intro txHashes hlen hshort
    rw [hi.findMany_eq hlen hshort,
      mapM_ok fun txHash hh => hi.find_eq (hlen txHash hh) (hshort txHash hh)]
  · intro cf hempty
    obtain ⟨m', hm', hindexed, hsame⟩ :=
      rebuildDB_ok (m := { r.mgr with cf := cf }) hi.holds hi.recSz hempty
    refine ⟨m', hm', fun txHash hlen => ?_⟩
    have hkey : m'.keyOf = r.mgr.keyOf := hsame.keyOf
    have hkeyLen := r.mgr.length_keyOf hlen
    refine find_congr hsame.keyBytes hsame.keyPos hsame.dra hsame.draCf ?_
    rw [hi.table.row _ hkeyLen, hindexed.table.row _ (hkeyLen.trans hsame.keyBytes.symm), hkey]
  · intro phased new hnew hfits
    obtain ⟨m', hm', -⟩ := hi.connect phased hnew hfits
    exact ⟨m', .insert hnew hfits hm', hm'⟩
  · intro txNum hle hshort
    obtain ⟨m', hm', -⟩ := hi.disconnect hle hshort
    exact ⟨m', .undo hle hm'⟩

/-- The rows of a short list of hashes are short. -/
theorem Indexed.shortRow {m : TxHash2TxNumMgr} {hashes : List Bytes} (h : Indexed m hashes)
    (hcount : 9 * hashes.length < 2 ^ 31) {key : Bytes} (hkey : key.length = m.keyBytes) :
    m.ShortRow key := by
  intro row hrow
  have hnums := h.table.row key hkey
  rw [hrow, bucket] at hnums
  split_ifs at hnums
  obtain rfl := Option.some.inj hnums
  have hrowLen : ((positions m.keyOf key hashes).flatMap (VarInt.encode false)).length ≤
      9 * (positions m.keyOf key hashes).length :=
    VarInt.length_flatMap_encode_le fun n hn =>
      lt_trans (lt_of_mem_positions hn) h.holds.buckets.fits
  have hpos := length_positions_le m.keyOf key hashes
  omega

/-- Two blocks, one after the other. -/
theorem reachable_of_blocks (first second : List Bytes)
    (hfirst : ∀ hash ∈ first, hash.length = hashLen)
    (hsecond : ∀ hash ∈ second, hash.length = hashLen)
    (hfits : (first ++ second).length < 2 ^ 64) :
    ∃ r : IndexRun, Reachable IndexRun.Start IndexStep r ∧ r.hashes = first ++ second := by
  obtain ⟨⟨dra, draCf⟩, hmake⟩ : ∃ s, make "txnum2txhash" ∅ hashLen 1 7 = .ok s :=
    exists_make "txnum2txhash" 7 (by decide) (hasSingleBit_two_pow 0) (by decide)
  let r₀ : IndexRun := ⟨{ cf := ∅, dra := dra, draCf := draCf }, []⟩
  have hr₀ : Reachable IndexRun.Start IndexStep r₀ :=
    .start ⟨rfl, rfl, rfl, "txnum2txhash", 1, 7, hmake⟩
  rw [List.length_append] at hfits
  have hnil : ([] ++ first : List Bytes) = first := List.nil_append first
  obtain ⟨m₁, hm₁, -⟩ := (indexed_of_reachable hr₀).connect false hfirst
    (by rw [hnil]; omega)
  have hr₁ := hr₀.next (.insert hfirst (by rw [hnil]; omega) hm₁)
  rw [hnil] at hr₁
  obtain ⟨m₂, hm₂, -⟩ := (indexed_of_reachable hr₁).connect true hsecond
    (by rw [List.length_append]; omega)
  exact ⟨_, hr₁.next (.insert hsecond (by rw [List.length_append]; omega) hm₂), rfl⟩

/-- A hash that two blocks have is found at its first number only. -/
theorem find_of_repeated_hash :
    ∃ r : IndexRun, Reachable IndexRun.Start IndexStep r ∧
      r.mgr.dra.readRecord r.mgr.draCf 1 = .ok (List.replicate 32 5) ∧
      r.mgr.find (List.replicate 32 5) ≠ .ok (some 1) := by
  obtain ⟨r, hr, hhashes⟩ := reachable_of_blocks [List.replicate 32 5] [List.replicate 32 5]
    (by simp [hashLen]) (by simp [hashLen]) (by simp)
  have hi := indexed_of_reachable hr
  refine ⟨r, hr, ?_, ?_⟩
  · rw [hi.readRecord_iff, hhashes]
    rfl
  · have hkeyLen : (r.mgr.keyOf (List.replicate 32 5)).length = r.mgr.keyBytes :=
      r.mgr.length_keyOf (by rfl)
    rw [hi.find_eq (by rfl) (hi.shortRow (by rw [hhashes]; decide) hkeyLen), hhashes]
    decide

/-- Two hashes with the same key are told apart. -/
theorem txid_index_of_two_blocks :
    ∃ r : IndexRun, Reachable IndexRun.Start IndexStep r ∧
      r.mgr.find (List.replicate 26 2 ++ List.replicate 6 7) = .ok (some 1) ∧
      r.mgr.find (List.replicate 26 3 ++ List.replicate 6 7) = .ok none := by
  obtain ⟨r, hr, hhashes⟩ := reachable_of_blocks
    [List.replicate 26 1 ++ List.replicate 6 7] [List.replicate 26 2 ++ List.replicate 6 7]
    (by simp [hashLen]) (by simp [hashLen]) (by simp)
  obtain ⟨hsome, hnone, hrec, -⟩ := txid_index_of_runs hr
  have hi := indexed_of_reachable hr
  have hcount : 9 * r.hashes.length < 2 ^ 31 := by
    rw [hhashes]
    decide
  have hshort : ∀ txHash : Bytes, txHash.length = hashLen → r.mgr.ShortRow (r.mgr.keyOf txHash) :=
    fun txHash hlen => hi.shortRow hcount (r.mgr.length_keyOf hlen)
  refine ⟨r, hr, (hsome _ 1 (by rfl) (hshort _ (by rfl))).mpr ⟨?_, ?_⟩,
    ((hnone _ (by rfl) (hshort _ (by rfl))).1).mpr ?_⟩
  · rw [hrec, hhashes]
    rfl
  · intro k hk
    obtain rfl : k = 0 := by omega
    rw [ne_eq, hrec, hhashes]
    decide
  · rw [hhashes]
    decide

end Runs

end TxHash2TxNumMgr
end Storage
end Shulcrum
