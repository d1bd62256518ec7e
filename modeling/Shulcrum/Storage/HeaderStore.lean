import Shulcrum.Header.Verifier
import Shulcrum.Lib.Invariant
import Shulcrum.Storage.DBRecordArrayRun

/-!
# The header store

Headers of both layouts are kept in one record array, padded with zeros to the
record size and cut on reading to the length their own version word gives.
The verifier holds the last header.

A run appends headers that the verifier accepts and deletes headers from the
end.  After every run the store gives back the headers of the chain as they
came.

**Results.**
* `Stored.append`, `Stored.delete`: the steps of a run.
* `Stored.headerForHeight_eq`, `Stored.headersFromHeight_eq`: the two reads.
-/

namespace Shulcrum
namespace Storage

open BTC DBRecordArray KeyValue Invariant

/-- The header records and the verifier. -/
structure HeaderStore where
  headersDRA : DBRecordArray
  cf : ColumnFamily
  headerVerifier : HeaderVerifier := {}

namespace HeaderStore

/-! ## Operations -/

/-- `Storage::appendHeader`, with its batch committed. -/
def appendHeader (s : HeaderStore) (h : Header) (height : Nat) : Except Exception HeaderStore :=
  let targetHeight := s.headersDRA.nRecs
  if height ≠ targetHeight then
    .error (.internalError ("Bad use of appendHeader -- expected height " ++
      toString targetHeight ++ ", got height " ++ toString height))
  else
    let recSz := s.headersDRA.recSz
    if h.length > recSz then
      .error (.internalError ("Refusing to append a " ++ toString h.length ++
        "-byte header at height " ++ toString height ++ ": the record size is " ++
        toString recSz ++
        ". A chain with v2 headers needs extended_headers = true and a re-index."))
    else
      let (err, ctx) := s.headersDRA.beginBatchWrite.append (padHeaderRecord recSz h)
      match err with
      | some err =>
          .error (.databaseError ("Failed to append header " ++ toString height ++ ": " ++ err))
      | none =>
          if ctx.d.nRecs ≠ height + 1 then
            .error (.databaseError ("Failed to append header " ++ toString height ++
              ": result is bad"))
          else .ok { s with headersDRA := ctx.d, cf := write s.cf ctx.finish }

/-- `Storage::deleteHeadersPastHeight`, with its batch committed. -/
def deleteHeadersPastHeight (s : HeaderStore) (height : Nat) : Except Exception HeaderStore :=
  let newNumRecords := (height + 1) % 2 ^ 32
  let (err, ctx) := s.headersDRA.beginBatchWrite.truncate s.cf newNumRecords
  match err with
  | some err =>
      .error (.databaseError ("Failed to truncate headers past height " ++ toString height ++
        ": " ++ err))
  | none =>
      if ctx.d.nRecs = 0 ∨ ctx.d.nRecs ≠ newNumRecords then
        .error (.internalError "header truncate resulted in an unexepected value")
      else .ok { s with headersDRA := ctx.d, cf := write s.cf ctx.finish }

/-- A number as a 32-bit `int`. -/
def toInt32 (n : Int) : Int := n.bmod (2 ^ 32)

/-- `Storage::latestTip`: the height and the header, or `-1` without one. -/
def latestTip (s : HeaderStore) : Int × Header :=
  if s.headerVerifier.prev = [] ∨ toInt32 s.headerVerifier.prevHeight < 0 then (-1, [])
  else (toInt32 s.headerVerifier.prevHeight, s.headerVerifier.prev)

/-- `Storage::headerForHeight_nolock`. -/
def headerForHeightNolock (s : HeaderStore) (height : Nat) : Except String Header :=
  match s.headersDRA.readRecord s.cf height with
  | .error err1 => .error ("failed to read header " ++ toString height ++ ": " ++ err1)
  | .ok rec => .ok (trimHeaderRecord rec)

/-- `Storage::headerForHeight`. -/
def headerForHeight (s : HeaderStore) (height : Nat) : Except String Header :=
  let (tipHeight, tipheader) := s.latestTip
  if toInt32 height = tipHeight ∧ toInt32 height ≥ 0 then .ok tipheader
  else if toInt32 height < tipHeight ∧ toInt32 height ≥ 0 then s.headerForHeightNolock height
  else .error ("Height " ++ toString height ++ " is out of range")

/-- `Storage::headersFromHeight_nolock_nocheck`. -/
def headersFromHeightNocheck (s : HeaderStore) (height num : Nat) :
    List Header × Option String :=
  let (recs, err) := s.headersDRA.readRecords s.cf height num
  let ret := recs.map trimHeaderRecord
  (ret, if ret.length ≠ num ∧ err = none then
      some "short header count returned from headers file"
    else err)

/-- `Storage::headersFromHeight`. -/
def headersFromHeight (s : HeaderStore) (height count : Nat) : List Header × Option String :=
  let num := min (toInt32 (1 + s.latestTip.1 - toInt32 height)) (toInt32 count)
  if num > 0 then s.headersFromHeightNocheck height count
  else ([], some "No headers in the specified range")

/-! ## Runs -/

/-- A header goes through the verifier and is appended at the height after the tip, as in
`Storage::addBlock`.  After a failed append the verifier is as it was before. -/
def addHeader (C : Crypto) (s : HeaderStore) (h : Header) : Option HeaderStore :=
  match s.headerVerifier.onBytes C h with
  | (.error _, _) => none
  | (.ok (), v) =>
      match s.appendHeader h v.prevHeight.toNat with
      | .error _ => none
      | .ok s => some { s with headerVerifier := v }

/-- The headers past `height` go, and the verifier goes back to the header at `height`, as in
`Storage::undoLatestBlock`. -/
def rollback (s : HeaderStore) (height : Nat) : Option HeaderStore :=
  match s.headerForHeightNolock height with
  | .error _ => none
  | .ok prevHeader =>
      match s.deleteHeadersPastHeight height with
      | .error _ => none
      | .ok s => some { s with headerVerifier := HeaderVerifier.reset (height + 1) prevHeader }

/-- A store with the headers it was given, in order of their heights. -/
structure HeaderRun where
  store : HeaderStore
  headers : List Header

/-- A run starts with an empty table and a fresh verifier. -/
def HeaderRun.Start (r : HeaderRun) : Prop :=
  ∃ name recSz pot magic, make name ∅ recSz pot magic = .ok (r.store.headersDRA, r.store.cf) ∧
    r.store.headerVerifier = {} ∧ r.headers = []

/-- The steps of a run.  Heights are 32-bit `int`s. -/
inductive HeaderStep (C : Crypto) : HeaderRun → HeaderRun → Prop
  | append {s s' : HeaderStore} {headers : List Header} {h : Header}
      (hfits : headers.length + 1 < 2 ^ 31) (hstep : s.addHeader C h = some s') :
      HeaderStep C ⟨s, headers⟩ ⟨s', headers ++ [h]⟩
  | delete {s s' : HeaderStore} {headers : List Header} {height : Nat}
      (hheight : height < headers.length) (hstep : s.rollback height = some s') :
      HeaderStep C ⟨s, headers⟩ ⟨s', headers.take (height + 1)⟩

/-! ## The invariant -/

/-- The store holds the padded headers, and the verifier the last one. -/
structure Stored (s : HeaderStore) (headers : List Header) : Prop where
  holds : Holds s.headersDRA s.cf (headers.map (padHeaderRecord s.headersDRA.recSz))
  wellFormed : ∀ h ∈ headers, HeaderVerifier.WellFormed h
  small : ∀ h ∈ headers, h.length ≤ s.headersDRA.recSz
  fits : headers.length < 2 ^ 31
  verifier : s.headerVerifier =
    { prevHeight := (headers.length : Int) - 1, prev := headers.getLast?.getD [] }

section Steps

variable {s s' : HeaderStore} {headers : List Header}

/-- A well-formed header is cut back from its record. -/
theorem trimHeaderRecord_padHeaderRecord {h : Header} (hwf : HeaderVerifier.WellFormed h)
    (recSz : Nat) : trimHeaderRecord (padHeaderRecord recSz h) = h := by
  obtain ⟨hdr, -, hser⟩ := exists_deserialize hwf.length hwf.ne_nil
  rw [← hser]
  exact trimHeaderRecord_pad recSz hdr

theorem length_padHeaderRecord {recSz : Nat} {h : Header} (hle : h.length ≤ recSz) :
    (padHeaderRecord recSz h).length = recSz := by
  simp [padHeaderRecord]
  omega

/-- A start has no headers. -/
theorem stored_of_start {r : HeaderRun} (h : r.Start) : Stored r.store r.headers := by
  obtain ⟨name, recSz, pot, magic, hmake, hverifier, hheaders⟩ := h
  rw [hheaders]
  refine ⟨(holds_make_empty hmake).1, ?_, ?_, by simp, ?_⟩
  · intro h hh
    exact absurd hh List.not_mem_nil
  · intro h hh
    exact absurd hh List.not_mem_nil
  · rw [hverifier]
    rfl

theorem toInt32_of_lt {n : Int} (h0 : -(2 ^ 31) ≤ n) (h : n < 2 ^ 31) : toInt32 n = n := by
  unfold toInt32
  rw [Int.bmod_eq_of_le (by omega) (by omega)]

/-- The record of a header. -/
theorem Stored.readRecord_eq (h : Stored s headers) {i : Nat} {hdr : Header}
    (hi : headers[i]? = some hdr) :
    s.headersDRA.readRecord s.cf i = .ok (padHeaderRecord s.headersDRA.recSz hdr) := by
  rw [h.holds.buckets.readRecord_eq, List.getElem?_map, hi]
  rfl

theorem Stored.headerForHeightNolock_eq (h : Stored s headers) {i : Nat} {hdr : Header}
    (hi : headers[i]? = some hdr) : s.headerForHeightNolock i = .ok hdr := by
  have hwf := h.wellFormed hdr (List.mem_of_getElem? hi)
  rw [headerForHeightNolock, h.readRecord_eq hi]
  simp only [trimHeaderRecord_padHeaderRecord hwf]

/-- What an append and a cut of the record array are, as batches. -/
theorem Stored.commit (h : Stored s headers) (cut : Option Nat) (recs : List Bytes)
    (hfits : (commitList s.headersDRA.recSz
      (headers.map (padHeaderRecord s.headersDRA.recSz)) cut recs).length < 2 ^ 31) :
    Holds (s.headersDRA.commit s.cf cut recs).1 (s.headersDRA.commit s.cf cut recs).2
        (commitList s.headersDRA.recSz (headers.map (padHeaderRecord s.headersDRA.recSz)) cut
          recs) ∧
      (s.headersDRA.commit s.cf cut recs).1.recSz = s.headersDRA.recSz := by
  obtain ⟨hholds, hsame⟩ := h.holds.commit (lt_trans hfits (by norm_num))
  exact ⟨hholds, (congrArg DBRecordArray.recSz hsame).trans rfl⟩

/-- Appending a header that the verifier accepts and that fits in a record. -/
theorem Stored.append {C : Crypto} {h : Header} (hs : Stored s headers)
    (hfits : headers.length + 1 < 2 ^ 31) (hok : (s.headerVerifier.onBytes C h).1 = .ok ())
    (hsmall : h.length ≤ s.headersDRA.recSz) :
    ∃ s', s.addHeader C h = some s' ∧ Stored s' (headers ++ [h]) ∧
      s'.headersDRA.recSz = s.headersDRA.recSz := by
  obtain ⟨hwf, -⟩ := (HeaderVerifier.onBytes_accepts_iff C).mp hok
  have hv := HeaderVerifier.onBytes_accepted C hok
  have hpad := length_padHeaderRecord hsmall
  have hcount : s.headersDRA.nRecs = headers.length := by
    rw [hs.holds.buckets.nRecs_eq, List.length_map]
  have hlist : commitList s.headersDRA.recSz (headers.map (padHeaderRecord s.headersDRA.recSz))
      none [padHeaderRecord s.headersDRA.recSz h] =
      (headers ++ [h]).map (padHeaderRecord s.headersDRA.recSz) := by
    simp [commitList, hpad]
  obtain ⟨hholds, hrec⟩ := hs.commit none
    [padHeaderRecord s.headersDRA.recSz h] (by rw [hlist]; simpa using hfits)
  rw [hlist] at hholds
  have hend := hholds.buckets.nRecs_eq
  rw [List.length_map, List.length_append, List.length_singleton] at hend
  generalize hc : s.headersDRA.commit s.cf none [padHeaderRecord s.headersDRA.recSz h] = r
    at hholds hrec hend
  have hctx : s.headersDRA.beginBatchWrite.append (padHeaderRecord s.headersDRA.recSz h) =
      (none, (s.headersDRA.beginBatchWrite.append (padHeaderRecord s.headersDRA.recSz h)).2) :=
    Prod.ext (append_fst hpad) rfl
  have happend : s.appendHeader h headers.length =
      .ok { s with headersDRA := r.1, cf := r.2 } := by
    have hd : (s.headersDRA.beginBatchWrite.append (padHeaderRecord s.headersDRA.recSz h)).2.d =
        r.1 := congrArg Prod.fst hc
    have hcf : write s.cf
        (s.headersDRA.beginBatchWrite.append (padHeaderRecord s.headersDRA.recSz h)).2.finish =
        r.2 := congrArg Prod.snd hc
    unfold appendHeader
    rw [hcount, if_neg (not_not.mpr rfl), if_neg (by omega), hctx]
    simp only [hd, hcf]
    rw [if_neg (not_not.mpr hend)]
  have hheight : ((s.headerVerifier.onBytes C h).2).prevHeight.toNat = headers.length := by
    rw [hv, hs.verifier]
    simp
  refine ⟨{ headersDRA := r.1, cf := r.2, headerVerifier := (s.headerVerifier.onBytes C h).2 },
    ?_, ?_, hrec⟩
  · unfold addHeader
    generalize hout : s.headerVerifier.onBytes C h = out at hok hheight
    obtain ⟨res, v⟩ := out
    simp only at hok hheight
    subst hok
    simp only [hheight, happend]
  · constructor
    · rw [hrec]
      exact hholds
    · intro h' hh'
      rcases List.mem_append.mp hh' with hh' | hh'
      · exact hs.wellFormed h' hh'
      · rw [List.mem_singleton.mp hh']
        exact hwf
    · intro h' hh'
      rw [hrec]
      rcases List.mem_append.mp hh' with hh' | hh'
      · exact hs.small h' hh'
      · rw [List.mem_singleton.mp hh']
        exact hsmall
    · simpa using hfits
    · rw [hv, hs.verifier]
      simp

/-- Deleting the headers past a height of the chain. -/
theorem Stored.delete {height : Nat} (hs : Stored s headers) (hheight : height < headers.length) :
    ∃ s', s.rollback height = some s' ∧ Stored s' (headers.take (height + 1)) := by
  have hfits := hs.fits
  have hget : headers[height]? = some headers[height] := List.getElem?_eq_getElem hheight
  have hlist : commitList s.headersDRA.recSz (headers.map (padHeaderRecord s.headersDRA.recSz))
      (some (height + 1)) [] =
      (headers.take (height + 1)).map (padHeaderRecord s.headersDRA.recSz) := by
    simp [commitList, List.map_take]
  have hlen : (headers.take (height + 1)).length = height + 1 := by
    rw [List.length_take]
    omega
  obtain ⟨hholds, hrec⟩ := hs.commit (some (height + 1)) []
    (by rw [hlist, List.length_map, hlen]; omega)
  rw [hlist] at hholds
  have hend := hholds.buckets.nRecs_eq
  rw [List.length_map, hlen] at hend
  obtain ⟨c, hc, -⟩ := hs.holds.buckets.truncate (height + 1)
  have hcommit : s.headersDRA.commit s.cf (some (height + 1)) [] = (c.d, write s.cf c.finish) := by
    simp only [DBRecordArray.commit, batchContext, Option.elim_some, hc, List.foldl_nil]
  rw [hcommit] at hholds hrec hend
  have hwrap : (height + 1) % 2 ^ 32 = height + 1 := Nat.mod_eq_of_lt (by omega)
  have hdelete : s.deleteHeadersPastHeight height =
      .ok { s with headersDRA := c.d, cf := write s.cf c.finish } := by
    unfold deleteHeadersPastHeight
    simp only [hwrap, hc]
    simp only at hend
    rw [if_neg (by omega)]
  refine ⟨{
    headersDRA := c.d
    cf := write s.cf c.finish
    headerVerifier := HeaderVerifier.reset (height + 1) headers[height] }, ?_, ?_⟩
  · simp only [rollback, hs.headerForHeightNolock_eq hget, hdelete]
  · constructor
    · rw [show c.d.recSz = s.headersDRA.recSz from hrec]
      exact hholds
    · intro h hh
      exact hs.wellFormed h (List.mem_of_mem_take hh)
    · intro h hh
      rw [show c.d.recSz = s.headersDRA.recSz from hrec]
      exact hs.small h (List.mem_of_mem_take hh)
    · rw [hlen]
      omega
    · have hlast : (headers.take (height + 1)).getLast? = some headers[height] := by
        rw [List.getLast?_take, if_neg (by omega)]
        simp [hget]
      simp only [hlast, hlen, HeaderVerifier.reset, Option.getD_some]

end Steps
section Reads

variable {s : HeaderStore} {headers : List Header}

theorem Stored.latestTip_eq (h : Stored s headers) :
    s.latestTip = ((headers.length : Int) - 1, headers.getLast?.getD []) := by
  have hfits := h.fits
  have hint : toInt32 ((headers.length : Int) - 1) = (headers.length : Int) - 1 :=
    toInt32_of_lt (by omega) (by omega)
  unfold latestTip
  simp only [h.verifier, hint]
  cases headers using List.reverseRecOn with
  | nil => simp
  | append_singleton l a =>
      have hne : a ≠ [] := (h.wellFormed a (by simp)).ne_nil
      simp [hne]

/-- A header is read at its height, and none past the tip. -/
theorem Stored.headerForHeight_eq (h : Stored s headers) {height : Nat} (hh : height < 2 ^ 32) :
    s.headerForHeight height =
      headers[height]?.elim (.error ("Height " ++ toString height ++ " is out of range")) .ok := by
  have hfits := h.fits
  unfold headerForHeight
  rw [h.latestTip_eq]
  dsimp only
  by_cases hsmall : height < 2 ^ 31
  · rw [toInt32_of_lt (by omega) (by omega)]
    by_cases htip : (height : Int) = headers.length - 1
    · have hlen : headers.length = height + 1 := by omega
      have hlast : headers.getLast? = headers[height]? := by
        rw [List.getLast?_eq_getElem?, hlen, Nat.add_sub_cancel]
      have hget : headers[height]? = some headers[height] := List.getElem?_eq_getElem (by omega)
      rw [if_pos ⟨htip, by omega⟩, hlast, hget]
      rfl
    · rw [if_neg fun hc => htip hc.1]
      by_cases hlt : height < headers.length
      · have hget : headers[height]? = some headers[height] := List.getElem?_eq_getElem hlt
        rw [if_pos ⟨by omega, by omega⟩, h.headerForHeightNolock_eq hget, hget]
        rfl
      · rw [if_neg (by omega), List.getElem?_eq_none (by omega)]
        rfl
  · -- as an `int` the height is negative
    have hneg : toInt32 (height : Int) < 0 := by
      simp only [toInt32, Int.bmod]
      omega
    rw [if_neg (by omega), if_neg (by omega), List.getElem?_eq_none (by omega)]
    rfl

/-- Trimming the records gives the headers back. -/
theorem Stored.map_trimHeaderRecord (h : Stored s headers) {l : List Header}
    (hl : ∀ hdr ∈ l, hdr ∈ headers) (recSz : Nat) :
    (l.map (padHeaderRecord recSz)).map trimHeaderRecord = l := by
  rw [List.map_map]
  conv_rhs => rw [← List.map_id l]
  apply List.map_congr_left
  intro hdr hhdr
  exact trimHeaderRecord_padHeaderRecord (h.wellFormed hdr (hl hdr hhdr)) recSz

/-- An empty range starts past the tip or asks for nothing. -/
theorem clamp_eq_zero {len start count : Nat} (hlen : len < 2 ^ 31) (hstart : start < 2 ^ 32)
    (hcount : count < 2 ^ 31)
    (hnum : ¬ min (toInt32 (1 + ((len : Int) - 1) - toInt32 start)) (toInt32 count) > 0) :
    len ≤ start ∨ count = 0 := by
  have hc : toInt32 count = count := toInt32_of_lt (by omega) (by omega)
  by_cases hsmall : start < 2 ^ 31
  · have hs : toInt32 start = start := toInt32_of_lt (by omega) (by omega)
    have hd : toInt32 (1 + ((len : Int) - 1) - start) = 1 + ((len : Int) - 1) - start :=
      toInt32_of_lt (by omega) (by omega)
    rw [hs, hd, hc] at hnum
    omega
  · left
    omega

theorem Stored.headersFromHeightNocheck_eq (h : Stored s headers) (start num : Nat) :
    (s.headersFromHeightNocheck start num).1 = (headers.drop start).take num := by
  have hread := h.holds.readsAs.readRecords start num
  rw [← List.map_drop, ← List.map_take] at hread
  have hret : (s.headersFromHeightNocheck start num).1 =
      (s.headersDRA.readRecords s.cf start num).1.map trimHeaderRecord := rfl
  rw [hret, hread]
  apply h.map_trimHeaderRecord
  intro hdr hhdr
  exact List.mem_of_mem_drop (List.mem_of_mem_take hhdr)

theorem headersFromHeight_of_pos {start count : Nat}
    (hnum : min (toInt32 (1 + s.latestTip.1 - toInt32 start)) (toInt32 count) > 0) :
    s.headersFromHeight start count = s.headersFromHeightNocheck start count := by
  simp only [headersFromHeight, hnum, if_true]

theorem headersFromHeight_of_not_pos {start count : Nat}
    (hnum : ¬ min (toInt32 (1 + s.latestTip.1 - toInt32 start)) (toInt32 count) > 0) :
    (s.headersFromHeight start count).1 = [] := by
  simp only [headersFromHeight, hnum, if_false]

/-- The headers of a range are read in order, up to the tip. -/
theorem Stored.headersFromHeight_eq (h : Stored s headers) {start count : Nat}
    (hstart : start < 2 ^ 32) (hcount : count < 2 ^ 31) :
    (s.headersFromHeight start count).1 = (headers.drop start).take count := by
  have htip : s.latestTip.1 = (headers.length : Int) - 1 := congrArg Prod.fst h.latestTip_eq
  by_cases hnum : min (toInt32 (1 + s.latestTip.1 - toInt32 start)) (toInt32 count) > 0
  · rw [headersFromHeight_of_pos hnum, h.headersFromHeightNocheck_eq]
  · rw [headersFromHeight_of_not_pos hnum]
    rw [htip] at hnum
    rcases clamp_eq_zero h.fits hstart hcount hnum with hpast | hzero
    · rw [List.drop_eq_nil_of_le hpast, List.take_nil]
    · rw [hzero, List.take_zero]

end Reads
section Runs

variable {C : Crypto}

/-- The verifier accepts the header, and it fits in a record, when it was appended. -/
theorem addHeader_some {s s' : HeaderStore} {h : Header} (hstep : s.addHeader C h = some s') :
    (s.headerVerifier.onBytes C h).1 = .ok () ∧ h.length ≤ s.headersDRA.recSz := by
  unfold addHeader at hstep
  cases hout : s.headerVerifier.onBytes C h with
  | mk res v =>
      rw [hout] at hstep
      cases res with
      | error e => cases hstep
      | ok u =>
          refine ⟨rfl, ?_⟩
          by_contra hbig
          have hfail : ∃ e, s.appendHeader h v.prevHeight.toNat = .error e := by
            unfold appendHeader
            by_cases hheight : v.prevHeight.toNat = s.headersDRA.nRecs
            · rw [if_neg (not_not.mpr hheight), if_pos (Nat.lt_of_not_le hbig)]
              exact ⟨_, rfl⟩
            · rw [if_pos hheight]
              exact ⟨_, rfl⟩
          obtain ⟨e, he⟩ := hfail
          simp only [he] at hstep
          cases hstep

theorem stored_of_step {r r' : HeaderRun} (h : Stored r.store r.headers)
    (hstep : HeaderStep C r r') : Stored r'.store r'.headers := by
  cases hstep with
  | append hfits hstep =>
      obtain ⟨hok, hsmall⟩ := addHeader_some hstep
      obtain ⟨s', hs', hstored, -⟩ := h.append hfits hok hsmall
      obtain rfl := Option.some.inj (hstep.symm.trans hs')
      exact hstored
  | delete hheight hstep =>
      obtain ⟨s', hs', hstored⟩ := h.delete hheight
      obtain rfl := Option.some.inj (hstep.symm.trans hs')
      exact hstored

theorem stored_of_reachable {r : HeaderRun}
    (h : Reachable HeaderRun.Start (HeaderStep C) r) : Stored r.store r.headers :=
  Reachable.invariant (I := fun r => Stored r.store r.headers) (fun _ h => stored_of_start h)
    (fun _ _ h hst => stored_of_step h hst) h

/-- In every run the store gives back the headers it was given, and takes every header that the
verifier accepts and that fits in a record, and every deletion down to a height of the chain.
The server asks for at most 2016 headers at a time. -/
theorem header_store_faithful {r : HeaderRun} (h : Reachable HeaderRun.Start (HeaderStep C) r) :
    (∀ height, height < 2 ^ 32 → r.store.headerForHeight height = r.headers[height]?.elim
      (.error ("Height " ++ toString height ++ " is out of range")) .ok) ∧
    (∀ start count, start < 2 ^ 32 → count < 2 ^ 31 →
      (r.store.headersFromHeight start count).1 = (r.headers.drop start).take count) ∧
    (∀ hdr, (r.store.headerVerifier.onBytes C hdr).1 = .ok () →
      hdr.length ≤ r.store.headersDRA.recSz → r.headers.length + 1 < 2 ^ 31 →
      ∃ s', HeaderStep C r ⟨s', r.headers ++ [hdr]⟩) ∧
    ∀ height, height < r.headers.length →
      ∃ s', HeaderStep C r ⟨s', r.headers.take (height + 1)⟩ := by
  have hs := stored_of_reachable h
  refine ⟨fun height => hs.headerForHeight_eq, fun start count => hs.headersFromHeight_eq,
    ?_, ?_⟩
  · intro hdr hok hsmall hfits
    obtain ⟨s', hs', -⟩ := hs.append hfits hok hsmall
    exact ⟨s', HeaderStep.append hfits hs'⟩
  · intro height hheight
    obtain ⟨s', hs', -⟩ := hs.delete hheight
    exact ⟨s', HeaderStep.delete hheight hs'⟩

/-- A hash that is always zero. -/
def noHash : Crypto := ⟨fun _ => 0, fun _ => 0⟩

theorem wellFormed_sampleHeader (v2 : Bool) :
    HeaderVerifier.WellFormed (sampleHeader v2).serialize :=
  ⟨length_serialize _, _, deserialize_serialize _, by cases v2 <;> decide⟩

theorem length_sampleHeader (v2 : Bool) :
    (sampleHeader v2).serialize.length = if v2 then 164 else 80 := by
  cases v2 <;> simp [CBlockHeader.serialize, sampleHeader]

theorem linksTo_sampleHeader :
    HeaderVerifier.LinksTo noHash (sampleHeader false).serialize (sampleHeader true).serialize := by
  refine ⟨_, deserialize_serialize _, ?_⟩
  rw [HeaderVerifier.PoWHash, if_neg (by rw [isHeaderV2_serialize]; decide)]
  exact ⟨rfl, rfl⟩

/-- A run that stores a header of 80 bytes and one of 164 bytes in records of 164 bytes, reads
them and deletes the second one. -/
theorem header_store_faithful_bothLayouts :
    ∃ r : HeaderRun, Reachable HeaderRun.Start (HeaderStep noHash) r ∧
      r.headers = [(sampleHeader false).serialize, (sampleHeader true).serialize] ∧
      r.headers.map List.length = [80, 164] ∧
      r.store.headerForHeight 0 = .ok (sampleHeader false).serialize ∧
      (r.store.headersFromHeight 0 2016).1 = r.headers ∧
      ∃ s', HeaderStep noHash r ⟨s', [(sampleHeader false).serialize]⟩ := by
  obtain ⟨⟨d, cf⟩, hmake⟩ : ∃ s, make "headers" ∅ 164 1 7 = .ok s :=
    exists_make "headers" 7 (by omega) (hasSingleBit_two_pow 0) (by omega)
  have hstart : HeaderRun.Start ⟨⟨d, cf, {}⟩, []⟩ := ⟨"headers", 164, 1, 7, hmake, rfl, rfl⟩
  have hrec : d.recSz = 164 := (holds_make_empty hmake).2.1
  have hok : ((⟨d, cf, {}⟩ : HeaderStore).headerVerifier.onBytes noHash
      (sampleHeader false).serialize).1 = .ok () :=
    (HeaderVerifier.onBytes_accepts_iff noHash).mpr
      ⟨wellFormed_sampleHeader false, fun hne => absurd rfl hne⟩
  obtain ⟨s, hs, hstored, hsame⟩ := (stored_of_start hstart).append
    (Nat.one_lt_two_pow (by decide)) hok (by rw [hrec, length_sampleHeader]; decide)
  have hok' : (s.headerVerifier.onBytes noHash (sampleHeader true).serialize).1 = .ok () := by
    refine (HeaderVerifier.onBytes_accepts_iff noHash).mpr ⟨wellFormed_sampleHeader true, ?_⟩
    intro _
    rw [hstored.verifier]
    exact linksTo_sampleHeader
  obtain ⟨s', hs', -⟩ := hstored.append (Nat.lt_two_pow_self.trans' (by simp)) hok'
    (by rw [hsame, hrec, length_sampleHeader]; decide)
  have hr := (Reachable.start hstart).next
    (HeaderStep.append (Nat.one_lt_two_pow (by decide)) hs)
  have hr' := hr.next (HeaderStep.append (Nat.lt_two_pow_self.trans' (by simp)) hs')
  obtain ⟨hone, hmany, -, hdelete⟩ := header_store_faithful hr'
  exact ⟨_, hr', rfl, by simp [length_sampleHeader], hone 0 (by decide),
    hmany 0 2016 (by decide) (by decide), hdelete 0 (Nat.zero_lt_succ _)⟩

end Runs
end HeaderStore
end Storage
end Shulcrum
