import Shulcrum.Storage.Restore

/-!
# What the startup establishes

The tables may hold anything, and the startup with `--checkdb` given twice
passes.  Then the headers are linked, the blocks share out the transaction
numbers, and the two tables of unspent outputs say the same.  The checks look at
one row at a time; that no row is missing follows from the counts.

**Results.**
* `startup_eq_ok`: the steps of a startup that passes.
* `consistent_of_startup`: the tables that pass.
-/

namespace Shulcrum
namespace Storage

open TreeMap Fallible ChainIndex

variable {H : Hashers} {opts : Options} {checks : Nat} {db : Database} {s : State}
  {ix ix' : ChainIndex}

/-! ## What the loads leave alone -/

/-- The tables that no check of the startup changes. -/
structure HasTables (db : Database) (ix : ChainIndex) : Prop where
  headers : ix.headers = db.headers
  blkinfo : ix.blkinfo = db.blkinfo
  txNums : ix.txNums = db.txNums
  utxoset : ix.utxos.utxoset = db.utxoset
  shunspent : ix.utxos.shunspent = db.shunspent

/-- The values in memory of the blocks up to now. -/
structure BlocksLoaded (ix : ChainIndex) : Prop where
  blkinfo : ∀ k bi, ix.blkInfos[k]? = some bi → ix.blkinfo[k]? = some bi ∧
    bi.txNum0 = ((ix.blkInfos.take k).map BlkInfo.nTx).sum
  txNumNext : ix.txNumNext = (ix.blkInfos.map BlkInfo.nTx).sum

section Loads

theorem loadCheckHeadersInDB_eq_ok (h : loadCheckHeadersInDB H ix = .ok ix') :
    ix.headers.length % 2 ^ 32 ≤ maxHeaders ∧
      ∃ v, ((ix.headers.take (ix.headers.length % 2 ^ 32)).map BTC.trimHeaderRecord).foldlM
        (loadHeader H) {} = .ok v ∧ ix' = { ix with headerVerifier := v } := by
  simp only [loadCheckHeadersInDB] at h
  split_ifs at h with hmax
  refine ⟨not_lt.mp hmax, ?_⟩
  cases hloop : ((ix.headers.take (ix.headers.length % 2 ^ 32)).map
      BTC.trimHeaderRecord).foldlM (loadHeader H) {} with
  | error e =>
      rw [hloop] at h
      cases h
  | ok v =>
      rw [hloop] at h
      exact ⟨v, rfl, (Except.ok.inj h).symm⟩

theorem loadBlkInfo_eq_ok {i : Nat} (h : loadBlkInfo ix i = .ok ix') :
    ∃ bi, ix.blkinfo[i]? = some bi ∧ bi.txNum0 = ix.txNumNext ∧
      ix' =
        { ix with
          txNumNext := ix.txNumNext + bi.nTx
          blkInfos := ix.blkInfos ++ [bi]
          blkInfosByTxNum := ix.blkInfosByTxNum.insert bi.txNum0 ix.blkInfos.length } := by
  unfold loadBlkInfo at h
  cases hget : ix.blkinfo[i]? with
  | none =>
      simp only [hget] at h
      cases h
  | some bi =>
      simp only [hget] at h
      split_ifs at h with hnum
      exact ⟨bi, rfl, not_not.mp hnum, (Except.ok.inj h).symm⟩

/-- The blocks of a table whose checks passed. -/
theorem loadCheckTxNums_eq_ok (hdb : HasTables db ix) (hempty : ix.blkInfos = [])
    (hzero : ix.txNumNext = 0) {cf : ColumnFamily}
    (h : loadCheckTxNumsDRAAndBlkInfo checks cf ix = .ok ix') :
    HasTables db ix' ∧ ix'.headerVerifier = ix.headerVerifier ∧ BlocksLoaded ix' ∧
      ix'.blkInfos.length = (ix.tipHeight + 1).toNat ∧ ix'.txNumNext = db.txNums.length := by
  unfold loadCheckTxNumsDRAAndBlkInfo at h
  cases hloop : (List.range (ix.tipHeight + 1).toNat).foldlM loadBlkInfo ix with
  | error e =>
      rw [hloop] at h
      cases h
  | ok ix₁ =>
      simp only [hloop] at h
      rw [ite_eq_iff, or_iff_right (fun herr => by cases herr.2)] at h
      obtain ⟨hct, h⟩ := h
      obtain rfl : ix₁ = ix' := by
        split_ifs at h with htwo
        · cases hbuckets : verifyTxNums cf ix₁.txNumNext with
          | error e =>
              rw [hbuckets] at h
              cases h
          | ok _ =>
              rw [hbuckets] at h
              exact Except.ok.inj h
        · exact Except.ok.inj h
      have hinv := of_foldlM (P := fun pre ix₁ => HasTables db ix₁ ∧
        ix₁.headerVerifier = ix.headerVerifier ∧ BlocksLoaded ix₁ ∧
        ix₁.blkInfos.length = pre.length) ?_ ?_ hloop
      · obtain ⟨hholds, hverifier, hblocks, hlen⟩ := hinv
        rw [List.length_range] at hlen
        rw [not_not.mp hct, hholds.txNums]
        exact ⟨hholds, hverifier, hblocks, hlen, rfl⟩
      · refine ⟨hdb, rfl, ⟨?_, ?_⟩, ?_⟩
        · intro k bi hget
          rw [hempty] at hget
          cases hget
        · rw [hzero, hempty]
          rfl
        · rw [hempty]
          rfl
      · rintro pre i post ix₁ ix₂ hl ⟨hholds, hverifier, hblocks, hlen⟩ hstep
        obtain ⟨bi, hbi, hnum, rfl⟩ := loadBlkInfo_eq_ok hstep
        have hi : i = ix₁.blkInfos.length := by
          have hget : (List.range (ix.tipHeight + 1).toNat)[pre.length]? = some i := by
            rw [hl]
            simp
          obtain ⟨hlt, heq⟩ := List.getElem?_eq_some_iff.mp hget
          rw [List.getElem_range] at heq
          rw [hlen, heq]
        refine ⟨⟨hholds.headers, hholds.blkinfo, hholds.txNums, hholds.utxoset,
          hholds.shunspent⟩, hverifier, ⟨?_, ?_⟩, ?_⟩
        · intro k bi' hget
          simp only at hget ⊢
          rcases Nat.lt_trichotomy k ix₁.blkInfos.length with hlt | rfl | hgt
          · rw [List.getElem?_append_left hlt] at hget
            rw [List.take_append_of_le_length (Nat.le_of_lt hlt)]
            exact hblocks.blkinfo k bi' hget
          · rw [List.getElem?_concat_length, Option.some.injEq] at hget
            subst hget
            rw [List.take_left', hnum, hblocks.txNumNext, ← hi]
            · exact ⟨hbi, rfl⟩
            · rfl
          · rw [List.getElem?_eq_none (by simp; omega)] at hget
            cases hget
        · simp only [List.map_append, List.map_cons, List.map_nil, List.sum_append,
            List.sum_cons, List.sum_nil, hblocks.txNumNext, Nat.add_zero]
        · simp [hlen]

theorem loadCheckTxHash2TxNumMgr_eq_ok {largest : Option Int}
    (h : loadCheckTxHash2TxNumMgr checks largest ix = .ok ix') :
    ∃ table, ix' = { ix with txhash2txnum := table } := by
  unfold loadCheckTxHash2TxNumMgr at h
  split at h
  · exact ⟨ix.txhash2txnum, (Except.ok.inj h).symm⟩
  · exact ⟨_, (Except.ok.inj h).symm⟩
  · exact ⟨_, (Except.ok.inj h).symm⟩
  · exact ⟨_, (Except.ok.inj h).symm⟩
  · cases h

end Loads

/-! ## The headers -/

section Headers

/-- The second header names the block id of the first. -/
def NamesPrev (H : Hashers) (prev header : Header) : Prop :=
  ∃ hdr, BTC.deserialize header = .ok hdr ∧ hdr.hashPrevBlock = H.headerPoWHash prev

theorem loadHeader_eq_ok {v v' : BTC.HeaderVerifier} {header : Header}
    (h : loadHeader H v header = .ok v') :
    header ≠ [] ∧ (v.prev = [] ∨ NamesPrev H v.prev header) ∧
      v' = { prevHeight := v.prevHeight + 1, prev := header } := by
  unfold loadHeader verifyBytes at h
  by_cases hsize : header.length ≠ BTC.headerSizeFor header
  · simp only [if_pos hsize] at h
    cases h
  simp only [if_neg hsize] at h
  cases hread : BTC.deserialize header with
  | error what =>
      simp only [hread] at h
      cases h
  | ok hdr =>
      simp only [hread] at h
      cases hcheck : v.checkInner H.headerPoWHash (v.prevHeight + 1) hdr with
      | error err =>
          simp only [hcheck] at h
          cases h
      | ok u =>
          simp only [hcheck] at h
          refine ⟨?_, ?_, (Except.ok.inj h).symm⟩
          · rintro rfl
            rw [BTC.deserialize_nil] at hread
            cases hread
          · by_contra hbad
            rw [not_or] at hbad
            have hlink : v.prev ≠ [] ∧ H.headerPoWHash v.prev ≠ hdr.hashPrevBlock :=
              ⟨hbad.1, fun heq => hbad.2 ⟨hdr, hread, heq.symm⟩⟩
            unfold BTC.HeaderVerifier.checkInner at hcheck
            split_ifs at hcheck

/-- What the verifier has seen of headers that all pass. -/
structure HeadersSeen (H : Hashers) (headers : List Header) (v : BTC.HeaderVerifier) : Prop where
  height : v.prevHeight = (headers.length : Int) - 1
  prev : v.prev = headers.getLast?.getD []
  ne_nil : ∀ header ∈ headers, header ≠ []
  linked : ∀ (k : Nat) (a b : Header), headers[k]? = some a → headers[k + 1]? = some b →
    NamesPrev H a b

theorem headersSeen_of_foldlM {headers : List Header} {v : BTC.HeaderVerifier}
    (h : headers.foldlM (loadHeader H) {} = .ok v) : HeadersSeen H headers v := by
  refine of_foldlM (P := HeadersSeen H) ⟨rfl, rfl, ?_, ?_⟩ ?_ h
  · intro header hmem
    cases hmem
  · intro k a b hget
    cases hget
  · rintro pre header post v v' - ⟨hheight, hprev, hne, hlinked⟩ hstep
    obtain ⟨hnil, hlink, rfl⟩ := loadHeader_eq_ok hstep
    refine ⟨?_, ?_, ?_, ?_⟩
    · simp [hheight]
    · simp
    · intro b hb
      rcases List.mem_append.mp hb with hold | hnew
      · exact hne b hold
      · rw [List.mem_singleton.mp hnew]
        exact hnil
    · intro k a b ha hb
      rcases Nat.lt_trichotomy (k + 1) pre.length with hlt | hlast | hgt
      · rw [List.getElem?_append_left (by omega)] at ha hb
        exact hlinked k a b ha hb
      · rw [List.getElem?_append_left (by omega)] at ha
        rw [hlast, List.getElem?_concat_length, Option.some.injEq] at hb
        subst hb
        have hlastGet : pre.getLast? = some a := by
          rw [List.getLast?_eq_getElem?, ← hlast, Nat.add_sub_cancel]
          exact ha
        rw [hprev, hlastGet] at hlink
        exact hlink.resolve_left (hne a (List.mem_of_getElem? ha))
      · rw [List.getElem?_eq_none (by simp; omega)] at hb
        cases hb

theorem HeadersSeen.tipHeight_eq {headers : List Header} (h : HeadersSeen H headers
    ix.headerVerifier) : (ix.tipHeight + 1).toNat = headers.length := by
  unfold ChainIndex.tipHeight
  rw [h.height, h.prev]
  rcases List.eq_nil_or_concat headers with rfl | ⟨init, tip, rfl⟩
  · rfl
  · rw [List.concat_eq_append, List.getLast?_concat, Option.getD_some, if_neg]
    · simp
    · rw [not_or]
      refine ⟨h.ne_nil tip (by simp), ?_⟩
      simp only [List.length_append, List.length_singleton]
      omega

end Headers

/-! ## The unspent outputs -/

section Utxos

/-- A loop in which nothing happens. -/
theorem foldl_unchanged {α β : Type} {f : β → α → β} {l : List α}
    (h : ∀ a ∈ l, ∀ b, f b a = b) (b : β) : l.foldl f b = b := by
  induction l with
  | nil => rfl
  | cons a l ih =>
      rw [List.foldl_cons, h a List.mem_cons_self]
      exact ih fun c hc => h c (List.mem_cons_of_mem a hc)

/-- The outputs that were created twice have left no trace. -/
structure NoExceptions (db : Database) : Prop where
  utxoset : ∀ e ∈ fudgeDueToBitcoinBugs, e.1 ∉ db.utxoset
  shunspent : ∀ e ∈ fudgeDueToBitcoinBugs, ∀ ctxo, (⟨e.2.1, ctxo⟩ : ShunspentKey) ∉ db.shunspent
  txNums : ∀ e ∈ fudgeDueToBitcoinBugs, e.1.txHash ∉ db.txNums

theorem exceptionsInShunspent_eq (hno : NoExceptions db) (hdb : HasTables db ix) :
    exceptionsInShunspent ix = ∅ := by
  refine foldl_unchanged (fun e he seen => foldl_unchanged (fun height _ seen => ?_) seen) ∅
  cases hget : ix.blkInfos[height]? with
  | none => rfl
  | some bi =>
      simp only
      rw [if_neg]
      rw [hdb.shunspent]
      exact hno.shunspent e he _

/-- The rows of a table of unspent outputs that passed. -/
theorem loadCheckUTXOsInDB_eq_ok {metact : Int} (hchecks : 1 ≤ checks) (hno : NoExceptions db)
    (hdb : HasTables db ix) (h : loadCheckUTXOsInDB checks metact ix = .ok ix') :
    (∀ txo info, db.utxoset[txo]? = some info → checkUtxo ix txo info = .ok ()) ∧
      metact = db.utxoset.size ∧ ix' = withUtxoCt ix metact := by
  have hseen : ix.utxos.utxoset.toList.foldl
      (fun seen e => if isException e.1 e.2 then seen.insert e.1 else seen)
      (exceptionsInShunspent ix) = ∅ := by
    rw [exceptionsInShunspent_eq hno hdb]
    refine foldl_unchanged (fun e he seen => ?_) ∅
    rw [if_neg]
    intro hex
    obtain ⟨ex, hexmem, hboth⟩ := List.any_eq_true.mp hex
    rw [Bool.and_eq_true, beq_iff_eq] at hboth
    refine hno.utxoset ex hexmem ?_
    rw [hboth.1, ← hdb.utxoset]
    exact mem_iff_getElem?.mpr
      ⟨e.2, Std.ExtTreeMap.mem_toList_iff_getElem?_eq_some.mp he⟩
  unfold loadCheckUTXOsInDB at h
  rw [if_pos hchecks, hseen] at h
  obtain ⟨_, hrows, hrest⟩ := bind_eq_ok.mp h
  dsimp only at hrest
  split_ifs at hrest with hcount
  · cases hrest
  have hmeta : metact = ix.utxos.utxoset.size := by
    rw [Std.ExtTreeSet.size_empty] at hcount
    omega
  refine ⟨?_, by rw [← hdb.utxoset]; exact hmeta, ?_⟩
  · intro txo info hget
    rw [← hdb.utxoset] at hget
    exact forM_eq_ok.mp hrows (txo, info)
      (Std.ExtTreeMap.mem_toList_iff_getElem?_eq_some.mpr hget)
  · rw [hmeta]
    exact (Except.ok.inj hrest).symm

/-- The output that a row of `scripthash_unspent` stands for. -/
def rowInfo (s : State) (key : ShunspentKey) (v : SHUnspentValue) : TXOInfo :=
  { amount := v.amount
    hashX := key.hashX
    confirmedHeight := heightForTxNum s key.ctxo.txNum
    txNum := key.ctxo.txNum
    tokenDataPtr := v.tokenDataPtr }

theorem checkShunspent_eq_ok {key : ShunspentKey} {v : SHUnspentValue} {seen : Option TXO}
    (h : checkShunspent ix key v = .ok seen) :
    ∃ hash, ix.txNums[key.ctxo.txNum]? = some hash ∧
      ((ix.utxos.utxoset[(⟨hash, key.ctxo.n⟩ : TXO)]? = some (rowInfo { index := ix } key v) ∧
          seen = none) ∨
        (⟨hash, key.ctxo.n⟩ : TXO) ∈ exceptionsDueToBitcoinBugs) := by
  unfold checkShunspent at h
  split_ifs at h
  cases hhash : hashForTxNum { index := ix } key.ctxo.txNum with
  | none =>
      simp only [hhash] at h
      cases h
  | some hash =>
      simp only [hhash] at h
      split_ifs at h with hrow hex
      · exact ⟨hash, hhash, .inl ⟨hrow, (Except.ok.inj h).symm⟩⟩
      · exact ⟨hash, hhash, .inr hex⟩

theorem loadCheckShunspentInDB_eq_ok {metact : Int} (hchecks : 2 ≤ checks)
    (hno : NoExceptions db) (hdb : HasTables db ix)
    (h : loadCheckShunspentInDB checks metact ix = .ok ()) :
    metact = db.shunspent.size ∧ ∀ key v, db.shunspent[key]? = some v →
      ∃ hash, db.txNums[key.ctxo.txNum]? = some hash ∧
        db.utxoset[(⟨hash, key.ctxo.n⟩ : TXO)]? = some (rowInfo { index := ix } key v) := by
  unfold loadCheckShunspentInDB at h
  rw [if_pos hchecks] at h
  obtain ⟨seen, hrows, hcount⟩ := bind_eq_ok.mp h
  have hforall := mapM_eq_ok hrows
  have hrow : ∀ key v r, checkShunspent ix key v = .ok r → ∃ hash,
      ix.txNums[key.ctxo.txNum]? = some hash ∧ r = none ∧
        ix.utxos.utxoset[(⟨hash, key.ctxo.n⟩ : TXO)]? = some (rowInfo { index := ix } key v) := by
    intro key v r hr
    obtain ⟨hash, hhash, ⟨hget, hnone⟩ | hex⟩ := checkShunspent_eq_ok hr
    · exact ⟨hash, hhash, hnone, hget⟩
    · obtain ⟨e, he, heq⟩ := List.mem_map.mp hex
      refine absurd ?_ (hno.txNums e he)
      rw [heq, ← hdb.txNums]
      exact List.mem_of_getElem? hhash
  have hseen : seen.filterMap id = [] := by
    rw [List.filterMap_eq_nil_iff]
    intro r hr
    obtain ⟨i, hi⟩ := List.mem_iff_getElem?.mp hr
    obtain ⟨hlen, hat⟩ := List.forall₂_iff_get.mp hforall
    obtain ⟨hlt, heq⟩ := List.getElem?_eq_some_iff.mp hi
    have hcheck := hat i (by omega) hlt
    obtain ⟨-, -, hnone, -⟩ := hrow _ _ _ hcheck
    rw [List.get_eq_getElem, heq] at hnone
    rw [hnone]
    rfl
  rw [hseen] at hcount
  have hsize : ((ix.utxos.shunspent.size : Int) - metact).natAbs = 0 := by
    by_contra hne
    have hpos : ((ix.utxos.shunspent.size : Int) - metact).natAbs >
        (List.foldl (fun set txo => set.insert txo) (∅ : Std.ExtTreeSet TXO compare) []).size := by
      simpa using Nat.pos_of_ne_zero hne
    rw [if_pos hpos] at hcount
    cases hcount
  refine ⟨by rw [← hdb.shunspent]; omega, fun key v hget => ?_⟩
  rw [← hdb.shunspent] at hget
  have hmem := Std.ExtTreeMap.mem_toList_iff_getElem?_eq_some.mpr hget
  obtain ⟨i, hi⟩ := List.mem_iff_getElem?.mp hmem
  obtain ⟨hlen, hat⟩ := List.forall₂_iff_get.mp hforall
  obtain ⟨hlt, heq⟩ := List.getElem?_eq_some_iff.mp hi
  have hcheck := hat i hlt (by omega)
  rw [List.get_eq_getElem, heq] at hcheck
  obtain ⟨hash, hhash, -, hutxo⟩ := hrow key v _ hcheck
  rw [hdb.txNums] at hhash
  rw [hdb.utxoset] at hutxo
  exact ⟨hash, hhash, hutxo⟩

end Utxos

/-! ## The result -/

/-- What a startup that passes has established of the tables. -/
structure Consistent (H : Hashers) (db : Database) (s : State) : Prop where
  linked : ∀ (k : Nat) (a b : Header), db.headers[k]? = some a → db.headers[k + 1]? = some b →
    NamesPrev H (BTC.trimHeaderRecord a) (BTC.trimHeaderRecord b)
  blocks : s.index.blkInfos.length = db.headers.length ∧
    ∀ k bi, s.index.blkInfos[k]? = some bi → db.blkinfo[k]? = some bi ∧
      bi.txNum0 = ((s.index.blkInfos.take k).map BlkInfo.nTx).sum
  txNums : db.txNums.length = (s.index.blkInfos.map BlkInfo.nTx).sum
  utxos : ∀ (txo : TXO) (info : TXOInfo), db.utxoset[txo]? = some info ↔
    ∃ key v, db.shunspent[key]? = some v ∧ db.txNums[key.ctxo.txNum]? = some txo.txHash ∧
      key.ctxo.n = txo.outN ∧ info = rowInfo s key v
  count : db.utxoCt = db.utxoset.size ∧ db.utxoset.size = db.shunspent.size

/-- The output of a row, by the table of ids. -/
def shunspentTxo (txNums : List TxHash) (key : ShunspentKey) : TXO :=
  { txHash := txNums[key.ctxo.txNum]?.getD 0, outN := key.ctxo.n }

/-- If every row of the second table has one in the first, and there are equally many, the
tables correspond. -/
theorem utxos_of_rows (hrows : ∀ key v, db.shunspent[key]? = some v →
      ∃ hash, db.txNums[key.ctxo.txNum]? = some hash ∧
        db.utxoset[(⟨hash, key.ctxo.n⟩ : TXO)]? = some (rowInfo s key v))
    (hsize : db.utxoset.size = db.shunspent.size) (txo : TXO) (info : TXOInfo) :
    db.utxoset[txo]? = some info ↔
      ∃ key v, db.shunspent[key]? = some v ∧ db.txNums[key.ctxo.txNum]? = some txo.txHash ∧
        key.ctxo.n = txo.outN ∧ info = rowInfo s key v := by
  constructor
  · intro hget
    have htxo : ∀ key v, db.shunspent[key]? = some v →
        db.utxoset[shunspentTxo db.txNums key]? = some (rowInfo s key v) := by
      intro key v hv
      obtain ⟨hash, hhash, hutxo⟩ := hrows key v hv
      rw [shunspentTxo, hhash]
      exact hutxo
    have hnodup : (db.shunspent.keys.map (shunspentTxo db.txNums)).Nodup := by
      refine List.Nodup.map_on ?_ Std.ExtTreeMap.nodup_keys
      intro key hkey key' hkey' heq
      obtain ⟨v, hv⟩ := mem_iff_getElem?.mp (Std.ExtTreeMap.mem_keys.mp hkey)
      obtain ⟨v', hv'⟩ := mem_iff_getElem?.mp (Std.ExtTreeMap.mem_keys.mp hkey')
      have hsame := htxo key v hv
      rw [heq, htxo key' v' hv', Option.some.injEq] at hsame
      have hhashX : key'.hashX = key.hashX := congrArg TXOInfo.hashX hsame
      have hnum : key'.ctxo.txNum = key.ctxo.txNum := congrArg TXOInfo.txNum hsame
      have hn : key.ctxo.n = key'.ctxo.n := congrArg TXO.outN heq
      obtain ⟨hashX, txNum, n⟩ := key
      obtain ⟨hashX', txNum', n'⟩ := key'
      simp only at hhashX hnum hn
      rw [hhashX, hnum, hn]
    have hsub : db.shunspent.keys.map (shunspentTxo db.txNums) ⊆ db.utxoset.keys := by
      intro txo' hmem
      obtain ⟨key, hkey, rfl⟩ := List.mem_map.mp hmem
      obtain ⟨v, hv⟩ := mem_iff_getElem?.mp (Std.ExtTreeMap.mem_keys.mp hkey)
      exact Std.ExtTreeMap.mem_keys.mpr (mem_iff_getElem?.mpr ⟨_, htxo key v hv⟩)
    -- equally many, so that no output is left over
    have hperm := (hnodup.subperm hsub).perm_of_length_le (by
      rw [List.length_map, Std.ExtTreeMap.length_keys, Std.ExtTreeMap.length_keys, hsize])
    have hmem := hperm.mem_iff.mpr
      (Std.ExtTreeMap.mem_keys.mpr (mem_iff_getElem?.mpr ⟨info, hget⟩))
    obtain ⟨key, hkey, rfl⟩ := List.mem_map.mp hmem
    obtain ⟨v, hv⟩ := mem_iff_getElem?.mp (Std.ExtTreeMap.mem_keys.mp hkey)
    obtain ⟨hash, hhash, -⟩ := hrows key v hv
    have hinfo := htxo key v hv
    rw [hget, Option.some.injEq] at hinfo
    refine ⟨key, v, hv, ?_, rfl, hinfo⟩
    rw [shunspentTxo, hhash]
    rfl
  · rintro ⟨key, v, hv, hhash, hn, rfl⟩
    obtain ⟨hash, hhash', hutxo⟩ := hrows key v hv
    rw [hhash, Option.some.injEq] at hhash'
    rw [← hhash', hn] at hutxo
    exact hutxo

/-- The steps of a startup that passes. -/
theorem startup_eq_ok (h : startup H opts checks db = .ok s) :
    ∃ ix₁ ix₂ ix₃, loadCheckHeadersInDB H db.index = .ok ix₁ ∧
      loadCheckTxNumsDRAAndBlkInfo checks db.txNumRows ix₁ = .ok ix₂ ∧
      loadCheckTxHash2TxNumMgr checks db.largestTxNumSeen ix₂ = .ok ix₃ ∧
      loadCheckUTXOsInDB checks db.utxoCt ix₃ = .ok s.index ∧
      loadCheckShunspentInDB checks db.utxoCt s.index = .ok () := by
  unfold startup at h
  obtain ⟨_, -, h⟩ := bind_eq_ok.mp h
  obtain ⟨ix₁, h₁, h⟩ := bind_eq_ok.mp h
  obtain ⟨ix₂, h₂, h⟩ := bind_eq_ok.mp h
  obtain ⟨ix₃, h₃, h⟩ := bind_eq_ok.mp h
  obtain ⟨ix₄, h₄, h⟩ := bind_eq_ok.mp h
  obtain ⟨_, h₅, h⟩ := bind_eq_ok.mp h
  obtain ⟨undo, -, h⟩ := bind_eq_ok.mp h
  obtain rfl := Except.ok.inj h
  exact ⟨ix₁, ix₂, ix₃, h₁, h₂, h₃, h₄, h₅⟩

/--
Whatever the tables hold, if the startup passes with `--checkdb` given twice they
are consistent, unless they have one of the outputs that were created twice.
-/
theorem consistent_of_startup (hchecks : 2 ≤ checks) (hlen : db.headers.length < 2 ^ 32)
    (hno : NoExceptions db) (h : startup H opts checks db = .ok s) : Consistent H db s := by
  obtain ⟨ix₁, ix₂, ix₃, h₁, h₂, h₃, h₄, h₅⟩ := startup_eq_ok h
  obtain ⟨-, v, hloop, rfl⟩ := loadCheckHeadersInDB_eq_ok h₁
  have hnum : db.index.headers.length % 2 ^ 32 = db.headers.length := Nat.mod_eq_of_lt hlen
  have htake : db.index.headers.take (db.index.headers.length % 2 ^ 32) = db.headers := by
    rw [hnum]
    exact List.take_length
  rw [htake] at hloop
  have hseen := headersSeen_of_foldlM hloop
  have hheld : HasTables db { db.index with headerVerifier := v } := ⟨rfl, rfl, rfl, rfl, rfl⟩
  obtain ⟨hdb₂, -, hblocks, hblkLen, hnums⟩ := loadCheckTxNums_eq_ok hheld rfl rfl h₂
  rw [HeadersSeen.tipHeight_eq hseen, List.length_map] at hblkLen
  obtain ⟨table, rfl⟩ := loadCheckTxHash2TxNumMgr_eq_ok h₃
  have hdb₃ : HasTables db { ix₂ with txhash2txnum := table } :=
    ⟨hdb₂.headers, hdb₂.blkinfo, hdb₂.txNums, hdb₂.utxoset, hdb₂.shunspent⟩
  obtain ⟨-, hcount, hindex⟩ := loadCheckUTXOsInDB_eq_ok (by omega) hno hdb₃ h₄
  have hdb₄ : HasTables db s.index := by
    rw [hindex]
    exact ⟨hdb₂.headers, hdb₂.blkinfo, hdb₂.txNums, hdb₂.utxoset, hdb₂.shunspent⟩
  obtain ⟨hcount', hrows⟩ := loadCheckShunspentInDB_eq_ok hchecks hno hdb₄ h₅
  have hinfos : s.index.blkInfos = ix₂.blkInfos := by rw [hindex]; rfl
  have hsize : db.utxoset.size = db.shunspent.size := by omega
  refine ⟨?_, ⟨?_, ?_⟩, ?_, utxos_of_rows hrows hsize, hcount, hsize⟩
  · intro k a b ha hb
    exact hseen.linked k _ _ (by rw [List.getElem?_map, ha]; rfl)
      (by rw [List.getElem?_map, hb]; rfl)
  · rw [hinfos, hblkLen]
  · rw [hinfos]
    intro k bi hget
    rw [← hdb₂.blkinfo]
    exact hblocks.blkinfo k bi hget
  · rw [hinfos, ← hblocks.txNumNext, hnums]

section SmallChain

open Mempool Invariant

theorem noExceptions_second {s : State}
    (hr : Reachable ChainRun.Start (ChainStep opTrueHashers {} ValidBlock)
      { state := s, blocks := [firstBlock, secondBlock 0] }) : NoExceptions s.database := by
  have hex : UtxosExact opTrueHashers [firstBlock, secondBlock 0] s.index := utxos_exact hr
  obtain ⟨st, hchain, hblocks, -⟩ := (verified_of_reachable hr).chain
  have hids : ∀ e ∈ chainTxs [firstBlock, secondBlock 0], e.2.hash.toNat < 10 := by decide
  have hnames : ∀ e ∈ fudgeDueToBitcoinBugs,
      10 ≤ e.1.txHash.toNat ∧ e.2.1 ≠ opTrueHashX := by decide
  have hcreated : ∀ (txo : TXO) (info : TXOInfo), s.index.utxos.utxoset[txo]? = some info →
      txo.txHash.toNat < 10 ∧ info.hashX = opTrueHashX := by
    intro txo info hget
    obtain ⟨⟨txNum, height, tx, out, hx, htx, hhash, -, hlocked, rfl⟩, -⟩ :=
      (hex.utxo txo info).mp hget
    exact ⟨hhash ▸ hids _ (List.mem_of_getElem? htx), hlocked.2.symm⟩
  refine ⟨fun e he hmem => ?_, fun e he ctxo hmem => ?_, fun e he hmem => ?_⟩
  · obtain ⟨info, hget⟩ := mem_iff_getElem?.mp hmem
    have hlt := (hcreated _ _ hget).1
    have hle := (hnames e he).1
    omega
  · obtain ⟨v, hv⟩ := mem_iff_getElem?.mp hmem
    obtain ⟨txo, info, hget, hkey, -⟩ := (hex.unspent _ v).mp hv
    have hhashX : e.2.1 = info.hashX := congrArg ShunspentKey.hashX hkey
    exact (hnames e he).2 (hhashX.trans (hcreated txo info hget).2)
  · have hle := (hnames e he).1
    have hnums : s.database.txNums = (chainTxs [firstBlock, secondBlock 0]).map fun t =>
        t.2.hash := by
      have hlisted := hchain.numbered.txNums
      rw [hblocks] at hlisted
      exact hlisted
    rw [hnums] at hmem
    obtain ⟨t, ht, heq⟩ := List.mem_map.mp hmem
    have hlt := hids t ht
    rw [heq] at hlt
    omega

/-- The tables of two blocks pass and are consistent. -/
theorem consistent_secondState : ∃ (r : ChainRun) (s : State),
    r.blocks = [firstBlock, secondBlock 0] ∧ Consistent opTrueHashers r.state.database s := by
  obtain ⟨s, hr, hlimits⟩ := withinLimits_second
  obtain ⟨st, hchain, hblocks, -⟩ := (verified_of_reachable hr).chain
  have hlen : s.database.headers.length = 2 := by
    rw [State.database, hchain.numbered.length, hblocks]
    rfl
  obtain ⟨s', hs', -⟩ := (verified_of_reachable hr).startup_ok hlimits {} 2
  exact ⟨_, s', rfl, consistent_of_startup (le_refl 2) (by rw [hlen]; decide)
    (noExceptions_second hr) hs'⟩

end SmallChain

end Storage
end Shulcrum
