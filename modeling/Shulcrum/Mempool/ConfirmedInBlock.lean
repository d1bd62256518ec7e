import Shulcrum.Mempool.Removal

/-!
# `confirmedInBlock`

The transactions of a block leave the pool and their outputs become confirmed
ones.  A transaction that stays and spends from the block is recategorized when
the first of its confirmed parents is handled; `ConfInv` says for every
transaction that stays whether this has happened yet.

**Results.**
* `Rep.confirmedInBlock`: if the block is closed under ancestors, the mempool
  represents the pool without the confirmed transactions, over the confirmed
  outputs updated by them.
-/

namespace Shulcrum

open BTC SortUnique TreeMap

/-- The information about an output after its transaction is confirmed. -/
def TXOInfo.confirmed (info : TXOInfo) (height txNum : Nat) : TXOInfo :=
  { info with confirmedHeight := some height, txNum := txNum }

namespace Mempool

variable {H : Hashers} {rpa : Bool} {P : Pool} {db db' : TXO → Option TXOInfo}
  {txidMap : Std.ExtTreeMap TxHash Nat compare} {height : Nat}

/-- The confirmed outputs, updated with the outputs of the confirmed transactions of the pool. -/
def confirmDb (H : Hashers) (P : Pool) (txidMap : Std.ExtTreeMap TxHash Nat compare)
    (height : Nat) (db : TXO → Option TXOInfo) (txo : TXO) : Option TXOInfo :=
  match txidMap[txo.txHash]?, P txo.txHash with
  | some txNum, some p => (p.outAt H txo.outN).map fun info => info.confirmed height txNum
  | _, _ => db txo

/--
A block that is consistent with the pool, and confirmed outputs `db'` after it
that have what the remaining transactions spend.
-/
structure Confirms (H : Hashers) (P : Pool) (txidMap : Std.ExtTreeMap TxHash Nat compare)
    (height : Nat) (db db' : TXO → Option TXOInfo) : Prop where
  closed : P.AncestorClosed txidMap.keys
  db_eq : ∀ g q, P.without txidMap.keys g = some q → ∀ txo ∈ q.prevouts,
    P.without txidMap.keys txo.txHash = none → db' txo = confirmDb H P txidMap height db txo

theorem mem_keys_iff {h : TxHash} : h ∈ txidMap.keys ↔ ∃ n, txidMap[h]? = some n := by
  rw [Std.ExtTreeMap.mem_keys, mem_iff_getElem?]

theorem confirmDb_of_none {txo : TXO} (hP : P txo.txHash = none) :
    confirmDb H P txidMap height db txo = db txo := by
  unfold confirmDb
  rw [hP]
  split <;> simp_all

theorem confirmDb_of_some {txo : TXO} {p : NewTx} {n : Nat} (hP : P txo.txHash = some p)
    (hn : txidMap[txo.txHash]? = some n) :
    confirmDb H P txidMap height db txo =
      (p.outAt H txo.outN).map fun info => info.confirmed height n := by
  unfold confirmDb
  rw [hP, hn]

/-- What a remaining transaction spends is the same output as before. -/
theorem Confirms.prevInfo (hc : Confirms H P txidMap height db db') {g : TxHash} {q : NewTx}
    (hq : P.without txidMap.keys g = some q) {txo : TXO} (htxo : txo ∈ q.prevouts) :
    (P.without txidMap.keys).prevInfo H db' txo = P.prevInfo H db txo ∨
      ∃ n, txidMap[txo.txHash]? = some n ∧ P txo.txHash ≠ none ∧
        (P.without txidMap.keys).prevInfo H db' txo =
          (P.prevInfo H db txo).map fun info => info.confirmed height n := by
  by_cases hmem : txo.txHash ∈ txidMap.keys
  · have hnone := Pool.without_of_mem (P := P) hmem
    rw [Pool.prevInfo_of_none hnone, hc.db_eq g q hq txo htxo hnone]
    cases hp : P txo.txHash with
    | none =>
        left
        rw [confirmDb_of_none hp, Pool.prevInfo_of_none hp]
    | some p =>
        right
        obtain ⟨n, hn⟩ := mem_keys_iff.mp hmem
        refine ⟨n, hn, by simp, ?_⟩
        rw [confirmDb_of_some hp hn, Pool.prevInfo_of_some hp]
  · left
    have hsame := Pool.without_of_not_mem (P := P) hmem
    cases hp : P txo.txHash with
    | none =>
        rw [hp] at hsame
        rw [Pool.prevInfo_of_none hsame, Pool.prevInfo_of_none hp,
          hc.db_eq g q hq txo htxo hsame, confirmDb_of_none hp]
    | some p =>
        rw [hp] at hsame
        rw [Pool.prevInfo_of_some hsame, Pool.prevInfo_of_some hp]

theorem Confirms.touches (hc : Confirms H P txidMap height db db') {g : TxHash} {q : NewTx}
    (hq : P.without txidMap.keys g = some q) (sh : HashX) :
    P.Touches H db q sh ↔ (P.without txidMap.keys).Touches H db' q sh := by
  unfold Pool.Touches
  refine or_congr_right (exists_congr fun txo => and_congr_right fun htxo => ?_)
  rcases hc.prevInfo hq htxo with he | ⟨n, -, -, he⟩
  · rw [he]
  · rw [he]
    simp only [Option.map_eq_some_iff]
    constructor
    · rintro ⟨info, hinfo, hsh⟩
      exact ⟨_, ⟨info, hinfo, rfl⟩, hsh⟩
    · rintro ⟨-, ⟨info, hinfo, rfl⟩, hsh⟩
      exact ⟨info, hinfo, hsh⟩

theorem Confirms.inSum (hc : Confirms H P txidMap height db db') {g : TxHash} {q : NewTx}
    (hq : P.without txidMap.keys g = some q) :
    (P.without txidMap.keys).inSum H db' q = P.inSum H db q := by
  unfold Pool.inSum
  congr 1
  refine List.map_congr_left fun txo htxo => ?_
  rcases hc.prevInfo hq htxo with he | ⟨n, -, -, he⟩
  · rw [he]
  · rw [he]
    cases P.prevInfo H db txo <;> rfl

/-- Remaining transactions are spent by remaining transactions only. -/
theorem Confirms.spends (hc : Confirms H P txidMap height db db') {g : TxHash} {q : NewTx}
    (hq : P.without txidMap.keys g = some q) (c : TxHash) :
    P.Spends c g ↔ (P.without txidMap.keys).Spends c g := by
  obtain ⟨hg, hqP⟩ := Pool.without_eq_some.mp hq
  constructor
  · intro hspends
    have hcgone : c ∉ txidMap.keys := fun hmem =>
      hg (hc.closed c g hspends (by simp [hqP]) hmem)
    obtain ⟨r, hr, hrest⟩ := hspends
    exact ⟨r, Pool.without_eq_some.mpr ⟨hcgone, hr⟩, hrest⟩
  · rintro ⟨r, hr, hrest⟩
    exact ⟨r, (Pool.without_eq_some.mp hr).2, hrest⟩

theorem Confirms.spent (hc : Confirms H P txidMap height db db') {g : TxHash} {q : NewTx}
    (hq : P.without txidMap.keys g = some q) (n : Nat) :
    P.Spent ⟨g, n⟩ ↔ (P.without txidMap.keys).Spent ⟨g, n⟩ := by
  constructor
  · rintro ⟨c, r, hr, hmem⟩
    obtain ⟨r', hr', -⟩ := (hc.spends hq c).mp ⟨r, hr, _, hmem, rfl⟩
    have hrr' := (Pool.without_eq_some.mp hr').2
    rw [hr, Option.some.injEq] at hrr'
    subst hrr'
    exact ⟨c, r, hr', hmem⟩
  · rintro ⟨c, r, hr, hmem⟩
    exact ⟨c, r, (Pool.without_eq_some.mp hr).2, hmem⟩

theorem get_recategorizeIo_unconf {io : IOInfo} {txo : TXO} {info : TXOInfo} :
    (recategorizeIo txidMap height io).unconfirmedSpends[txo]? = some info ↔
      io.unconfirmedSpends[txo]? = some info ∧ txo.txHash ∉ txidMap.keys := by
  rw [recategorizeIo, get_filter, Std.ExtTreeMap.mem_keys]
  simp

theorem get_recategorizeIo_conf {io : IOInfo} {txo : TXO} {info : TXOInfo} :
    (recategorizeIo txidMap height io).confirmedSpends[txo]? = some info ↔
      io.confirmedSpends[txo]? = some info ∨
        (io.confirmedSpends[txo]? = none ∧ ∃ i n, io.unconfirmedSpends[txo]? = some i ∧
          txidMap[txo.txHash]? = some n ∧ info = i.confirmed height n) := by
  have hfold : (recategorizeIo txidMap height io).confirmedSpends =
      io.unconfirmedSpends.toList.foldl (fun m e =>
        (txidMap[e.1.txHash]?.map (e.2.confirmed height)).elim m (m.insertIfNew e.1))
        io.confirmedSpends := by
    simp only [recategorizeIo]
    congr 1
    funext m e
    cases txidMap[e.1.txHash]? <;> rfl
  rw [hfold, get_foldl_insertIfNew (distinct_toList _)
    (fun e : TXO × TXOInfo => txidMap[e.1.txHash]?.map (e.2.confirmed height))]
  refine or_congr_right (and_congr_right fun _ => ?_)
  constructor
  · rintro ⟨⟨txo', i⟩, hmem, rfl, hg⟩
    rw [Std.ExtTreeMap.mem_toList_iff_getElem?_eq_some] at hmem
    obtain ⟨n, hn, rfl⟩ := Option.map_eq_some_iff.mp hg
    exact ⟨i, n, hmem, hn, rfl⟩
  · rintro ⟨i, n, hi, hn, rfl⟩
    refine ⟨(txo, i), Std.ExtTreeMap.mem_toList_iff_getElem?_eq_some.mpr hi, rfl, ?_⟩
    simp [hn]

/-- The record of a recategorized transaction. -/
def recategorize (txidMap : Std.ExtTreeMap TxHash Nat compare) (height : Nat) (tx : Tx) : Tx :=
  { tx with hashXs := tx.hashXs.map fun _ io => recategorizeIo txidMap height io }

theorem mem_recategorize {tx : Tx} {sh : HashX} :
    sh ∈ (recategorize txidMap height tx).hashXs ↔ sh ∈ tx.hashXs :=
  Std.ExtTreeMap.mem_map

theorem io_recategorize {tx : Tx} {sh : HashX} :
    (recategorize txidMap height tx).io sh = recategorizeIo txidMap height (tx.io sh) := by
  by_cases hsh : sh ∈ tx.hashXs
  · have hget := Tx.get_hashXs_of_mem hsh
    rw [Tx.io, recategorize, Std.ExtTreeMap.getElem?_map, hget]
    rfl
  · rw [Tx.io_of_not_mem hsh, Tx.io_of_not_mem fun hm => hsh (mem_recategorize.mp hm)]
    simp [recategorizeIo]

/-- Recategorizing takes a record to the remaining pool. -/
theorem TxCore.recategorize (hc : Confirms H P txidMap height db db') {g : TxHash} {q : NewTx}
    (hq : P.without txidMap.keys g = some q) (hkey : q.hash = g) {tx : Tx}
    (h : TxCore H rpa P db q tx) :
    TxCore H rpa (P.without txidMap.keys) db' q (recategorize txidMap height tx) where
  hash := h.hash
  sizeBytes := h.sizeBytes
  vsizeBytes := h.vsizeBytes
  txos := h.txos
  fee := by
    rw [hc.inSum hq]
    exact h.fee
  mem_hashXs sh := by rw [mem_recategorize, h.mem_hashXs, hc.touches hq]
  conf sh txo info := by
    rw [io_recategorize, get_recategorizeIo_conf, h.conf]
    constructor
    · rintro (⟨htxo, hnone, hdb, hsh⟩ | ⟨-, i, n, hi, hn, rfl⟩)
      · have hnone' : P.without txidMap.keys txo.txHash = none := by
          by_cases hm : txo.txHash ∈ txidMap.keys
          · exact Pool.without_of_mem hm
          · rw [Pool.without_of_not_mem hm, hnone]
        refine ⟨htxo, hnone', ?_, hsh⟩
        rw [hc.db_eq g q hq txo htxo hnone', confirmDb_of_none hnone, hdb]
      · obtain ⟨htxo, ⟨p, hp, hout⟩, hsh⟩ := (h.unconf sh txo i).mp hi
        have hnone' := Pool.without_of_mem (P := P) (mem_keys_iff.mpr ⟨n, hn⟩)
        refine ⟨htxo, hnone', ?_, hsh⟩
        rw [hc.db_eq g q hq txo htxo hnone', confirmDb_of_some hp hn, hout]
        rfl
    · rintro ⟨htxo, hnone', hdb, hsh⟩
      rw [hc.db_eq g q hq txo htxo hnone'] at hdb
      cases hp : P txo.txHash with
      | none =>
          rw [confirmDb_of_none hp] at hdb
          exact .inl ⟨htxo, rfl, hdb, hsh⟩
      | some p =>
          have hmem : txo.txHash ∈ txidMap.keys := by
            by_contra hm
            rw [Pool.without_of_not_mem hm, hp] at hnone'
            cases hnone'
          obtain ⟨n, hn⟩ := mem_keys_iff.mp hmem
          rw [confirmDb_of_some hp hn, Option.map_eq_some_iff] at hdb
          obtain ⟨i, hout, rfl⟩ := hdb
          refine .inr ⟨?_, i, n, (h.unconf sh txo i).mpr ⟨htxo, ⟨p, hp, hout⟩, hsh⟩, hn, rfl⟩
          rw [Option.eq_none_iff_forall_ne_some]
          intro j hj
          have := ((h.conf sh txo j).mp hj).2.1
          rw [hp] at this
          cases this
  unconf sh txo info := by
    rw [io_recategorize, get_recategorizeIo_unconf, h.unconf]
    simp only [Pool.without_eq_some]
    constructor
    · rintro ⟨⟨htxo, ⟨p, hp, hout⟩, hsh⟩, hm⟩
      exact ⟨htxo, ⟨p, ⟨hm, hp⟩, hout⟩, hsh⟩
    · rintro ⟨htxo, ⟨p, ⟨hm, hp⟩, hout⟩, hsh⟩
      exact ⟨⟨htxo, ⟨p, hp, hout⟩, hsh⟩, hm⟩
  utxo sh n := by
    rw [io_recategorize]
    refine (h.utxo sh n).trans ?_
    rw [hkey, hc.spent hq]
  children c := by
    rw [hkey, ← hc.spends hq, ← hkey]
    exact h.children c
  rpaNone := h.rpaNone
  rpaSome := h.rpaSome

/-- A recategorized transaction without unconfirmed parents is seen to have none. -/
theorem nUnconfs_recategorize (hc : Confirms H P txidMap height db db') {g : TxHash} {q : NewTx}
    (hq : P.without txidMap.keys g = some q) (hkey : q.hash = g) {tx : Tx}
    (h : TxCore H rpa P db q tx)
    (hnone : ∀ txo ∈ q.prevouts, P.without txidMap.keys txo.txHash = none) :
    (recategorize txidMap height tx).nUnconfs = 0 := by
  have hrep := h.recategorize hc hq hkey
  rw [nUnconfs_eq_zero_iff]
  intro sh txo htxo
  obtain ⟨info, hinfo⟩ := mem_iff_getElem?.mp htxo
  obtain ⟨hprev, ⟨p, hp, -⟩, -⟩ := (hrep.unconf sh txo info).mp hinfo
  rw [hnone txo hprev] at hp
  cases hp

/-- What the loop of `confirmedInBlock` reads of a transaction that is still to be removed. -/
structure Leaving (H : Hashers) (rpa : Bool) (P : Pool) (db : TXO → Option TXOInfo)
    (gone : List TxHash) (nt : NewTx) (tx : Tx) : Prop where
  hash : tx.hash = nt.hash
  mem_hashXs : ∀ sh, sh ∈ tx.hashXs ↔ P.Touches H db nt sh
  parents : ∀ p, p ∈ tx.parents → p ∈ gone
  children : ∀ c, c ∉ gone → (c ∈ tx.children ↔ P.Spends c nt.hash)
  rpaNone : tx.optRpaPrefixSet = none ↔ rpa = false ∨ nt.ctx.vin = []
  rpaSome : ∀ s, tx.optRpaPrefixSet = some s → ∀ p, p ∈ s ↔ p ∈ nt.rpaPrefixes H

theorem TxRep.leaving {gone : List TxHash} (hclosed : P.AncestorClosed gone) {g : TxHash}
    {q : NewTx} (hq : P g = some q) (hg : g ∈ gone) {tx : Tx} (h : TxRep H rpa P db q tx) :
    Leaving H rpa P db gone q tx where
  hash := h.hash
  mem_hashXs := h.mem_hashXs
  parents p hp := by
    obtain ⟨hP, txo, htxo, rfl⟩ := (h.parents p).mp hp
    exact hclosed g txo.txHash ⟨q, hq, txo, htxo, rfl⟩ hP hg
  children c _ := h.children c
  rpaNone := h.rpaNone
  rpaSome := h.rpaSome

theorem Leaving.unlink {gone : List TxHash} {nt : NewTx} {tx x : Tx} {g : TxHash}
    (h : Leaving H rpa P db gone nt x) (ht : tx.hash ∈ gone) :
    Leaving H rpa P db gone nt (unlinkOn tx g x) where
  hash := h.hash
  mem_hashXs := h.mem_hashXs
  parents p hp := by
    apply h.parents p
    unfold unlinkOn at hp
    simp only at hp
    split_ifs at hp
    · exact (mem_set_erase.mp hp).2
    · exact hp
  children c hc := by
    rw [← h.children c hc]
    have hne : c ≠ tx.hash := fun e => hc (e ▸ ht)
    unfold unlinkOn
    simp only
    split_ifs
    · exact mem_set_erase.trans (and_iff_right hne)
    · rfl
  rpaNone := h.rpaNone
  rpaSome := h.rpaSome

theorem TxCore.setParents {q : NewTx} {tx : Tx} (h : TxCore H rpa P db q tx) (parents : HashSet) :
    TxCore H rpa P db q { tx with parents := parents } :=
  ⟨h.hash, h.sizeBytes, h.vsizeBytes, h.txos, h.fee, h.mem_hashXs, h.conf, h.unconf, h.utxo,
    h.children, h.rpaNone, h.rpaSome⟩

/-- The loop of `confirmedInBlock`, when the transactions of `done` are removed. -/
structure ConfInv (H : Hashers) (rpa : Bool) (P : Pool) (db db' : TXO → Option TXOInfo)
    (txidMap : Std.ExtTreeMap TxHash Nat compare) (mp : Mempool) (done : List TxHash)
    (s : RmState) : Prop where
  absent : ∀ g, P.without done g = none → s.mp.txs[g]? = none
  /-- A transaction that stays is described by the old pool or by the remaining one. -/
  stays : ∀ g q, P.without txidMap.keys g = some q → ∃ tx, s.mp.txs[g]? = some tx ∧
    (∀ p, p ∈ tx.parents ↔ (P p ≠ none ∧ ∃ txo ∈ q.prevouts, txo.txHash = p) ∧ p ∉ done) ∧
    (g ∉ s.recategorized → TxCore H rpa P db q tx) ∧
    (g ∈ s.recategorized → TxCore H rpa (P.without txidMap.keys) db' q tx)
  untouched : ∀ g q, P.without txidMap.keys g = some q → g ∉ s.recategorized →
    ∀ txo ∈ q.prevouts, P txo.txHash ≠ none → txo.txHash ∉ done
  resorted : ∀ g q, P.without txidMap.keys g = some q → g ∈ s.recategorized →
    (∀ txo ∈ q.prevouts, P.without txidMap.keys txo.txHash = none) →
    ∀ sh, P.Touches H db q sh → sh ∈ s.scriptHashesAffected ∧ sh ∈ s.needingSort
  leaving : ∀ g q, P.without done g = some q → g ∈ txidMap.keys →
    ∃ tx, s.mp.txs[g]? = some tx ∧ Leaving H rpa P db txidMap.keys q tx
  affected : ∀ g q sh, g ∈ done → P g = some q → P.Touches H db q sh →
    sh ∈ s.scriptHashesAffected
  table : TableRep H rpa (P.without done) s.mp.optPrefixTable
  hashXTxs : s.mp.hashXTxs = mp.hashXTxs
  dsps : s.mp.dsps = {}
  dspTxids : s.dspTxids = ∅

theorem Content.confInv {mp : Mempool} (h : Content H rpa P db mp)
    (hc : Confirms H P txidMap height db db') :
    ConfInv H rpa P db db' txidMap mp [] { mp := mp } where
  absent g hg := h.absent g (by rwa [Pool.without_nil] at hg)
  stays g q hq := by
    obtain ⟨tx, htx, hrep⟩ := h.present g q (Pool.without_eq_some.mp hq).2
    refine ⟨tx, htx, fun p => ?_, fun _ => hrep.toTxCore, fun hn => by simp at hn⟩
    rw [hrep.parents]
    simp
  untouched g q _ _ txo _ _ := by simp
  resorted g q _ hn := by simp at hn
  leaving g q hq hg := by
    rw [Pool.without_nil] at hq
    obtain ⟨tx, htx, hrep⟩ := h.present g q hq
    exact ⟨tx, htx, hrep.leaving hc.closed hq hg⟩
  affected g q sh hg := by simp at hg
  table := by
    rw [Pool.without_nil]
    exact h.table
  hashXTxs := rfl
  dsps := h.dsps
  dspTxids := rfl

/-- What recategorizing a transaction changes. -/
structure Recategorized (txidMap : Std.ExtTreeMap TxHash Nat compare) (height : Nat) (c : TxHash)
    (tx : Tx) (s s' : RmState) : Prop where
  mp : s'.mp = { s.mp with txs := s.mp.txs.insert c (recategorize txidMap height tx) }
  recategorized : s'.recategorized = s.recategorized
  dspTxids : s'.dspTxids = s.dspTxids
  affected : ∀ sh, sh ∈ s.scriptHashesAffected → sh ∈ s'.scriptHashesAffected
  needingSort : ∀ sh, sh ∈ s.needingSort → sh ∈ s'.needingSort
  keys : (recategorize txidMap height tx).nUnconfs = 0 → ∀ sh, sh ∈ tx.hashXs →
    sh ∈ s'.scriptHashesAffected ∧ sh ∈ s'.needingSort

theorem recategorized_of_get {s : RmState} {c : TxHash} {tx : Tx} (htx : s.mp.txs[c]? = some tx) :
    Recategorized txidMap height c tx s (recategorizeSpendsForChild txidMap height s c) := by
  have heq : recategorizeSpendsForChild txidMap height s c =
      let s' := { s with
        mp := { s.mp with txs := s.mp.txs.insert c (recategorize txidMap height tx) } }
      if (recategorize txidMap height tx).nUnconfs = 0 then
        { s' with
          scriptHashesAffected :=
            addHashXs (recategorize txidMap height tx) s.scriptHashesAffected
          needingSort := addHashXs (recategorize txidMap height tx) s.needingSort }
      else s' := by
    unfold recategorizeSpendsForChild
    rw [htx]
    rfl
  rw [heq]
  by_cases hn : (recategorize txidMap height tx).nUnconfs = 0
  · simp only [if_pos hn]
    refine ⟨rfl, rfl, rfl, ?_, ?_, ?_⟩
    · exact fun sh hsh => mem_addHashXs.mpr (.inl hsh)
    · exact fun sh hsh => mem_addHashXs.mpr (.inl hsh)
    · intro _ sh hsh
      rw [mem_addHashXs, mem_addHashXs]
      exact ⟨.inr (mem_recategorize.mpr hsh), .inr (mem_recategorize.mpr hsh)⟩
  · simp only [if_neg hn]
    exact ⟨rfl, rfl, rfl, fun _ h => h, fun _ h => h, fun h => absurd h hn⟩

/-- Marking a transaction that is not in the pool as recategorized. -/
theorem ConfInv.mark_absent {mp : Mempool} {done : List TxHash} {s : RmState}
    (h : ConfInv H rpa P db db' txidMap mp done s) {c : TxHash}
    (hnone : P.without txidMap.keys c = none) :
    ConfInv H rpa P db db' txidMap mp done
      { s with recategorized := s.recategorized.insert c } := by
  have hmem : ∀ g q, P.without txidMap.keys g = some q →
      (g ∈ s.recategorized.insert c ↔ g ∈ s.recategorized) := by
    intro g q hq
    rw [mem_set_insert]
    refine ⟨fun hor => hor.resolve_left ?_, .inr⟩
    rintro rfl
    rw [hnone] at hq
    cases hq
  refine ⟨h.absent, ?_, ?_, ?_, h.leaving, h.affected, h.table, h.hashXTxs, h.dsps, h.dspTxids⟩
  · intro g q hq
    obtain ⟨tx, htx, hparents, hold, hnew⟩ := h.stays g q hq
    exact ⟨tx, htx, hparents, fun hn => hold fun hg => hn ((hmem g q hq).mpr hg),
      fun hg => hnew ((hmem g q hq).mp hg)⟩
  · intro g q hq hn
    exact h.untouched g q hq fun hg => hn ((hmem g q hq).mpr hg)
  · intro g q hq hg
    exact h.resorted g q hq ((hmem g q hq).mp hg)

/-- Recategorizing a transaction that stays. -/
theorem ConfInv.recategorize (hc : Confirms H P txidMap height db db') (hkeyed : P.Keyed)
    {mp : Mempool} {done : List TxHash} {s s' : RmState}
    (h : ConfInv H rpa P db db' txidMap mp done s) {c : TxHash} {q : NewTx}
    (hq : P.without txidMap.keys c = some q) (hrecat : c ∉ s.recategorized) {tx : Tx}
    (htx : s.mp.txs[c]? = some tx)
    (hs' : Recategorized txidMap height c tx
      { s with recategorized := s.recategorized.insert c } s') :
    ConfInv H rpa P db db' txidMap mp done s' := by
  obtain ⟨hgone, hqP⟩ := Pool.without_eq_some.mp hq
  have hkey := hkeyed c q hqP
  obtain ⟨tx', htx', hparents, hold, -⟩ := h.stays c q hq
  rw [htx, Option.some.injEq] at htx'
  subst htx'
  have hcore := hold hrecat
  have hget : ∀ g, s'.mp.txs[g]? =
      if c = g then some (Mempool.recategorize txidMap height tx) else s.mp.txs[g]? := by
    intro g
    rw [hs'.mp]
    exact get_insert
  have hmem : ∀ g, g ∈ s'.recategorized ↔ g = c ∨ g ∈ s.recategorized := by
    intro g
    rw [hs'.recategorized, mem_set_insert]
  refine ⟨?_, ?_, ?_, ?_, ?_, ?_, ?_, ?_, ?_, ?_⟩
  · intro g hg
    have hne : c ≠ g := by
      rintro rfl
      rw [h.absent _ hg] at htx
      cases htx
    rw [hget, if_neg hne]
    exact h.absent g hg
  · intro g r hr
    rw [hget]
    by_cases hg : c = g
    · subst hg
      rw [hq, Option.some.injEq] at hr
      subst hr
      rw [if_pos rfl]
      exact ⟨_, rfl, hparents, fun hn => absurd ((hmem c).mpr (.inl rfl)) hn,
        fun _ => hcore.recategorize hc hq hkey⟩
    · rw [if_neg hg]
      obtain ⟨x, hx, hp, hold, hnew⟩ := h.stays g r hr
      exact ⟨x, hx, hp, fun hn => hold fun hm => hn ((hmem g).mpr (.inr hm)),
        fun hm => hnew (((hmem g).mp hm).resolve_left (Ne.symm hg))⟩
  · intro g r hr hn
    exact h.untouched g r hr fun hm => hn ((hmem g).mpr (.inr hm))
  · intro g r hr hm hnone sh htouch
    by_cases hg : g = c
    · subst hg
      rw [hq, Option.some.injEq] at hr
      subst hr
      exact hs'.keys (nUnconfs_recategorize hc hq hkey hcore hnone) sh
        ((hcore.mem_hashXs sh).mpr htouch)
    · obtain ⟨ha, hb⟩ := h.resorted g r hr (((hmem g).mp hm).resolve_left hg) hnone sh htouch
      exact ⟨hs'.affected sh ha, hs'.needingSort sh hb⟩
  · intro g r hr hg
    have hne : c ≠ g := fun e => hgone (e ▸ hg)
    rw [hget, if_neg hne]
    exact h.leaving g r hr hg
  · intro g r sh hg hr htouch
    exact hs'.affected sh (h.affected g r sh hg hr htouch)
  · rw [hs'.mp]
    exact h.table
  · rw [hs'.mp]
    exact h.hashXTxs
  · rw [hs'.mp]
    exact h.dsps
  · rw [hs'.dspTxids]
    exact h.dspTxids

/-- A child of a confirmed transaction is recategorized. -/
theorem ConfInv.confirmChild (hc : Confirms H P txidMap height db db') (hkeyed : P.Keyed)
    {mp : Mempool} {done : List TxHash} {s : RmState} (h : ConfInv H rpa P db db' txidMap mp done s)
    (c : TxHash) :
    ConfInv H rpa P db db' txidMap mp done (confirmChild txidMap height s c) ∧
      (c ∉ txidMap.keys → c ∈ (confirmChild txidMap height s c).recategorized) ∧
      ∀ g ∈ s.recategorized, g ∈ (confirmChild txidMap height s c).recategorized := by
  unfold Mempool.confirmChild
  split_ifs with hskip
  · refine ⟨h, fun hgone => ?_, fun _ hg => hg⟩
    rw [Std.ExtTreeMap.mem_keys] at hgone
    exact hskip.resolve_left hgone
  · rw [not_or] at hskip
    obtain ⟨hgone, hrecat⟩ := hskip
    rw [← Std.ExtTreeMap.mem_keys] at hgone
    cases hq : P.without txidMap.keys c with
    | none =>
        have hP : P c = none := by rwa [Pool.without_of_not_mem hgone] at hq
        have hget : s.mp.txs[c]? = none := by
          apply h.absent
          unfold Pool.without
          split_ifs
          · rfl
          · exact hP
        have hsame : recategorizeSpendsForChild txidMap height
            { s with recategorized := s.recategorized.insert c } c =
              { s with recategorized := s.recategorized.insert c } := by
          simp only [recategorizeSpendsForChild, hget]
        rw [hsame]
        exact ⟨h.mark_absent hq, fun _ => mem_set_insert.mpr (.inl rfl),
          fun g hg => mem_set_insert.mpr (.inr hg)⟩
    | some q =>
        obtain ⟨tx, htx, -⟩ := h.stays c q hq
        have hs' : Recategorized txidMap height c tx
            { s with recategorized := s.recategorized.insert c } _ := recategorized_of_get htx
        refine ⟨h.recategorize hc hkeyed hq hrecat htx hs', fun _ => ?_, fun g hg => ?_⟩
        · rw [hs'.recategorized]
          exact mem_set_insert.mpr (.inl rfl)
        · rw [hs'.recategorized]
          exact mem_set_insert.mpr (.inr hg)

/-- All children of a confirmed transaction are recategorized. -/
theorem ConfInv.foldl_confirmChild (hc : Confirms H P txidMap height db db') (hkeyed : P.Keyed)
    {mp : Mempool} {done : List TxHash} {s : RmState} (h : ConfInv H rpa P db db' txidMap mp done s)
    (cs : List TxHash) :
    ConfInv H rpa P db db' txidMap mp done (cs.foldl (Mempool.confirmChild txidMap height) s) ∧
      (∀ c ∈ cs, c ∉ txidMap.keys →
        c ∈ (cs.foldl (Mempool.confirmChild txidMap height) s).recategorized) ∧
      ∀ g ∈ s.recategorized,
        g ∈ (cs.foldl (Mempool.confirmChild txidMap height) s).recategorized := by
  induction cs generalizing s with
  | nil => exact ⟨h, by simp, fun _ hg => hg⟩
  | cons c cs ih =>
      obtain ⟨hinv, hself, hmono⟩ := h.confirmChild hc hkeyed c
      obtain ⟨hinv', hself', hmono'⟩ := ih hinv
      refine ⟨hinv', fun c' hc' hgone => ?_, fun g hg => hmono' g (hmono g hg)⟩
      rcases List.mem_cons.mp hc' with rfl | hc'
      · exact hmono' c' (hself hgone)
      · exact hself' c' hc' hgone

theorem ConfInv.addHashXs {mp : Mempool} {done : List TxHash} {s : RmState}
    (h : ConfInv H rpa P db db' txidMap mp done s) (tx : Tx) :
    ConfInv H rpa P db db' txidMap mp done
      { s with scriptHashesAffected := addHashXs tx s.scriptHashesAffected } := by
  refine ⟨h.absent, h.stays, h.untouched, ?_, h.leaving, ?_, h.table, h.hashXTxs, h.dsps,
    h.dspTxids⟩
  · intro g q hq hg hnone sh htouch
    obtain ⟨ha, hb⟩ := h.resorted g q hq hg hnone sh htouch
    exact ⟨mem_addHashXs.mpr (.inl ha), hb⟩
  · intro g q sh hg hq htouch
    exact mem_addHashXs.mpr (.inl (h.affected g q sh hg hq htouch))

/-- A confirmed transaction whose children are recategorized is erased. -/
theorem ConfInv.eraseTx (hkeyed : P.Keyed) {mp : Mempool} {done : List TxHash} {s : RmState}
    (h : ConfInv H rpa P db db' txidMap mp done s) {t : TxHash} (ht : t ∈ txidMap.keys)
    {qt : NewTx} (hqt : P.without done t = some qt) {tx : Tx}
    (hleaving : Leaving H rpa P db txidMap.keys qt tx)
    (haff : ∀ sh, P.Touches H db qt sh → sh ∈ s.scriptHashesAffected)
    (hchildren : ∀ c, c ∈ tx.children → c ∉ txidMap.keys → c ∈ s.recategorized) :
    ConfInv H rpa P db db' txidMap mp (done ++ [t]) (eraseTx s t tx) := by
  have hqtP := (Pool.without_eq_some.mp hqt).2
  have hhash : tx.hash = t := by rw [hleaving.hash, hkeyed t qt hqtP]
  have hget : ∀ g, (Mempool.eraseTx s t tx).mp.txs[g]? =
      if t = g then none else s.mp.txs[g]?.map (unlinkOn tx g) := by
    intro g
    simp only [Mempool.eraseTx, get_erase, get_unlink]
  have hother : ∀ g, t ≠ g → P.without (done ++ [t]) g = P.without done g := by
    intro g hne
    simp [Pool.without, Ne.symm hne]
  have hspends : ∀ c, c ∉ txidMap.keys → (c ∈ tx.children ↔ P.Spends c t) := by
    intro c hc
    rw [hleaving.children c hc, ← hleaving.hash, hhash]
  refine ⟨?_, ?_, ?_, ?_, ?_, ?_, ?_, h.hashXTxs, h.dsps, h.dspTxids⟩
  · intro g hg
    rw [hget]
    split_ifs with hgt
    · rfl
    · rw [hother g hgt] at hg
      rw [h.absent g hg]
      rfl
  · intro g q hq
    obtain ⟨hgone, hqP⟩ := Pool.without_eq_some.mp hq
    have hgt : t ≠ g := fun e => hgone (e ▸ ht)
    obtain ⟨x, hx, hparents, hold, hnew⟩ := h.stays g q hq
    have hframe : unlinkOn tx g x = { x with parents := (unlinkOn tx g x).parents } := by
      have hnot : g ∉ tx.parents := fun hp => hgone (hleaving.parents g hp)
      simp only [unlinkOn, if_neg hnot]
    rw [hget, if_neg hgt, hx]
    refine ⟨_, rfl, fun p => ?_, fun hn => ?_, fun hm => ?_⟩
    · have hp : (unlinkOn tx g x).parents =
          if g ∈ tx.children then x.parents.erase t else x.parents := by
        rw [← hhash]
        rfl
      rw [hp, List.mem_append, List.mem_singleton, not_or, ← and_assoc, ← hparents]
      split_ifs with hchild
      · rw [mem_set_erase, and_comm]
      · refine ⟨fun hmem => ⟨hmem, ?_⟩, fun hmem => hmem.1⟩
        rintro rfl
        obtain ⟨⟨-, txo, htxo, he⟩, -⟩ := (hparents p).mp hmem
        exact hchild ((hspends g hgone).mpr ⟨q, hqP, txo, htxo, he⟩)
    · rw [hframe]
      exact (hold hn).setParents _
    · rw [hframe]
      exact (hnew hm).setParents _
  · intro g q hq hn txo htxo hP hmem
    obtain ⟨hgone, hqP⟩ := Pool.without_eq_some.mp hq
    rcases List.mem_append.mp hmem with hmem | hmem
    · exact h.untouched g q hq hn txo htxo hP hmem
    · rw [List.mem_singleton] at hmem
      exact hn (hchildren g ((hspends g hgone).mpr ⟨q, hqP, txo, htxo, hmem⟩) hgone)
  · exact h.resorted
  · intro g q hq hg
    have hgt : t ≠ g := by
      rintro rfl
      rw [Pool.without_of_mem (by simp)] at hq
      cases hq
    rw [hother g hgt] at hq
    obtain ⟨x, hx, hlx⟩ := h.leaving g q hq hg
    rw [hget, if_neg hgt, hx]
    exact ⟨_, rfl, hlx.unlink (by rwa [hhash])⟩
  · intro g q sh hg hq htouch
    rcases List.mem_append.mp hg with hg | hg
    · exact h.affected g q sh hg hq htouch
    · rw [List.mem_singleton] at hg
      subst hg
      rw [hqtP, Option.some.injEq] at hq
      subst hq
      exact haff sh htouch
  · have htable : (Mempool.eraseTx s t tx).mp.optPrefixTable =
        (rmTxRpaAssociations s.mp.optPrefixTable tx).2 := rfl
    rw [htable]
    exact h.table.rmTx hqt hhash hleaving.rpaNone hleaving.rpaSome

/-- The affected script hashes only grow. -/
theorem affected_foldl_confirmChild {s : RmState} (cs : List TxHash) {sh : HashX}
    (hsh : sh ∈ s.scriptHashesAffected) :
    sh ∈ (cs.foldl (Mempool.confirmChild txidMap height) s).scriptHashesAffected := by
  induction cs generalizing s with
  | nil => exact hsh
  | cons c cs ih =>
      apply ih
      unfold Mempool.confirmChild
      split_ifs
      · exact hsh
      · cases htx : s.mp.txs[c]? with
        | none => simpa only [recategorizeSpendsForChild, htx] using hsh
        | some tx =>
            have hs' : Recategorized txidMap height c tx
                { s with recategorized := s.recategorized.insert c } _ := recategorized_of_get htx
            exact hs'.affected sh hsh

/-- One round of the loop of `confirmedInBlock`. -/
theorem ConfInv.step (hc : Confirms H P txidMap height db db') (hkeyed : P.Keyed) {mp : Mempool}
    {done : List TxHash} {s : RmState} (h : ConfInv H rpa P db db' txidMap mp done s) {t : TxHash}
    (ht : t ∈ txidMap.keys) :
    ConfInv H rpa P db db' txidMap mp (done ++ [t]) (confirmTx txidMap height s t) := by
  cases hqt : P.without done t with
  | none =>
      have hsame := Pool.without_append_of_none hqt
      have hskip : confirmTx txidMap height s t = s := by
        unfold confirmTx
        rw [h.absent t hqt]
      have hdone : ∀ g, P g ≠ none → g ∈ done ++ [t] → g ∈ done := by
        intro g hg hmem
        rcases List.mem_append.mp hmem with hmem | hmem
        · exact hmem
        · rw [List.mem_singleton] at hmem
          subst hmem
          by_contra hn
          rw [Pool.without_of_not_mem hn] at hqt
          exact hg hqt
      rw [hskip]
      refine ⟨?_, ?_, ?_, h.resorted, ?_, ?_, ?_, h.hashXTxs, h.dsps, h.dspTxids⟩
      · rw [hsame]
        exact h.absent
      · intro g q hq
        obtain ⟨x, hx, hparents, hold, hnew⟩ := h.stays g q hq
        refine ⟨x, hx, fun p => (hparents p).trans (and_congr_right fun hp => ?_), hold, hnew⟩
        exact ⟨fun hn hm => hn (hdone p hp.1 hm), fun hn hm => hn (List.mem_append_left _ hm)⟩
      · intro g q hq hn txo htxo hP hmem
        exact h.untouched g q hq hn txo htxo hP (hdone _ hP hmem)
      · rw [hsame]
        exact h.leaving
      · intro g q sh hg hq
        exact h.affected g q sh (hdone g (by simp [hq]) hg) hq
      · rw [hsame]
        exact h.table
  | some qt =>
      obtain ⟨tx, htx, hleaving⟩ := h.leaving t qt hqt ht
      have heq : confirmTx txidMap height s t = Mempool.eraseTx
          (tx.children.toList.foldl (Mempool.confirmChild txidMap height)
            { s with scriptHashesAffected := Mempool.addHashXs tx s.scriptHashesAffected })
          t tx := by
        unfold confirmTx
        rw [htx]
        simp [h.dsps, DSPs.dspHashesForTx]
      obtain ⟨hinv, hself, -⟩ := (h.addHashXs tx).foldl_confirmChild hc hkeyed tx.children.toList
      rw [heq]
      refine hinv.eraseTx hkeyed ht hqt hleaving ?_ ?_
      · intro sh htouch
        refine affected_foldl_confirmChild _ (mem_addHashXs.mpr (.inr ?_))
        exact (hleaving.mem_hashXs sh).mpr htouch
      · intro c hcmem hgone
        exact hself c (Std.ExtTreeSet.mem_toList.mpr hcmem) hgone

/-- The whole loop of `confirmedInBlock`. -/
theorem ConfInv.foldl (hc : Confirms H P txidMap height db db') (hkeyed : P.Keyed) {mp : Mempool}
    {done rest : List TxHash} {s : RmState} (h : ConfInv H rpa P db db' txidMap mp done s)
    (hsub : rest ⊆ txidMap.keys) :
    ConfInv H rpa P db db' txidMap mp (done ++ rest)
      (rest.foldl (confirmTx txidMap height) s) := by
  induction rest generalizing done s with
  | nil =>
      rw [List.append_nil]
      exact h
  | cons t rest ih =>
      have hstep := h.step hc hkeyed (hsub (by simp) : t ∈ txidMap.keys)
      have hrest := ih hstep fun g hg => hsub (by simp [hg])
      rw [List.append_assoc] at hrest
      exact hrest

/-- The records after the loop. -/
theorem ConfInv.txRep (hc : Confirms H P txidMap height db db') (hkeyed : P.Keyed) {mp : Mempool}
    {s : RmState} (h : ConfInv H rpa P db db' txidMap mp txidMap.keys s) {g : TxHash} {q : NewTx}
    (hq : P.without txidMap.keys g = some q) :
    ∃ tx, s.mp.txs[g]? = some tx ∧ TxRep H rpa (P.without txidMap.keys) db' q tx := by
  obtain ⟨hgone, hqP⟩ := Pool.without_eq_some.mp hq
  have hkey := hkeyed g q hqP
  obtain ⟨tx, htx, hparents, hold, hnew⟩ := h.stays g q hq
  by_cases hrecat : g ∈ s.recategorized
  · refine ⟨tx, htx, hnew hrecat, fun p => ?_⟩
    rw [hparents]
    constructor
    · rintro ⟨⟨hP, hex⟩, hn⟩
      exact ⟨by rwa [Pool.without_of_not_mem hn], hex⟩
    · rintro ⟨hP, hex⟩
      have hn : p ∉ txidMap.keys := fun hm => hP (Pool.without_of_mem hm)
      exact ⟨⟨by rwa [Pool.without_of_not_mem hn] at hP, hex⟩, hn⟩
  · -- none of its parents is in the block: both pools look the same to it
    have huntouched := h.untouched g q hq hrecat
    have hrep : TxRep H rpa P db q tx := by
      refine ⟨hold hrecat, fun p => (hparents p).trans ⟨fun hp => hp.1, fun hp => ⟨hp, ?_⟩⟩⟩
      obtain ⟨hP, txo, htxo, rfl⟩ := hp
      exact huntouched txo htxo hP
    have hsame : ∀ txo ∈ q.prevouts, P txo.txHash = P.without txidMap.keys txo.txHash := by
      intro txo htxo
      by_cases hP : P txo.txHash = none
      · unfold Pool.without
        split_ifs
        · exact hP
        · rfl
      · exact (Pool.without_of_not_mem (huntouched txo htxo hP)).symm
    refine ⟨tx, htx, hrep.congr ⟨?_, ?_, ?_, ?_⟩⟩
    · intro txo htxo
      rw [Pool.OutsAgree, hsame txo htxo]
    · intro txo htxo hP
      rw [hc.db_eq g q hq txo htxo (by rw [← hsame txo htxo, hP]), confirmDb_of_none hP]
    · intro n
      rw [hkey]
      exact hc.spent hq n
    · intro c
      rw [hkey]
      exact hc.spends hq c

/-- `confirmedInBlock` removes the transactions of the block. -/
theorem Rep.confirmedInBlock {mp : Mempool} (h : Rep H rpa P db mp) (hkeyed : P.Keyed)
    (hc : Confirms H P txidMap height db db') (affectedOut : HashSet) :
    Rep H rpa (P.without txidMap.keys) db'
      (confirmedInBlock txidMap height mp affectedOut).1 := by
  have hinv := (h.toContent.confInv hc).foldl hc hkeyed (List.Subset.refl txidMap.keys)
  rw [List.nil_append] at hinv
  refine rep_rmTxsInHashXTxs h (fun g => ?_) hinv.absent (fun g q hq => hinv.txRep hc hkeyed hq)
    (fun g q sh hq => hc.touches hq sh) (by rw [← hinv.hashXTxs]; rfl)
    (fun g q sh hq hg => hinv.affected g q sh hg hq) ?_ hinv.table ?_
  · rw [decide_eq_true_iff, Std.ExtTreeMap.mem_keys]
  · intro g q hq hflag sh htouch
    obtain ⟨hgone, hqP⟩ := Pool.without_eq_some.mp hq
    obtain ⟨tx, htx, hrep⟩ := h.present g q hqP
    obtain ⟨tx', htx', hrep'⟩ := hinv.txRep hc hkeyed hq
    have hflag' : ¬ (tx.hasUnconfirmedParents = true ↔ tx'.hasUnconfirmedParents = true) := by
      intro he
      apply hflag
      have htx'' : (Mempool.confirmedInBlock txidMap height mp affectedOut).1.txs[g]? = some tx' :=
        htx'
      rw [htx, htx'', Option.any_some, Option.any_some, Bool.eq_iff_iff]
      exact he
    rw [hrep.hasUnconfirmedParents, hrep'.hasUnconfirmedParents] at hflag'
    -- the flag is lost: some parent was confirmed and none is left
    have hsub : (∃ txo ∈ q.prevouts, P.without txidMap.keys txo.txHash ≠ none) →
        ∃ txo ∈ q.prevouts, P txo.txHash ≠ none := by
      rintro ⟨txo, htxo, hne⟩
      refine ⟨txo, htxo, fun hP => hne ?_⟩
      unfold Pool.without
      split_ifs
      · rfl
      · exact hP
    have hnone : ∀ txo ∈ q.prevouts, P.without txidMap.keys txo.txHash = none := by
      intro txo htxo
      by_contra hne
      exact hflag' ⟨fun _ => ⟨txo, htxo, hne⟩, hsub⟩
    obtain ⟨txo, htxo, hP⟩ : ∃ txo ∈ q.prevouts, P txo.txHash ≠ none := by
      by_contra hn
      exact hflag' ⟨fun he => absurd he hn, hsub⟩
    have hrecat : g ∈ (txidMap.keys.foldl (confirmTx txidMap height)
        { mp := mp }).recategorized := by
      by_contra hn
      have hnot := hinv.untouched g q hq hn txo htxo hP
      have := hnone txo htxo
      rw [Pool.without_of_not_mem hnot] at this
      exact hP this
    exact hinv.resorted g q hq hrecat hnone sh htouch
  · simp only [Mempool.confirmedInBlock, hinv.dspTxids, hinv.dsps]
    rfl

end Mempool
end Shulcrum
