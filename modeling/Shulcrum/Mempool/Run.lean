import Shulcrum.Lib.Invariant
import Shulcrum.Mempool.ConfirmedInBlock
import Shulcrum.Mempool.DropTxs

/-!
# Runs of the mempool

The mempool together with the transactions it should hold and the confirmed
unspent outputs.  A run starts from the empty mempool and takes the steps of
the synchronization task: new transactions, dropped ones, a block, a reset.

**Results.**
* `runInv_of_reachable`: in every run the mempool represents its transactions.
* `mempool_consistent`: what this means for the six tables of the mempool.
* `confirmedInBlock_eq_rebuild`, `dropTxs_eq_rebuild`: a block and a drop leave
  the mempool that would be built from the remaining transactions.
-/

namespace Shulcrum

open BTC SortUnique TreeMap Invariant

namespace Pool

variable {H : Hashers} {db : TXO → Option TXOInfo}

/-- The pool of a list of transactions. -/
def ofList (txs : List NewTx) : Pool := putAll (fun _ => none) txs

theorem ofList_eq_some {txs : List NewTx} (hnodup : (txs.map NewTx.hash).Nodup) {h : TxHash}
    {q : NewTx} : ofList txs h = some q ↔ q ∈ txs ∧ q.hash = h := by
  rw [ofList, putAll_eq_some hnodup]
  simp

theorem keyed_ofList (txs : List NewTx) : (ofList txs).Keyed := by
  refine Keyed.putAll ?_ txs
  intro h q hq
  cases hq

theorem ofList_append (txs news : List NewTx) : ofList (txs ++ news) = (ofList txs).putAll news :=
  List.foldl_append

/-- The order of the transactions does not matter. -/
theorem ofList_perm {txs txs' : List NewTx} (hnodup : (txs.map NewTx.hash).Nodup)
    (hperm : txs'.Perm txs) : ofList txs' = ofList txs := by
  have hnodup' : (txs'.map NewTx.hash).Nodup := (hperm.map NewTx.hash).nodup_iff.mpr hnodup
  funext h
  apply Option.ext
  intro q
  rw [ofList_eq_some hnodup, ofList_eq_some hnodup', hperm.mem_iff]

theorem ofList_filter {txs : List NewTx} (hnodup : (txs.map NewTx.hash).Nodup)
    (gone : List TxHash) :
    ofList (txs.filter fun nt => nt.hash ∉ gone) = (ofList txs).without gone := by
  have hnodup' : ((txs.filter fun nt => nt.hash ∉ gone).map NewTx.hash).Nodup :=
    hnodup.sublist (List.filter_sublist.map _)
  funext h
  apply Option.ext
  intro q
  rw [ofList_eq_some hnodup', without_eq_some, ofList_eq_some hnodup, List.mem_filter]
  simp only [decide_eq_true_eq]
  constructor
  · rintro ⟨⟨hq, hgone⟩, rfl⟩
    exact ⟨hgone, hq, rfl⟩
  · rintro ⟨hgone, hq, rfl⟩
    exact ⟨⟨hq, hgone⟩, rfl⟩

end Pool

namespace Mempool

/-- A mempool, the transactions added to it that are still there, and the confirmed outputs. -/
structure RunState where
  mp : Mempool
  txs : List NewTx
  db : TXO → Option TXOInfo

variable (H : Hashers) (rpa : Bool)

/-- The start of a run: no transactions, over any confirmed outputs. -/
def RunState.Start (s : RunState) : Prop := s.mp = empty rpa ∧ s.txs = []

/-- The steps of a run. -/
inductive Step : RunState → RunState → Prop
  /-- `addNewTxs` of transactions that are new, without double spends, when it does not throw. -/
  | add {s : RunState} (news : List NewTx) (affected : HashSet)
      {r : Mempool × HashSet × MempoolStats} (hfresh : Fresh (Pool.ofList s.txs) news)
      (hspends : (Pool.ofList (s.txs ++ news)).NoDoubleSpend)
      (hok : addNewTxs H s.db s.mp affected news = .ok r) :
      Step s { s with mp := r.1, txs := s.txs ++ news }
  | drop {s : RunState} (txids : List TxHash) (affected : HashSet)
      {r : Mempool × List TxHash × HashSet × MempoolStats}
      (hdrop : dropTxs s.mp affected txids = some r) :
      Step s { s with mp := r.1, txs := s.txs.filter fun nt => nt.hash ∉ r.2.1 }
  /-- A block that is closed under ancestors, and the confirmed outputs after it. -/
  | confirm {s : RunState} (txidMap : Std.ExtTreeMap TxHash Nat compare) (height : Nat)
      (affected : HashSet) {db' : TXO → Option TXOInfo}
      (hconfirms : Confirms H (Pool.ofList s.txs) txidMap height s.db db') :
      Step s
        { mp := (confirmedInBlock txidMap height s.mp affected).1
          txs := s.txs.filter fun nt => nt.hash ∉ txidMap.keys
          db := db' }
  | clear {s : RunState} (db' : TXO → Option TXOInfo) :
      Step s { mp := s.mp.clear, txs := [], db := db' }

/-- The mempool represents its transactions. -/
structure RunInv (s : RunState) : Prop where
  nodup : (s.txs.map NewTx.hash).Nodup
  rep : Rep H rpa (Pool.ofList s.txs) s.db s.mp
  noDoubleSpend : (Pool.ofList s.txs).NoDoubleSpend
  resolved : (Pool.ofList s.txs).Resolved H s.db

variable {H rpa}

theorem nodup_append {txs news : List NewTx} (hnodup : (txs.map NewTx.hash).Nodup)
    (hfresh : Fresh (Pool.ofList txs) news) : ((txs ++ news).map NewTx.hash).Nodup := by
  rw [List.map_append, List.nodup_append]
  refine ⟨hnodup, hfresh.nodup, ?_⟩
  rintro h hh h' hh' rfl
  obtain ⟨nt, hnt, rfl⟩ := List.mem_map.mp hh
  obtain ⟨nt', hnt', he⟩ := List.mem_map.mp hh'
  have hnone := hfresh.none nt' hnt'
  rw [he, (Pool.ofList_eq_some hnodup).mpr ⟨hnt, rfl⟩] at hnone
  cases hnone

/-- Dropped or confirmed transactions take nothing the others need. -/
theorem resolved_putAll {P : Pool} {db : TXO → Option TXOInfo} {news : List NewTx}
    (hnews : Fresh P news) (hP : P.Resolved H db)
    (hres : ∀ nt ∈ news, ∀ txo ∈ nt.prevouts,
      ∃ info, (P.putAll news).prevInfo H db txo = some info) :
    (P.putAll news).Resolved H db := by
  intro h q hq txo htxo
  rcases (Pool.putAll_eq_some hnews.nodup).mp hq with ⟨hmem, -⟩ | ⟨-, hq⟩
  · exact hres q hmem txo htxo
  · obtain ⟨info, hinfo⟩ := hP h q hq txo htxo
    refine ⟨info, ?_⟩
    have hnot : txo.txHash ∉ news.map NewTx.hash := by
      intro hm
      obtain ⟨nt, hnt, he⟩ := List.mem_map.mp hm
      exact hnews.unused nt hnt h q hq txo htxo he.symm
    simpa only [Pool.prevInfo, Pool.putAll_of_not_mem hnot] using hinfo

theorem resolved_without {P : Pool} {db : TXO → Option TXOInfo} {gone : List TxHash}
    (hclosed : P.DescendantClosed gone) (hP : P.Resolved H db) :
    (P.without gone).Resolved H db := by
  intro h q hq txo htxo
  obtain ⟨hgone, hq⟩ := Pool.without_eq_some.mp hq
  obtain ⟨info, hinfo⟩ := hP h q hq txo htxo
  refine ⟨info, ?_⟩
  simpa only [Pool.prevInfo, agree_without hclosed hq hgone txo htxo] using hinfo

theorem Confirms.resolved {P : Pool} {db db' : TXO → Option TXOInfo}
    {txidMap : Std.ExtTreeMap TxHash Nat compare} {height : Nat}
    (hc : Confirms H P txidMap height db db') (hP : P.Resolved H db) :
    (P.without txidMap.keys).Resolved H db' := by
  intro h q hq txo htxo
  obtain ⟨info, hinfo⟩ := hP h q (Pool.without_eq_some.mp hq).2 txo htxo
  rcases hc.prevInfo hq htxo with he | ⟨n, -, -, he⟩
  · exact ⟨info, by rw [he, hinfo]⟩
  · exact ⟨info.confirmed height n, by rw [he, hinfo]; rfl⟩

theorem Rep.clear {P : Pool} {db : TXO → Option TXOInfo} {mp : Mempool}
    (h : Rep H rpa P db mp) : mp.clear = empty rpa := by
  unfold Mempool.clear empty
  cases rpa with
  | false => rw [h.table.1 rfl]; rfl
  | true =>
      obtain ⟨t, ht, -⟩ := h.table.2 rfl
      rw [ht]
      rfl

/-- No transaction is listed twice under a script hash. -/
theorem Rep.nodup_listed {P : Pool} {db : TXO → Option TXOInfo} {mp : Mempool}
    (h : Rep H rpa P db mp) (sh : HashX) : (mp.hashXTxs[sh]?.getD []).Nodup := by
  cases hv : mp.hashXTxs[sh]? with
  | none => exact List.nodup_nil
  | some v => exact nodup_of_strict (h.sorted sh v hv)

/-- Every step keeps the invariant. -/
theorem RunInv.step {s t : RunState} (h : RunInv H rpa s) (hstep : Step H s t) :
    RunInv H rpa t := by
  have hkeyed := Pool.keyed_ofList s.txs
  cases hstep with
  | @add news affected r hfresh hspends hok =>
      have hres := h.rep.toContent.resolved_of_addNewTxs hkeyed hfresh hok
      obtain ⟨r', hok', hrep⟩ := h.rep.addNewTxs hkeyed hfresh hres affected
      rw [hok, Except.ok.injEq] at hok'
      subst hok'
      refine ⟨nodup_append h.nodup hfresh, ?_, hspends, ?_⟩
      · rw [Pool.ofList_append]
        exact hrep
      · rw [Pool.ofList_append]
        exact resolved_putAll hfresh h.resolved hres
  | @drop txids affected r hdrop =>
      obtain ⟨gone, r', hdrop', rfl, hgone, hrep, -⟩ :=
        h.rep.dropTxs h.noDoubleSpend hkeyed affected txids
      rw [hdrop, Option.some.injEq] at hdrop'
      subst hdrop'
      have hfilter := Pool.ofList_filter h.nodup r.2.1
      refine ⟨h.nodup.sublist (List.filter_sublist.map _), ?_, ?_, ?_⟩
      · rw [hfilter]
        exact hrep
      · rw [hfilter]
        exact h.noDoubleSpend.without _
      · rw [hfilter]
        exact resolved_without (descendantClosed_of_mem hgone) h.resolved
  | @confirm txidMap height affected db' hconfirms =>
      have hfilter := Pool.ofList_filter h.nodup txidMap.keys
      refine ⟨h.nodup.sublist (List.filter_sublist.map _), ?_, ?_, ?_⟩
      · rw [hfilter]
        exact h.rep.confirmedInBlock hkeyed hconfirms affected
      · rw [hfilter]
        exact h.noDoubleSpend.without _
      · rw [hfilter]
        exact hconfirms.resolved h.resolved
  | clear db' =>
      refine ⟨List.nodup_nil, ?_, ?_, ?_⟩
      · rw [h.rep.clear]
        exact rep_empty
      · intro _ _ _ _ _ hq
        cases hq
      · intro _ _ hq
        cases hq

theorem RunInv.start {s : RunState} (h : s.Start rpa) : RunInv H rpa s := by
  obtain ⟨hmp, htxs⟩ := h
  refine ⟨by simp [htxs], ?_, ?_, ?_⟩
  · rw [hmp, htxs]
    exact rep_empty
  · rw [htxs]
    intro _ _ _ _ _ hq
    cases hq
  · rw [htxs]
    intro _ _ hq
    cases hq

theorem runInv_of_reachable {s : RunState} (h : Reachable (RunState.Start rpa) (Step H) s) :
    RunInv H rpa s :=
  h.invariant (fun _ hs => RunInv.start hs) (fun _ _ hi hst => hi.step hst)

/-- Adding transactions whose inputs are all there to the empty mempool. -/
theorem rebuild (rpa : Bool) {txs : List NewTx} {db : TXO → Option TXOInfo}
    (hnodup : (txs.map NewTx.hash).Nodup) (hres : (Pool.ofList txs).Resolved H db)
    (affected : HashSet) :
    ∃ r, addNewTxs H db (empty rpa) affected txs = .ok r ∧
      Rep H rpa (Pool.ofList txs) db r.1 := by
  have hempty : Rep H rpa noTxs db (empty rpa) := rep_empty
  refine hempty.addNewTxs ?_ ⟨hnodup, ?_, ?_⟩ ?_ affected
  · intro _ _ hq
    cases hq
  · intro _ _
    rfl
  · intro _ _ _ _ hq
    cases hq
  · intro nt hnt txo htxo
    exact hres nt.hash nt ((Pool.ofList_eq_some hnodup).mpr ⟨hnt, rfl⟩) txo htxo

/-- Any order of adding the transactions gives the same mempool. -/
theorem Rep.eq_rebuild {mp : Mempool} {txs txs' : List NewTx} {db : TXO → Option TXOInfo}
    (h : Rep H rpa (Pool.ofList txs) db mp) (hnodup : (txs.map NewTx.hash).Nodup)
    (hres : (Pool.ofList txs).Resolved H db) (hperm : txs'.Perm txs) (affected : HashSet) :
    ∃ r, Mempool.addNewTxs H db (empty rpa) affected txs' = .ok r ∧ r.1 = mp := by
  have heq := Pool.ofList_perm hnodup hperm
  have hnodup' : (txs'.map NewTx.hash).Nodup := (hperm.map NewTx.hash).nodup_iff.mpr hnodup
  rw [← heq] at h hres
  obtain ⟨r, hok, hrep⟩ := rebuild rpa hnodup' hres affected
  exact ⟨r, hok, hrep.unique h⟩

/-- The tables of a mempool agree with its transactions and with each other. -/
structure Consistent (H : Hashers) (txs : List NewTx) (mp : Mempool) : Prop where
  ids : ∀ h, h ∈ mp.txs ↔ ∃ nt ∈ txs, nt.hash = h
  /-- The vector of a script hash has exactly the transactions that touch it. -/
  mem_hashXTxs : ∀ (sh : HashX) (h : TxHash), h ∈ mp.hashXTxs[sh]?.getD [] ↔
    ∃ tx, mp.txs[h]? = some tx ∧ sh ∈ tx.hashXs
  ne_nil : ∀ sh : HashX, mp.hashXTxs[sh]? ≠ some []
  sorted : ∀ (sh : HashX) (v : List TxHash), mp.hashXTxs[sh]? = some v →
    v.Nodup ∧ v.Pairwise fun a b => txRefLe mp.txs a b = true
  /-- The unspent outputs are the valid outputs that no transaction spends. -/
  utxo : ∀ nt ∈ txs, ∀ tx, mp.txs[nt.hash]? = some tx → ∀ sh n, n ∈ (tx.io sh).utxo ↔
    (∃ info, nt.outAt H n = some info ∧ info.hashX = sh) ∧
      ¬ ∃ c ∈ txs, (⟨nt.hash, n⟩ : TXO) ∈ c.prevouts
  unconf : ∀ (h : TxHash) tx, mp.txs[h]? = some tx → ∀ sh (txo : TXO) info,
    (tx.io sh).unconfirmedSpends[txo]? = some info →
      info.confirmedHeight = none ∧
        ∃ p ∈ txs, p.hash = txo.txHash ∧ p.outAt H txo.outN = some info
  conf : ∀ (h : TxHash) tx, mp.txs[h]? = some tx → ∀ sh (txo : TXO) info,
    (tx.io sh).confirmedSpends[txo]? = some info → txo.txHash ∉ mp.txs
  flag : ∀ (h : TxHash) tx, mp.txs[h]? = some tx →
    (tx.hasUnconfirmedParents = true ↔
      ∃ (sh : HashX) (io : IOInfo), tx.hashXs[sh]? = some io ∧ io.unconfirmedSpends ≠ ∅)
  symm : ∀ (p c : TxHash) ptx ctx, mp.txs[p]? = some ptx → mp.txs[c]? = some ctx →
    (c ∈ ptx.children ↔ p ∈ ctx.parents)
  children : ∀ (p : TxHash) ptx, mp.txs[p]? = some ptx → ∀ c, c ∈ ptx.children ↔
    ∃ nt ∈ txs, nt.hash = c ∧ ∃ txo ∈ nt.prevouts, txo.txHash = p
  parents : ∀ nt ∈ txs, ∀ tx, mp.txs[nt.hash]? = some tx → ∀ p, p ∈ tx.parents ↔
    p ∈ mp.txs ∧ ∃ txo ∈ nt.prevouts, txo.txHash = p

theorem confirmedHeight_outAt {nt : NewTx} {n : Nat} {info : TXOInfo}
    (h : nt.outAt H n = some info) : info.confirmedHeight = none := by
  rw [NewTx.outAt, NewTx.outInfos, List.getElem?_map, Option.join_eq_some_iff,
    Option.map_eq_some_iff] at h
  obtain ⟨out, -, hout⟩ := h
  unfold outInfo at hout
  split_ifs at hout
  rw [Option.some.injEq] at hout
  rw [← hout]

theorem Content.get_iff {P : Pool} {db : TXO → Option TXOInfo} {mp : Mempool}
    (h : Content H rpa P db mp) {g : TxHash} {tx : Tx} :
    mp.txs[g]? = some tx ↔ ∃ q, P g = some q ∧ mp.txs[g]? = some tx ∧ TxRep H rpa P db q tx := by
  constructor
  · intro hget
    cases hP : P g with
    | none =>
        rw [h.absent g hP] at hget
        cases hget
    | some q =>
        obtain ⟨tx', hget', hrep⟩ := h.present g q hP
        have he : tx' = tx := by
          rw [hget, Option.some.injEq] at hget'
          exact hget'.symm
        subst he
        exact ⟨q, rfl, hget, hrep⟩
  · rintro ⟨-, -, hget, -⟩
    exact hget

theorem Content.mem_txs {P : Pool} {db : TXO → Option TXOInfo} {mp : Mempool}
    (h : Content H rpa P db mp) {g : TxHash} : g ∈ mp.txs ↔ P g ≠ none := by
  rw [mem_iff_getElem?]
  constructor
  · rintro ⟨tx, hget⟩
    obtain ⟨q, hq, -⟩ := h.get_iff.mp hget
    simp [hq]
  · intro hne
    obtain ⟨q, hq⟩ := Option.ne_none_iff_exists'.mp hne
    obtain ⟨tx, hget, -⟩ := h.present g q hq
    exact ⟨tx, hget⟩

/-- The parents are those whose outputs are among the unconfirmed spends. -/
theorem TxRep.mem_parents_iff {P : Pool} {db : TXO → Option TXOInfo} (hres : P.Resolved H db)
    {g : TxHash} {q : NewTx} (hq : P g = some q) {tx : Tx} (h : TxRep H rpa P db q tx)
    {p : TxHash} : p ∈ tx.parents ↔
      ∃ (sh : HashX) (txo : TXO), txo ∈ (tx.io sh).unconfirmedSpends ∧ txo.txHash = p := by
  rw [h.parents]
  constructor
  · rintro ⟨hP, txo, htxo, rfl⟩
    obtain ⟨ptx, hptx⟩ := Option.ne_none_iff_exists'.mp hP
    obtain ⟨info, hinfo⟩ := hres g q hq txo htxo
    have hout : ptx.outAt H txo.outN = some info := by rwa [Pool.prevInfo_of_some hptx] at hinfo
    have hunconf := (h.unconf info.hashX txo info).mpr ⟨htxo, ⟨ptx, hptx, hout⟩, rfl⟩
    exact ⟨info.hashX, txo, mem_iff_getElem?.mpr ⟨info, hunconf⟩, rfl⟩
  · rintro ⟨sh, txo, htxo, rfl⟩
    obtain ⟨info, hinfo⟩ := mem_iff_getElem?.mp htxo
    obtain ⟨hprev, ⟨ptx, hptx, -⟩, -⟩ := (h.unconf sh txo info).mp hinfo
    exact ⟨by simp [hptx], txo, hprev, rfl⟩

/-- The flag says whether some script hash has unconfirmed spends. -/
theorem TxRep.flag_iff {P : Pool} {db : TXO → Option TXOInfo} (hres : P.Resolved H db) {g : TxHash}
    {q : NewTx} (hq : P g = some q) {tx : Tx} (h : TxRep H rpa P db q tx) :
    tx.hasUnconfirmedParents = true ↔
      ∃ (sh : HashX) (io : IOInfo), tx.hashXs[sh]? = some io ∧ io.unconfirmedSpends ≠ ∅ := by
  simp only [hasUnconfirmedParents_iff, h.mem_parents_iff hres hq]
  constructor
  · rintro ⟨-, sh, txo, htxo, rfl⟩
    have hmem : sh ∈ tx.hashXs := by
      by_contra hn
      rw [Tx.io_of_not_mem hn] at htxo
      simp at htxo
    exact ⟨sh, tx.io sh, Tx.get_hashXs_of_mem hmem, ne_empty_iff.mpr ⟨txo, htxo⟩⟩
  · rintro ⟨sh, io, hio, hne⟩
    obtain ⟨txo, htxo⟩ := ne_empty_iff.mp hne
    have hio' : tx.io sh = io := by
      rw [Tx.io, hio]
      rfl
    exact ⟨txo.txHash, sh, txo, hio' ▸ htxo, rfl⟩

/-- In every run the tables of the mempool are consistent. -/
theorem mempool_consistent {s : RunState} (h : Reachable (RunState.Start rpa) (Step H) s) :
    Consistent H s.txs s.mp := by
  have hinv := runInv_of_reachable h
  have hcontent := hinv.rep.toContent
  have hkeyed := Pool.keyed_ofList s.txs
  have hmem : ∀ g q, Pool.ofList s.txs g = some q ↔ q ∈ s.txs ∧ q.hash = g :=
    fun g q => Pool.ofList_eq_some hinv.nodup
  have hrec : ∀ nt ∈ s.txs, ∀ tx, s.mp.txs[nt.hash]? = some tx →
      TxRep H rpa (Pool.ofList s.txs) s.db nt tx := by
    intro nt hnt tx hget
    obtain ⟨q, hq, -, hrep⟩ := hcontent.get_iff.mp hget
    rw [(hmem _ nt).mpr ⟨hnt, rfl⟩, Option.some.injEq] at hq
    rw [hq]
    exact hrep
  have hspends : ∀ c p, (Pool.ofList s.txs).Spends c p ↔
      ∃ nt ∈ s.txs, nt.hash = c ∧ ∃ txo ∈ nt.prevouts, txo.txHash = p := by
    intro c p
    unfold Pool.Spends
    simp only [hmem, and_assoc]
  exact
    { ids := fun g => by
        rw [hcontent.mem_txs, Option.ne_none_iff_exists']
        simp only [hmem]
      mem_hashXTxs := fun sh g => by
        rw [hinv.rep.mem_hashXTxs]
        constructor
        · rintro ⟨q, hq, htouch⟩
          obtain ⟨tx, hget, hrep⟩ := hcontent.present g q hq
          exact ⟨tx, hget, (hrep.mem_hashXs sh).mpr htouch⟩
        · rintro ⟨tx, hget, hsh⟩
          obtain ⟨q, hq, -, hrep⟩ := hcontent.get_iff.mp hget
          exact ⟨q, hq, (hrep.mem_hashXs sh).mp hsh⟩
      ne_nil := hinv.rep.ne_nil
      sorted := fun sh v hv => by
        have hs := hinv.rep.sorted sh v hv
        exact ⟨nodup_of_strict hs, hs.imp fun hab => hab.1⟩
      utxo := fun nt hnt tx hget sh n => by
        rw [(hrec nt hnt tx hget).utxo]
        refine and_congr_right fun _ => not_congr ?_
        unfold Pool.Spent
        simp only [hmem]
        constructor
        · rintro ⟨-, q, ⟨hq, rfl⟩, hprev⟩
          exact ⟨q, hq, hprev⟩
        · rintro ⟨q, hq, hprev⟩
          exact ⟨q.hash, q, ⟨hq, rfl⟩, hprev⟩
      unconf := fun g tx hget sh txo info hinfo => by
        obtain ⟨q, -, -, hrep⟩ := hcontent.get_iff.mp hget
        obtain ⟨-, ⟨p, hp, hout⟩, -⟩ := (hrep.unconf sh txo info).mp hinfo
        obtain ⟨hpmem, hhash⟩ := (hmem _ p).mp hp
        exact ⟨confirmedHeight_outAt hout, p, hpmem, hhash, hout⟩
      conf := fun g tx hget sh txo info hinfo => by
        obtain ⟨q, -, -, hrep⟩ := hcontent.get_iff.mp hget
        obtain ⟨-, hnone, -⟩ := (hrep.conf sh txo info).mp hinfo
        rw [hcontent.mem_txs, not_not]
        exact hnone
      flag := fun g tx hget => by
        obtain ⟨q, hq, -, hrep⟩ := hcontent.get_iff.mp hget
        exact hrep.flag_iff hinv.resolved hq
      symm := fun p c ptx ctx hp hc => by
        obtain ⟨q, hq, -, hrep⟩ := hcontent.get_iff.mp hp
        obtain ⟨r, hr, -, hrep'⟩ := hcontent.get_iff.mp hc
        rw [hrep.children, hrep'.parents, hkeyed p q hq, hq]
        constructor
        · rintro ⟨r', hr', hex⟩
          rw [hr, Option.some.injEq] at hr'
          subst hr'
          exact ⟨by simp, hex⟩
        · rintro ⟨-, hex⟩
          exact ⟨r, hr, hex⟩
      children := fun p ptx hget c => by
        obtain ⟨q, hq, -, hrep⟩ := hcontent.get_iff.mp hget
        rw [hrep.children, hkeyed p q hq, hspends]
      parents := fun nt hnt tx hget p => by
        rw [(hrec nt hnt tx hget).parents, hcontent.mem_txs] }

section Witnesses

/-- The reversed hash of the script `OP_TRUE`, the only script below. -/
def opTrueHashX : HashX := 0x6032c38c0bc0e91e726f1e55e1832e434509001a7aed5cfd881b6ef07215e84a

/-- Hash functions with the right value for `OP_TRUE`. -/
def opTrueHashers : Hashers where
  hashXFromCScript _ := opTrueHashX
  rpaPrefix _ := 0
  headerPoWHash _ := 0
  hashRev _ := 0

/-- One confirmed output of 5000 units. -/
def oneOutput (txo : TXO) : Option TXOInfo :=
  if txo = ⟨9, 0⟩ then
    some { amount := 5000, hashX := opTrueHashX, confirmedHeight := some 3, txNum := 4,
           tokenDataPtr := none }
  else none

/-- A transaction that spends the confirmed output. -/
def parentTx : NewTx :=
  { ctx := { hash := 1, vin := [{ prevout := ⟨9, 0⟩ }]
             vout := [{ nValue := 4000, scriptPubKey := [0x51] }] }
    sizeBytes := 100
    vsizeBytes := 100 }

/-- A transaction that spends the output of `parentTx`. -/
def childTx : NewTx :=
  { ctx := { hash := 2, vin := [{ prevout := ⟨1, 0⟩ }]
             vout := [{ nValue := 3000, scriptPubKey := [0x51] }] }
    sizeBytes := 100
    vsizeBytes := 100 }

theorem nodup_parentChild : ([parentTx, childTx].map NewTx.hash).Nodup := by decide

/-- The two transactions need nothing but the confirmed output. -/
theorem resolved_parentChild_over {db : TXO → Option TXOInfo}
    (hdb : ∃ info, db ⟨9, 0⟩ = some info) :
    (Pool.ofList [parentTx, childTx]).Resolved opTrueHashers db := by
  intro h q hq txo htxo
  obtain ⟨hmem, -⟩ := (Pool.ofList_eq_some nodup_parentChild).mp hq
  simp only [List.mem_cons, List.not_mem_nil, or_false] at hmem
  rcases hmem with rfl | rfl
  · simp only [NewTx.prevouts, parentTx, List.map_cons, List.map_nil, List.mem_singleton] at htxo
    subst htxo
    have hnone : Pool.ofList [parentTx, childTx] (TXO.mk 9 0).txHash = none := by decide
    rw [Pool.prevInfo_of_none hnone]
    exact hdb
  · simp only [NewTx.prevouts, childTx, List.map_cons, List.map_nil, List.mem_singleton] at htxo
    subst htxo
    have hsome : Pool.ofList [parentTx, childTx] (TXO.mk 1 0).txHash = some parentTx := by decide
    rw [Pool.prevInfo_of_some hsome]
    exact ⟨_, rfl⟩

theorem resolved_parentChild :
    (Pool.ofList [parentTx, childTx]).Resolved opTrueHashers oneOutput :=
  resolved_parentChild_over ⟨_, rfl⟩

theorem noDoubleSpend_parentChild : (Pool.ofList [parentTx, childTx]).NoDoubleSpend := by
  intro h q h' q' txo hq hq' hmem hmem'
  obtain ⟨hin, rfl⟩ := (Pool.ofList_eq_some nodup_parentChild).mp hq
  obtain ⟨hin', rfl⟩ := (Pool.ofList_eq_some nodup_parentChild).mp hq'
  simp only [List.mem_cons, List.not_mem_nil, or_false] at hin hin'
  rcases hin with rfl | rfl <;> rcases hin' with rfl | rfl
  · rfl
  · rw [List.mem_singleton.mp hmem] at hmem'
    exact absurd hmem' (by decide)
  · rw [List.mem_singleton.mp hmem] at hmem'
    exact absurd hmem' (by decide)
  · rfl

/-- A pool of one transaction has no double spends. -/
theorem noDoubleSpend_single (nt : NewTx) : (Pool.ofList [nt]).NoDoubleSpend := by
  intro h q h' q' txo hq hq' _ _
  obtain ⟨hmem, rfl⟩ := (Pool.ofList_eq_some (by simp)).mp hq
  obtain ⟨hmem', rfl⟩ := (Pool.ofList_eq_some (by simp)).mp hq'
  rw [List.mem_singleton.mp hmem, List.mem_singleton.mp hmem']

/-- A run that adds a parent and its child. -/
theorem exists_parentChild_run_over (db : TXO → Option TXOInfo)
    (hdb : ∃ info, db ⟨9, 0⟩ = some info) : ∃ s : RunState,
    Reachable (RunState.Start false) (Step opTrueHashers) s ∧
      s.txs = [parentTx, childTx] ∧ s.db = db := by
  have hinit : Reachable (RunState.Start false) (Step opTrueHashers)
      { mp := empty false, txs := [], db := db } := .start ⟨rfl, rfl⟩
  obtain ⟨r, hok, -⟩ := rebuild false nodup_parentChild (resolved_parentChild_over hdb) ∅
  have hfresh : Fresh (Pool.ofList []) [parentTx, childTx] :=
    ⟨nodup_parentChild, fun _ _ => rfl, fun _ _ _ _ hq => by cases hq⟩
  exact ⟨_, hinit.next (.add [parentTx, childTx] ∅ hfresh noDoubleSpend_parentChild hok), rfl, rfl⟩

theorem exists_parentChild_run : ∃ s : RunState,
    Reachable (RunState.Start false) (Step opTrueHashers) s ∧
      s.txs = [parentTx, childTx] ∧ s.db = oneOutput :=
  exists_parentChild_run_over oneOutput ⟨_, rfl⟩

theorem mempool_consistent_parentChild : ∃ s : RunState,
    Reachable (RunState.Start false) (Step opTrueHashers) s ∧ s.txs = [parentTx, childTx] ∧
      Consistent opTrueHashers s.txs s.mp := by
  obtain ⟨s, hs, htxs, -⟩ := exists_parentChild_run
  exact ⟨s, hs, htxs, mempool_consistent hs⟩

end Witnesses

/-- A block leaves the mempool that would be built from the remaining transactions. -/
theorem confirmedInBlock_eq_rebuild {s : RunState}
    (h : Reachable (RunState.Start rpa) (Step H) s)
    {txidMap : Std.ExtTreeMap TxHash Nat compare} {height : Nat} {db' : TXO → Option TXOInfo}
    (hclosed : (Pool.ofList s.txs).AncestorClosed txidMap.keys)
    (hdb : ∀ nt ∈ s.txs, nt.hash ∉ txidMap → ∀ txo ∈ nt.prevouts,
      db' txo = confirmDb H (Pool.ofList s.txs) txidMap height s.db txo)
    {remaining : List NewTx} (hperm : remaining.Perm (s.txs.filter fun nt => nt.hash ∉ txidMap))
    (affected affected' : HashSet) :
    ∃ r, addNewTxs H db' (empty rpa) affected' remaining = .ok r ∧
      (confirmedInBlock txidMap height s.mp affected).1 = r.1 := by
  have hinv := runInv_of_reachable h
  have hkeyed := Pool.keyed_ofList s.txs
  have hc : Confirms H (Pool.ofList s.txs) txidMap height s.db db' := by
    refine ⟨hclosed, fun g q hq txo htxo _ => ?_⟩
    obtain ⟨hgone, hq⟩ := Pool.without_eq_some.mp hq
    obtain ⟨hmem, rfl⟩ := (Pool.ofList_eq_some hinv.nodup).mp hq
    rw [Std.ExtTreeMap.mem_keys] at hgone
    exact hdb q hmem hgone txo htxo
  have hfilter := Pool.ofList_filter hinv.nodup txidMap.keys
  simp only [Std.ExtTreeMap.mem_keys] at hfilter
  have hrep := hinv.rep.confirmedInBlock hkeyed hc affected
  have hres := hc.resolved hinv.resolved
  rw [← hfilter] at hrep hres
  obtain ⟨r, hok, heq⟩ := hrep.eq_rebuild (hinv.nodup.sublist (List.filter_sublist.map _)) hres
    hperm affected'
  exact ⟨r, hok, heq.symm⟩

/-- A block with `parentTx` as transaction number 7. -/
def parentBlock : Std.ExtTreeMap TxHash Nat compare := (∅ : Std.ExtTreeMap _ _ _).insert 1 7

/-- A block confirms the parent at height 5; the child stays. -/
theorem confirmedInBlock_eq_rebuild_parent : ∃ s : RunState,
    Reachable (RunState.Start false) (Step opTrueHashers) s ∧ s.txs = [parentTx, childTx] ∧
      ∃ r, addNewTxs opTrueHashers
          (confirmDb opTrueHashers (Pool.ofList s.txs) parentBlock 5 s.db) (empty false) ∅
          [childTx] = .ok r ∧
        (confirmedInBlock parentBlock 5 s.mp ∅).1 = r.1 := by
  obtain ⟨s, hs, htxs, -⟩ := exists_parentChild_run
  refine ⟨s, hs, htxs, confirmedInBlock_eq_rebuild hs ?_ (fun _ _ _ _ _ => rfl) ?_ ∅ ∅⟩
  · intro c p hspends hp hc
    have hc1 : c = 1 := by
      rw [Std.ExtTreeMap.mem_keys, parentBlock, Std.ExtTreeMap.mem_insert] at hc
      rcases hc with hc | hc
      · exact (Std.LawfulEqOrd.eq_of_compare hc).symm
      · simp at hc
    subst hc1
    obtain ⟨q, hq, txo, htxo, rfl⟩ := hspends
    have hparent : Pool.ofList [parentTx, childTx] 1 = some parentTx := by decide
    rw [htxs, hparent, Option.some.injEq] at hq
    subst hq
    rw [List.mem_singleton.mp htxo, htxs] at hp
    exact absurd (by decide) hp
  · have hfilter : ([parentTx, childTx].filter fun nt => nt.hash ∉ parentBlock) = [childTx] := by
      decide
    rw [htxs, hfilter]

/--
Dropping transactions ends, removes them and their descendants, leaves the mempool
that would be built from the others, and reports the script hashes of the removed ones.
-/
theorem dropTxs_eq_rebuild {s : RunState} (h : Reachable (RunState.Start rpa) (Step H) s)
    (txids : List TxHash) (affected : HashSet) :
    ∃ r, dropTxs s.mp affected txids = some r ∧
      (∀ g, g ∈ r.1.txs ↔
        g ∈ s.mp.txs ∧ ¬ ∃ t ∈ txids, Descends (Pool.ofList s.txs) t g) ∧
      (∀ (remaining : List NewTx) (affected' : HashSet),
        remaining.Perm (s.txs.filter fun nt => nt.hash ∈ r.1.txs) →
        ∃ r', addNewTxs H s.db (empty rpa) affected' remaining = .ok r' ∧ r.1 = r'.1) ∧
      ∀ sh, sh ∈ r.2.2.1 ↔ sh ∈ affected ∨
        ∃ (g : TxHash) (tx : Tx), s.mp.txs[g]? = some tx ∧ g ∉ r.1.txs ∧ sh ∈ tx.hashXs := by
  have hinv := runInv_of_reachable h
  have hkeyed := Pool.keyed_ofList s.txs
  have hcontent := hinv.rep.toContent
  obtain ⟨gone, r, hdrop, rfl, hgone, hrep, haff⟩ :=
    hinv.rep.dropTxs hinv.noDoubleSpend hkeyed affected txids
  have hstays : ∀ g, g ∈ r.1.txs ↔ g ∈ s.mp.txs ∧ g ∉ r.2.1 := by
    intro g
    rw [hrep.toContent.mem_txs, hcontent.mem_txs]
    by_cases hg : g ∈ r.2.1
    · simp [Pool.without_of_mem hg, hg]
    · simp [Pool.without_of_not_mem hg, hg]
  refine ⟨r, hdrop, fun g => ?_, fun remaining affected' hperm => ?_, fun sh => ?_⟩
  · rw [hstays, hgone]
  · have hfilter := Pool.ofList_filter hinv.nodup r.2.1
    have hsame : (s.txs.filter fun nt => nt.hash ∈ r.1.txs) =
        s.txs.filter fun nt => nt.hash ∉ r.2.1 := by
      refine List.filter_congr fun nt hnt => ?_
      have hmem : nt.hash ∈ s.mp.txs := by
        rw [hcontent.mem_txs, (Pool.ofList_eq_some hinv.nodup).mpr ⟨hnt, rfl⟩]
        simp
      simp [hstays, hmem]
    have hres := resolved_without (descendantClosed_of_mem hgone) hinv.resolved
    rw [← hfilter] at hrep hres
    rw [hsame] at hperm
    obtain ⟨r', hok, heq⟩ := hrep.eq_rebuild (hinv.nodup.sublist (List.filter_sublist.map _)) hres
      hperm affected'
    exact ⟨r', hok, heq.symm⟩
  · rw [haff]
    refine or_congr_right ?_
    constructor
    · rintro ⟨g, q, hg, hq, htouch⟩
      obtain ⟨tx, hget, htx⟩ := hcontent.present g q hq
      exact ⟨g, tx, hget, fun hm => ((hstays g).mp hm).2 hg, (htx.mem_hashXs sh).mpr htouch⟩
    · rintro ⟨g, tx, hget, hn, hsh⟩
      obtain ⟨q, hq, -, htx⟩ := hcontent.get_iff.mp hget
      refine ⟨g, q, ?_, hq, (htx.mem_hashXs sh).mp hsh⟩
      by_contra hg
      exact hn ((hstays g).mpr ⟨mem_iff_getElem?.mpr ⟨tx, hget⟩, hg⟩)

/-- Dropping the child and an unknown id. -/
theorem dropTxs_eq_rebuild_child : ∃ s : RunState,
    Reachable (RunState.Start false) (Step opTrueHashers) s ∧ s.txs = [parentTx, childTx] ∧
      ∃ r, dropTxs s.mp ∅ [2, 77] = some r ∧
        ∀ g, g ∈ r.1.txs ↔
          g ∈ s.mp.txs ∧ ¬ ∃ t ∈ [2, 77], Descends (Pool.ofList s.txs) t g := by
  obtain ⟨s, hs, htxs, -⟩ := exists_parentChild_run
  obtain ⟨r, hdrop, hstays, -⟩ := dropTxs_eq_rebuild hs [2, 77] ∅
  exact ⟨s, hs, htxs, r, hdrop, hstays⟩

end Mempool
end Shulcrum
