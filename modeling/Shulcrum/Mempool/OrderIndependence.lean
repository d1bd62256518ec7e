import Shulcrum.Mempool.DspRun

/-!
# The order of new transactions does not matter

`addNewTxs` is described by the pool it ends with: the mempool represents the
pool with the new transactions, the proofs are the same and list all
descendants, the affected script hashes are those the new transactions touch.
Nothing of this depends on the order of the new transactions, or on how they
are split into batches, as long as no parent comes in a later batch than its
child.

**Results.**
* `addNewTxs_added`: what `addNewTxs` returns.
* `Added.unique`: there is only one such result.
* `addNewTxs_order_independent`: every order and every split gives the same mempool.
-/

namespace Shulcrum

open BTC TreeMap DSPs Invariant

namespace DSPs

variable {d d' : DSPs}

/-- The transaction table is determined by the links. -/
theorem txDspsMap_unique (hd : NoEmpty d.txDspsMap) (hd' : NoEmpty d'.txDspsMap)
    (h : ∀ tx k, Lists d.txDspsMap tx k ↔ Lists d'.txDspsMap tx k) :
    d.txDspsMap = d'.txDspsMap := by
  apply Std.ExtTreeMap.ext_getElem?
  exact fun tx => get_eq_of_lists_iff hd hd' (h tx)

end DSPs

namespace Mempool

variable {H : Hashers} {rpa : Bool} {P : Pool} {db : TXO → Option TXOInfo}

/-- The proofs are determined by the pool, up to what they are about. -/
theorem DspClosed.unique {d d' : DSPs} (h : DspClosed P d) (h' : DspClosed P d')
    (hsame : SameProofs d d') : d = d' := by
  have hproofs : d.dsproofs = d'.dsproofs := by
    apply Std.ExtTreeMap.ext_getElem?
    intro k
    cases hp' : d'.dsproofs[k]? with
    | none =>
        have hk := hsame k
        rw [hp'] at hk
        exact Option.map_eq_none_iff.mp hk.symm
    | some p' =>
        obtain ⟨p, hp, hcore⟩ := hsame.get hp'
        have hdesc : p'.descendants = p.descendants := by
          apply Std.ExtTreeSet.ext_mem
          intro t
          rw [h.descendants k p hp, h'.descendants k p' hp', txHash_eq_of_core hcore]
        rw [hp, Option.some.injEq]
        cases p
        cases p'
        simp only [core, DSProof.mk.injEq] at hcore hdesc ⊢
        exact ⟨hcore.1.symm, hcore.2.1.symm, hcore.2.2.1.symm, hcore.2.2.2.1.symm, hdesc.symm⟩
  have htable : d.txDspsMap = d'.txDspsMap := by
    refine txDspsMap_unique h.linked.noEmpty h'.linked.noEmpty fun tx k => ?_
    rw [h.lists_iff, h'.lists_iff, hproofs]
  cases d
  cases d'
  simp only [DSPs.mk.injEq]
  exact ⟨htable, hproofs⟩

/-- The mempool represents the pool, with proofs that list all descendants. -/
structure DspRep (H : Hashers) (rpa : Bool) (P : Pool) (db : TXO → Option TXOInfo)
    (mp : Mempool) : Prop where
  rep : Rep H rpa P db mp.noDsps
  closed : DspClosed P mp.dsps

theorem DspRep.unique {mp mp' : Mempool} (h : DspRep H rpa P db mp) (h' : DspRep H rpa P db mp')
    (hsame : SameProofs mp.dsps mp'.dsps) : mp = mp' := by
  have hmp := h.rep.unique h'.rep
  have hdsps := h.closed.unique h'.closed hsame
  cases mp
  cases mp'
  simp only [noDsps, Mempool.mk.injEq] at hmp hdsps ⊢
  exact ⟨hmp.1, hmp.2.1, hmp.2.2.1, hdsps⟩

/-- What `addNewTxs` returns, in terms of the pool. -/
structure Added (H : Hashers) (rpa : Bool) (P : Pool) (db : TXO → Option TXOInfo) (mp : Mempool)
    (affected : HashSet) (news : List NewTx) (r : Mempool × HashSet × MempoolStats) : Prop where
  rep : DspRep H rpa (P.putAll news) db r.1
  same : SameProofs mp.dsps r.1.dsps
  affected : ∀ sh, sh ∈ r.2.1 ↔
    sh ∈ affected ∨ ∃ nt ∈ news, (P.putAll news).Touches H db nt sh
  stats : ∃ linked : HashSet,
    (∀ tx, tx ∈ linked ↔
      tx ∈ news.map NewTx.hash ∧ ∃ k, DSPs.Lists r.1.dsps.txDspsMap tx k) ∧
    r.2.2 =
      { oldSize := mp.txs.size
        newSize := r.1.txs.size
        oldNumAddresses := mp.hashXTxs.size
        newNumAddresses := r.1.hashXTxs.size
        dspTxsAffected := if linked.isEmpty then linked else r.1.dsps.txsLinkedToTxs linked }

/-- `addNewTxs` succeeds if every input of the new transactions refers to a valid output. -/
theorem addNewTxs_added {mp : Mempool} (h : DspRep H rpa P db mp) (hkeyed : P.Keyed)
    {news : List NewTx} (hnews : Fresh P news)
    (hres : ∀ nt ∈ news, ∀ txo ∈ nt.prevouts,
      ∃ info, (P.putAll news).prevInfo H db txo = some info) (affected : HashSet) :
    ∃ r, addNewTxs H db mp affected news = .ok r ∧ Added H rpa P db mp affected news r := by
  obtain ⟨r₀, hok₀, hrep⟩ := h.rep.addNewTxs hkeyed hnews hres affected
  obtain ⟨r, hok, hmp, -⟩ := addNewTxs_ok_of_noDsps hok₀
  obtain ⟨hclosed, hsame⟩ := h.closed.addNewTxs h.rep.toContent hkeyed hnews hok
  refine ⟨r, hok, ⟨by rw [hmp]; exact hrep, hclosed⟩, hsame, ?_, ?_⟩
  · obtain ⟨s, hpass, rfl⟩ := exists_passes_of_ok hok
    have hsets := congrArg AddState.scriptHashesAffected
      (finishDsps_noDsps { s with mp := sortAffected s.scriptHashesAffected s.mp })
    intro sh
    rw [← mem_affected_of_passes h.rep.toContent hkeyed hnews hpass]
    exact Eq.to_iff (congrArg (sh ∈ ·) hsets)
  · obtain ⟨s, hpass, rfl⟩ := exists_passes_of_ok hok
    have hfinal := dspFinal_of_passes h.rep.toContent hkeyed h.closed hnews hpass
    refine ⟨_, fun tx => ?_, by rw [conclude, finishDsps_eq_spreadNew]; rfl⟩
    rw [hfinal.affected, isNew_iff, dsps_addResult]
    rfl

theorem putAll_perm {news news' : List NewTx} (hnodup : (news.map NewTx.hash).Nodup)
    (hperm : news'.Perm news) : P.putAll news' = P.putAll news := by
  have hnodup' : (news'.map NewTx.hash).Nodup := (hperm.map NewTx.hash).nodup_iff.mpr hnodup
  funext h
  apply Option.ext
  intro q
  rw [Pool.putAll_eq_some hnodup, Pool.putAll_eq_some hnodup', hperm.mem_iff,
    (hperm.map NewTx.hash).mem_iff]

theorem Fresh.perm {news news' : List NewTx} (h : Fresh P news) (hperm : news'.Perm news) :
    Fresh P news' :=
  ⟨(hperm.map NewTx.hash).nodup_iff.mpr h.nodup, fun nt hnt => h.none nt (hperm.mem_iff.mp hnt),
    fun nt hnt => h.unused nt (hperm.mem_iff.mp hnt)⟩

/-- Only one result is described, whatever the order of the new transactions. -/
theorem Added.unique {mp : Mempool} {affected : HashSet} {news news' : List NewTx}
    {r r' : Mempool × HashSet × MempoolStats} (h : Added H rpa P db mp affected news r)
    (h' : Added H rpa P db mp affected news' r') (hnodup : (news.map NewTx.hash).Nodup)
    (hperm : news'.Perm news) : r' = r := by
  have hpool := putAll_perm (P := P) hnodup hperm
  have hrep' := h'.rep
  rw [hpool] at hrep'
  have hmp : r'.1 = r.1 := hrep'.unique h.rep (h'.same.symm.trans h.same)
  have haffected : r'.2.1 = r.2.1 := by
    apply Std.ExtTreeSet.ext_mem
    intro sh
    rw [h.affected, h'.affected, hpool]
    simp only [hperm.mem_iff]
  have hstats : r'.2.2 = r.2.2 := by
    obtain ⟨linked, hlinked, hr⟩ := h.stats
    obtain ⟨linked', hlinked', hr'⟩ := h'.stats
    have heq : linked' = linked := by
      apply Std.ExtTreeSet.ext_mem
      intro tx
      rw [hlinked, hlinked', hmp, (hperm.map NewTx.hash).mem_iff]
    rw [hr, hr', heq, hmp]
  exact Prod.ext hmp (Prod.ext haffected hstats)

/-! ## Batches -/

/-- Add several batches one after another. -/
def addBatches (H : Hashers) (db : TXO → Option TXOInfo) :
    Mempool × HashSet → List (List NewTx) → Except ConsistencyError (Mempool × HashSet)
  | s, [] => .ok s
  | s, batch :: batches =>
      match addNewTxs H db s.1 s.2 batch with
      | .error e => .error e
      | .ok r => addBatches H db (r.1, r.2.1) batches

/-- No transaction spends from a transaction of a later batch. -/
def ParentsFirst (batches : List (List NewTx)) : Prop :=
  batches.Pairwise fun batch later =>
    ∀ nt ∈ batch, ∀ txo ∈ nt.prevouts, ∀ p ∈ later, txo.txHash ≠ p.hash

/-- The transactions of the batches after the first are new after it. -/
theorem Fresh.rest {batch rest : List NewTx} (h : Fresh P (batch ++ rest))
    (hfirst : ∀ nt ∈ batch, ∀ txo ∈ nt.prevouts, ∀ p ∈ rest, txo.txHash ≠ p.hash) :
    Fresh (P.putAll batch) rest := by
  have hnodup := h.nodup
  rw [List.map_append, List.nodup_append] at hnodup
  obtain ⟨hbatch, hrest, hdisjoint⟩ := hnodup
  refine ⟨hrest, ?_, ?_⟩
  · intro nt hnt
    rw [putAll_eq_none]
    refine ⟨?_, h.none nt (List.mem_append_right batch hnt)⟩
    intro hmem
    exact hdisjoint _ hmem _ (List.mem_map.mpr ⟨nt, hnt, rfl⟩) rfl
  · intro nt hnt g q hq txo htxo
    rcases (Pool.putAll_eq_some hbatch).mp hq with ⟨hmem, -⟩ | ⟨-, hq⟩
    · exact hfirst q hmem txo htxo nt hnt
    · exact h.unused nt (List.mem_append_right batch hnt) g q hq txo htxo

theorem Fresh.left {batch rest : List NewTx} (h : Fresh P (batch ++ rest)) : Fresh P batch := by
  have hnodup := h.nodup
  rw [List.map_append, List.nodup_append] at hnodup
  exact ⟨hnodup.1, fun nt hnt => h.none nt (List.mem_append_left rest hnt),
    fun nt hnt => h.unused nt (List.mem_append_left rest hnt)⟩

theorem putAll_append (batch rest : List NewTx) :
    P.putAll (batch ++ rest) = (P.putAll batch).putAll rest := List.foldl_append

/-- The mempool after batches represents the pool with all their transactions. -/
theorem addBatches_rep {batches : List (List NewTx)} {mp : Mempool}
    (h : DspRep H rpa P db mp) (hkeyed : P.Keyed) (hfresh : Fresh P batches.flatten)
    (hfirst : ParentsFirst batches)
    (hres : ∀ nt ∈ batches.flatten, ∀ txo ∈ nt.prevouts,
      ∃ info, (P.putAll batches.flatten).prevInfo H db txo = some info) (affected : HashSet) :
    ∃ r, addBatches H db (mp, affected) batches = .ok r ∧
      DspRep H rpa (P.putAll batches.flatten) db r.1 ∧ SameProofs mp.dsps r.1.dsps ∧
      ∀ sh, sh ∈ r.2 ↔ sh ∈ affected ∨
        ∃ nt ∈ batches.flatten, (P.putAll batches.flatten).Touches H db nt sh := by
  induction batches generalizing P mp affected with
  | nil => exact ⟨_, rfl, h, .refl _, fun sh => by simp⟩
  | cons batch batches ih =>
      obtain ⟨hhead, htail⟩ := List.pairwise_cons.mp hfirst
      rw [List.flatten_cons] at hfresh hres ⊢
      have hlater : ∀ nt ∈ batch, ∀ txo ∈ nt.prevouts, ∀ p ∈ batches.flatten,
          txo.txHash ≠ p.hash := by
        intro nt hnt txo htxo p hp
        obtain ⟨later, hlater, hp⟩ := List.mem_flatten.mp hp
        exact hhead later hlater nt hnt txo htxo p hp
      rw [putAll_append] at hres ⊢
      -- the first batch does not see the others
      have hprev : ∀ nt ∈ batch, ∀ txo ∈ nt.prevouts,
          ((P.putAll batch).putAll batches.flatten).prevInfo H db txo =
            (P.putAll batch).prevInfo H db txo := by
        intro nt hnt txo htxo
        have hnot : txo.txHash ∉ batches.flatten.map NewTx.hash := by
          intro hmem
          obtain ⟨p, hp, he⟩ := List.mem_map.mp hmem
          exact hlater nt hnt txo htxo p hp he.symm
        simp only [Pool.prevInfo, Pool.putAll_of_not_mem hnot]
      have hresBatch : ∀ nt ∈ batch, ∀ txo ∈ nt.prevouts,
          ∃ info, (P.putAll batch).prevInfo H db txo = some info := by
        intro nt hnt txo htxo
        rw [← hprev nt hnt txo htxo]
        exact hres nt (List.mem_append_left _ hnt) txo htxo
      have htouches : ∀ nt ∈ batch, ∀ sh, (P.putAll batch).Touches H db nt sh ↔
          ((P.putAll batch).putAll batches.flatten).Touches H db nt sh := by
        intro nt hnt sh
        unfold Pool.Touches
        refine or_congr_right (exists_congr fun txo => and_congr_right fun htxo => ?_)
        rw [hprev nt hnt txo htxo]
      obtain ⟨r, hok, hadded⟩ := addNewTxs_added h hkeyed hfresh.left hresBatch affected
      obtain ⟨r', hok', hrep', hsame', haff'⟩ := ih hadded.rep (hkeyed.putAll batch)
        (hfresh.rest hlater) htail
        (fun nt hnt => hres nt (List.mem_append_right batch hnt)) r.2.1
      refine ⟨r', ?_, hrep', hadded.same.trans hsame', ?_⟩
      · simp only [addBatches, hok]
        exact hok'
      · intro sh
        rw [haff', hadded.affected, or_assoc]
        refine or_congr_right ?_
        constructor
        · rintro (⟨nt, hnt, htouch⟩ | ⟨nt, hnt, htouch⟩)
          · exact ⟨nt, List.mem_append_left _ hnt, (htouches nt hnt sh).mp htouch⟩
          · exact ⟨nt, List.mem_append_right batch hnt, htouch⟩
        · rintro ⟨nt, hnt, htouch⟩
          rcases List.mem_append.mp hnt with hnt | hnt
          · exact Or.inl ⟨nt, hnt, (htouches nt hnt sh).mpr htouch⟩
          · exact Or.inr ⟨nt, hnt, htouch⟩

theorem dspRep_of_reachable {s : RunState} (h : Reachable (RunState.Start rpa) (DspStep H) s) :
    DspRep H rpa (Pool.ofList s.txs) s.db s.mp :=
  ⟨(runInv_of_dspReachable h).rep, dspClosed_of_reachable h⟩

/--
New transactions whose inputs are all there can be added in any order, with the same
mempool, affected script hashes and statistics, the fee of each being what its inputs
have more than its outputs.  Any split into batches gives the same mempool and script
hashes, if no transaction spends from a later batch.
-/
theorem addNewTxs_order_independent {s : RunState}
    (h : Reachable (RunState.Start rpa) (DspStep H) s) {news : List NewTx}
    (hfresh : Fresh (Pool.ofList s.txs) news)
    (hres : ∀ nt ∈ news, ∀ txo ∈ nt.prevouts,
      ∃ info, (Pool.ofList (s.txs ++ news)).prevInfo H s.db txo = some info)
    (affected : HashSet) :
    ∃ r, addNewTxs H s.db s.mp affected news = .ok r ∧
      (∀ news' : List NewTx, news'.Perm news → addNewTxs H s.db s.mp affected news' = .ok r) ∧
      (∀ nt ∈ news, ∃ tx, r.1.txs[nt.hash]? = some tx ∧
        tx.fee = ((Pool.ofList (s.txs ++ news)).inSum H s.db nt : Int) - nt.outSum) ∧
      ∀ batches : List (List NewTx), batches.flatten.Perm news → ParentsFirst batches →
        addBatches H s.db (s.mp, affected) batches = .ok (r.1, r.2.1) := by
  have hrep := dspRep_of_reachable h
  have hkeyed := Pool.keyed_ofList s.txs
  rw [Pool.ofList_append] at hres ⊢
  obtain ⟨r, hok, hadded⟩ := addNewTxs_added hrep hkeyed hfresh hres affected
  -- the same inputs are there for another order
  have hresPerm : ∀ news' : List NewTx, news'.Perm news → ∀ nt ∈ news', ∀ txo ∈ nt.prevouts,
      ∃ info, ((Pool.ofList s.txs).putAll news').prevInfo H s.db txo = some info := by
    intro news' hperm nt hnt txo htxo
    rw [putAll_perm hfresh.nodup hperm]
    exact hres nt (hperm.mem_iff.mp hnt) txo htxo
  refine ⟨r, hok, ?_, ?_, ?_⟩
  · intro news' hperm
    obtain ⟨r', hok', hadded'⟩ := addNewTxs_added hrep hkeyed (hfresh.perm hperm)
      (hresPerm news' hperm) affected
    rw [hok', hadded.unique hadded' hfresh.nodup hperm]
  · intro nt hnt
    obtain ⟨tx, hget, htx⟩ := hadded.rep.rep.present nt.hash nt
      (Pool.putAll_of_mem hfresh.nodup hnt)
    exact ⟨tx, hget, htx.fee⟩
  · intro batches hperm hfirst
    obtain ⟨r', hok', hrep', hsame', haff'⟩ := addBatches_rep hrep hkeyed (hfresh.perm hperm)
      hfirst (hresPerm _ hperm) affected
    rw [putAll_perm hfresh.nodup hperm] at hrep' haff'
    have hmp : r'.1 = r.1 := hrep'.unique hadded.rep (hsame'.symm.trans hadded.same)
    have haffected : r'.2 = r.2.1 := by
      apply Std.ExtTreeSet.ext_mem
      intro sh
      rw [haff', hadded.affected]
      simp only [hperm.mem_iff]
    rw [hok', ← hmp, ← haffected]

/-- The parent and its child, from the empty mempool: in one call or in two. -/
theorem addNewTxs_order_independent_parentChild : ∃ r,
    addNewTxs opTrueHashers oneOutput (empty false) ∅ [parentTx, childTx] = .ok r ∧
      addNewTxs opTrueHashers oneOutput (empty false) ∅ [childTx, parentTx] = .ok r ∧
      addBatches opTrueHashers oneOutput (empty false, ∅) [[parentTx], [childTx]] =
        .ok (r.1, r.2.1) := by
  have hinit : Reachable (RunState.Start false) (DspStep opTrueHashers)
      { mp := empty false, txs := [], db := oneOutput } := .start ⟨rfl, rfl⟩
  have hfresh : Fresh (Pool.ofList []) [parentTx, childTx] :=
    ⟨nodup_parentChild, fun _ _ => rfl, fun _ _ _ _ hq => by cases hq⟩
  obtain ⟨r, hok, hperm, -, hbatches⟩ := addNewTxs_order_independent hinit hfresh
    (fun nt hnt => resolved_parentChild nt.hash nt
      ((Pool.ofList_eq_some nodup_parentChild).mpr ⟨hnt, rfl⟩)) ∅
  refine ⟨r, hok, hperm _ (.swap _ _ _), hbatches _ (.refl _) ?_⟩
  refine List.pairwise_pair.mpr ?_
  intro nt hnt txo htxo p hp
  rw [List.mem_singleton.mp hnt] at htxo
  rw [List.mem_singleton.mp htxo, List.mem_singleton.mp hp]
  decide

end Mempool
end Shulcrum
