import Shulcrum.Mempool.AddInputs

/-!
# `addNewTxs`

The two passes put together: the new transactions are filed with their
outputs, then their inputs are added one by one, and in the end the vectors of
the affected script hashes are sorted.

**Results.**
* `Rep.addNewTxs`: if every input of the new transactions refers to a valid
  output, the call succeeds and the mempool represents the pool with the new
  transactions.
* `Content.resolved_of_addNewTxs`: the call succeeds in no other case.
* `rep_empty`: the empty mempool represents the empty pool.
-/

namespace Shulcrum

open BTC SortUnique TreeMap

namespace Pool

variable {H : Hashers} {P Q : Pool} {db : TXO → Option TXOInfo}

/-- File a list of transactions in the pool. -/
def putAll (P : Pool) (news : List NewTx) : Pool := news.foldl put P

@[simp] theorem putAll_nil : P.putAll [] = P := rfl

@[simp] theorem putAll_cons (nt : NewTx) (news : List NewTx) :
    P.putAll (nt :: news) = (P.put nt).putAll news := rfl

theorem putAll_of_not_mem {news : List NewTx} {h : TxHash} (hh : h ∉ news.map NewTx.hash) :
    P.putAll news h = P h := by
  induction news generalizing P with
  | nil => rfl
  | cons nt news ih =>
      rw [List.map_cons, List.mem_cons, not_or] at hh
      rw [putAll_cons, ih hh.2, put_of_ne hh.1]

theorem putAll_of_mem {news : List NewTx} (hnodup : (news.map NewTx.hash).Nodup) {nt : NewTx}
    (hnt : nt ∈ news) : P.putAll news nt.hash = some nt := by
  induction news generalizing P with
  | nil => cases hnt
  | cons a news ih =>
      rw [List.map_cons, List.nodup_cons] at hnodup
      rcases List.mem_cons.mp hnt with rfl | hnt
      · rw [putAll_cons, putAll_of_not_mem hnodup.1, put_self]
      · exact ih hnodup.2 hnt

theorem putAll_eq_some {news : List NewTx} (hnodup : (news.map NewTx.hash).Nodup) {h : TxHash}
    {q : NewTx} :
    P.putAll news h = some q ↔
      (q ∈ news ∧ q.hash = h) ∨ (h ∉ news.map NewTx.hash ∧ P h = some q) := by
  by_cases hh : h ∈ news.map NewTx.hash
  · obtain ⟨nt, hnt, rfl⟩ := List.mem_map.mp hh
    rw [putAll_of_mem hnodup hnt, Option.some.injEq]
    constructor
    · rintro rfl
      exact .inl ⟨hnt, rfl⟩
    · rintro (⟨hq, he⟩ | ⟨hn, -⟩)
      · exact List.inj_on_of_nodup_map hnodup hnt hq he.symm
      · exact absurd hh hn
  · rw [putAll_of_not_mem hh]
    refine ⟨fun hq => .inr ⟨hh, hq⟩, ?_⟩
    rintro (⟨hq, rfl⟩ | ⟨-, hq⟩)
    · exact absurd (List.mem_map.mpr ⟨q, hq, rfl⟩) hh
    · exact hq

/-- What was filed under the ids of `news` before does not matter. -/
theorem putAll_congr {news : List NewTx} (hPQ : ∀ h, h ∉ news.map NewTx.hash → P h = Q h) :
    P.putAll news = Q.putAll news := by
  induction news generalizing P Q with
  | nil =>
      funext h
      exact hPQ h (by simp)
  | cons nt news ih =>
      refine ih fun h hh => ?_
      by_cases hnt : h = nt.hash
      · rw [hnt, put_self, put_self]
      · rw [put_of_ne hnt, put_of_ne hnt]
        exact hPQ h (by simp [hnt, hh])

theorem put_withVin_of_ne {nt : NewTx} {vin : List CTxIn} {h : TxHash} (hne : h ≠ nt.hash) :
    P.put (nt.withVin vin) h = P h :=
  if_neg hne

/-- Add inputs to a transaction one by one. -/
theorem foldl_grow {nt : NewTx} {done rest : List CTxIn}
    (hP : P nt.hash = some (nt.withVin done)) :
    rest.foldl (fun P i => P.grow nt.hash i) P = P.put (nt.withVin (done ++ rest)) := by
  induction rest generalizing P done with
  | nil =>
      funext h
      by_cases hh : h = nt.hash
      · rw [List.append_nil, hh]
        exact hP.trans (put_self _).symm
      · exact (put_withVin_of_ne hh).symm
  | cons i rest ih =>
      have hgrow : P.grow nt.hash i nt.hash = some (nt.withVin (done ++ [i])) :=
        grow_eq_some.mpr ⟨_, hP, by rw [if_pos rfl]; rfl⟩
      rw [List.foldl_cons, ih hgrow, List.append_assoc]
      funext h
      by_cases hh : h = nt.hash
      · rw [hh]
        exact (put_self _).trans (put_self _).symm
      · rw [put_withVin_of_ne hh, put_withVin_of_ne hh, grow]
        simp [hh]

theorem outsAgree_put_withVin {nt : NewTx} {vin : List CTxIn}
    (hP : P nt.hash = some (nt.withVin vin)) (h : TxHash) : OutsAgree H P (P.put nt) h := by
  unfold OutsAgree
  by_cases hh : h = nt.hash
  · rw [hh, hP, put_self]
    rfl
  · rw [put_of_ne hh]

theorem map_hash_withVin_nil (news : List NewTx) :
    (news.map fun nt => nt.withVin []).map NewTx.hash = news.map NewTx.hash := by
  rw [List.map_map]
  rfl

/-- Inputs do not change the outputs of a pool. -/
theorem outsAgree_putAll_withVin {news : List NewTx} (hnodup : (news.map NewTx.hash).Nodup)
    (h : TxHash) : OutsAgree H (P.putAll (news.map fun nt => nt.withVin [])) (P.putAll news) h := by
  have hhash := map_hash_withVin_nil news
  unfold OutsAgree
  by_cases hh : h ∈ news.map NewTx.hash
  · obtain ⟨nt, hnt, rfl⟩ := List.mem_map.mp hh
    have hnt' : nt.withVin [] ∈ news.map fun nt => nt.withVin [] := List.mem_map.mpr ⟨nt, hnt, rfl⟩
    have hget := putAll_of_mem (P := P) (by rw [hhash]; exact hnodup) hnt'
    rw [NewTx.hash_withVin] at hget
    rw [hget, putAll_of_mem hnodup hnt]
    rfl
  · rw [putAll_of_not_mem hh, putAll_of_not_mem (by rw [hhash]; exact hh)]

theorem prevInfo_congr (hPQ : ∀ h, OutsAgree H P Q h) (txo : TXO) :
    P.prevInfo H db txo = Q.prevInfo H db txo :=
  (hPQ txo.txHash).prevInfo fun _ => rfl

theorem Keyed.putAll (hP : P.Keyed) (news : List NewTx) : (P.putAll news).Keyed := by
  induction news generalizing P with
  | nil => exact hP
  | cons nt news ih => exact ih (hP.put nt)

end Pool

namespace Mempool

variable {H : Hashers} {rpa : Bool} {P : Pool} {db : TXO → Option TXOInfo}

/-- The inputs of one new transaction. -/
theorem AddInv.addInputs {m : HashXTxMap} {s : AddState} (h : AddInv H rpa P db m s)
    (isNew : TxHash → Bool) {nt : NewTx} {done rest : List CTxIn}
    (hP : P nt.hash = some (nt.withVin done))
    (hres : ∀ i ∈ rest, ∃ info, P.prevInfo H db i.prevout = some info) :
    ∃ s', addInputs H db isNew nt.hash s done.length rest = .ok s' ∧
      AddInv H rpa (P.put (nt.withVin (done ++ rest))) db m s' := by
  rw [← Pool.foldl_grow hP]
  induction rest generalizing P s done with
  | nil => exact ⟨s, rfl, h⟩
  | cons i rest ih =>
      obtain ⟨info, hinfo⟩ := hres i (by simp)
      obtain ⟨s₁, hok, hinv⟩ := h.addInput isNew hP hinfo
      have hgrow : P.grow nt.hash i nt.hash = some (nt.withVin (done ++ [i])) :=
        Pool.grow_eq_some.mpr ⟨_, hP, by rw [if_pos rfl]; rfl⟩
      have hres' : ∀ j ∈ rest, ∃ info, (P.grow nt.hash i).prevInfo H db j.prevout = some info := by
        intro j hj
        rw [Pool.prevInfo_grow]
        exact hres j (by simp [hj])
      obtain ⟨s₂, hok₂, hinv₂⟩ := ih hinv hgrow hres'
      refine ⟨s₂, ?_, hinv₂⟩
      have hlen : (nt.withVin done).ctx.vin.length = done.length := rfl
      rw [hlen] at hok
      rw [List.length_append] at hok₂
      simp only [Mempool.addInputs, hok]
      exact hok₂

theorem AddInv.resolved_of_addInputs {m : HashXTxMap} {s s' : AddState}
    (h : AddInv H rpa P db m s) {isNew : TxHash → Bool} {nt : NewTx} {done rest : List CTxIn}
    (hP : P nt.hash = some (nt.withVin done))
    (hok : Mempool.addInputs H db isNew nt.hash s done.length rest = .ok s') :
    ∀ i ∈ rest, ∃ info, P.prevInfo H db i.prevout = some info := by
  induction rest generalizing P s done with
  | nil => simp
  | cons i rest ih =>
      simp only [Mempool.addInputs] at hok
      cases hi : Mempool.addInput H db isNew nt.hash s done.length i with
      | error e => simp [hi] at hok
      | ok s₁ =>
          obtain ⟨info, hinfo⟩ := h.prevInfo_of_addInput hi
          obtain ⟨s₁', hok', hinv⟩ := h.addInput isNew hP hinfo
          have hlen : (nt.withVin done).ctx.vin.length = done.length := rfl
          rw [hlen, hi, Except.ok.injEq] at hok'
          subst hok'
          have hgrow : P.grow nt.hash i nt.hash = some (nt.withVin (done ++ [i])) :=
            Pool.grow_eq_some.mpr ⟨_, hP, by rw [if_pos rfl]; rfl⟩
          simp only [hi] at hok
          rw [← List.length_singleton (a := i), ← List.length_append] at hok
          have hrest := ih hinv hgrow hok
          intro j hj
          rcases List.mem_cons.mp hj with rfl | hj
          · exact ⟨info, hinfo⟩
          · have hj' := hrest j hj
            rw [Pool.prevInfo_grow] at hj'
            exact hj'

theorem AddInv.setSeenParents {m : HashXTxMap} {s : AddState} (h : AddInv H rpa P db m s)
    (seenParents : HashSet) : AddInv H rpa P db m { s with seenParents := seenParents } :=
  ⟨h.content, h.keyed, h.dspTxs, h.unaffected⟩

/-- The inputs of all new transactions. -/
theorem AddInv.addAllInputs {m : HashXTxMap} {s : AddState} (h : AddInv H rpa P db m s)
    (isNew : TxHash → Bool) {news : List NewTx} (hnodup : (news.map NewTx.hash).Nodup)
    (hP : ∀ nt ∈ news, P nt.hash = some (nt.withVin []))
    (hres : ∀ nt ∈ news, ∀ txo ∈ nt.prevouts, ∃ info, P.prevInfo H db txo = some info) :
    ∃ s', addAllInputs H db isNew s news = .ok s' ∧ AddInv H rpa (P.putAll news) db m s' := by
  induction news generalizing P s with
  | nil => exact ⟨s, rfl, h⟩
  | cons nt news ih =>
      rw [List.map_cons, List.nodup_cons] at hnodup
      have hnt := hP nt (by simp)
      have hresnt : ∀ i ∈ nt.ctx.vin, ∃ info, P.prevInfo H db i.prevout = some info :=
        fun i hi => hres nt (by simp) _ (List.mem_map.mpr ⟨i, hi, rfl⟩)
      obtain ⟨s₁, hok₁, hinv₁⟩ := (h.setSeenParents ∅).addInputs isNew hnt hresnt
      rw [List.nil_append, NewTx.withVin_self] at hinv₁
      have houts := fun g => Pool.outsAgree_put_withVin (H := H) hnt g
      have hP' : ∀ nt' ∈ news, P.put nt nt'.hash = some (nt'.withVin []) := by
        intro nt' hnt'
        rw [Pool.put_of_ne fun he => hnodup.1 (List.mem_map.mpr ⟨nt', hnt', he⟩)]
        exact hP nt' (by simp [hnt'])
      have hres' : ∀ nt' ∈ news, ∀ txo ∈ nt'.prevouts,
          ∃ info, (P.put nt).prevInfo H db txo = some info := by
        intro nt' hnt' txo htxo
        rw [← Pool.prevInfo_congr houts]
        exact hres nt' (by simp [hnt']) txo htxo
      obtain ⟨s₂, hok₂, hinv₂⟩ := ih hinv₁ hnodup.2 hP' hres'
      refine ⟨s₂, ?_, hinv₂⟩
      rw [List.length_nil] at hok₁
      simp only [Mempool.addAllInputs, hok₁]
      exact hok₂

theorem AddInv.resolved_of_addAllInputs {m : HashXTxMap} {s s' : AddState}
    (h : AddInv H rpa P db m s) {isNew : TxHash → Bool} {news : List NewTx}
    (hnodup : (news.map NewTx.hash).Nodup) (hP : ∀ nt ∈ news, P nt.hash = some (nt.withVin []))
    (hok : Mempool.addAllInputs H db isNew s news = .ok s') :
    ∀ nt ∈ news, ∀ txo ∈ nt.prevouts, ∃ info, P.prevInfo H db txo = some info := by
  induction news generalizing P s with
  | nil => simp
  | cons nt news ih =>
      rw [List.map_cons, List.nodup_cons] at hnodup
      have hnt := hP nt (by simp)
      have houts := fun g => Pool.outsAgree_put_withVin (H := H) hnt g
      simp only [Mempool.addAllInputs] at hok
      cases hi : Mempool.addInputs H db isNew nt.hash { s with seenParents := ∅ } 0 nt.ctx.vin with
      | error e => simp [hi] at hok
      | ok s₁ =>
          have hresnt := (h.setSeenParents ∅).resolved_of_addInputs hnt hi
          obtain ⟨s₁', hok₁, hinv₁⟩ := (h.setSeenParents ∅).addInputs isNew hnt hresnt
          rw [List.nil_append, NewTx.withVin_self] at hinv₁
          rw [List.length_nil, hi, Except.ok.injEq] at hok₁
          subst hok₁
          simp only [hi] at hok
          have hP' : ∀ nt' ∈ news, P.put nt nt'.hash = some (nt'.withVin []) := by
            intro nt' hnt'
            rw [Pool.put_of_ne fun he => hnodup.1 (List.mem_map.mpr ⟨nt', hnt', he⟩)]
            exact hP nt' (by simp [hnt'])
          intro nt' hnt' txo htxo
          rcases List.mem_cons.mp hnt' with rfl | hnt'
          · obtain ⟨i, hi, rfl⟩ := List.mem_map.mp htxo
            exact hresnt i hi
          · rw [Pool.prevInfo_congr houts]
            exact ih hinv₁ hnodup.2 hP' hok nt' hnt' txo htxo

/-- The first pass over all new transactions. -/
theorem AddInv.foldl_addTxOutputs {m : HashXTxMap} {s : AddState} (h : AddInv H rpa P db m s)
    {news : List NewTx} (hnodup : (news.map NewTx.hash).Nodup)
    (hnone : ∀ nt ∈ news, P nt.hash = none) (hunused : ∀ nt ∈ news, P.Unused nt.hash) :
    AddInv H rpa (P.putAll (news.map fun nt => nt.withVin [])) db m
      (news.foldl (Mempool.addTxOutputs H) s) := by
  induction news generalizing P s with
  | nil => exact h
  | cons nt news ih =>
      rw [List.map_cons, List.nodup_cons] at hnodup
      have hstep := h.addTxOutputs (hnone nt (by simp)) (hunused nt (by simp))
      refine ih hstep hnodup.2 ?_ ?_
      · intro nt' hnt'
        rw [Pool.put_withVin_of_ne]
        · exact hnone nt' (by simp [hnt'])
        · intro he
          exact hnodup.1 (List.mem_map.mpr ⟨nt', hnt', he⟩)
      · intro nt' hnt'
        exact (hunused nt' (by simp [hnt'])).put_withVin_nil nt

/-- The new transactions are new: distinct ids that the pool neither has nor spends from. -/
structure Fresh (P : Pool) (news : List NewTx) : Prop where
  nodup : (news.map NewTx.hash).Nodup
  none : ∀ nt ∈ news, P nt.hash = none
  unused : ∀ nt ∈ news, P.Unused nt.hash

/-- The state between the two passes. -/
theorem Content.firstPass {mp : Mempool} (h : Content H rpa P db mp) (hkeyed : P.Keyed)
    {news : List NewTx} (hnews : Fresh P news) (affected : HashSet) :
    AddInv H rpa (P.putAll (news.map fun nt => nt.withVin [])) db mp.hashXTxs
      (news.foldl (Mempool.addTxOutputs H) { mp := mp, scriptHashesAffected := affected }) := by
  have hstart : AddInv H rpa P db mp.hashXTxs { mp := mp, scriptHashesAffected := affected } :=
    ⟨h, hkeyed, rfl, fun _ _ => rfl⟩
  exact hstart.foldl_addTxOutputs hnews.nodup hnews.none hnews.unused

theorem Fresh.firstPass_get {news : List NewTx} (hnews : Fresh P news) :
    ∀ nt ∈ news, P.putAll (news.map fun nt => nt.withVin []) nt.hash = some (nt.withVin []) := by
  intro nt hnt
  have hnodup : ((news.map fun nt => nt.withVin []).map NewTx.hash).Nodup := by
    rw [Pool.map_hash_withVin_nil]
    exact hnews.nodup
  exact Pool.putAll_of_mem hnodup (List.mem_map.mpr ⟨nt, hnt, rfl⟩)

theorem putAll_putAll_withVin (news : List NewTx) :
    (P.putAll (news.map fun nt => nt.withVin [])).putAll news = P.putAll news := by
  refine Pool.putAll_congr fun h hh => Pool.putAll_of_not_mem ?_
  rw [Pool.map_hash_withVin_nil]
  exact hh

theorem finishDsps_eq {s : AddState} (hdsps : s.mp.dsps = {}) (htxs : s.dspTxsAffected = ∅) :
    finishDsps s = s := by
  have htxsEmpty : s.dspTxsAffected.isEmpty = true := by
    rw [htxs]
    exact Std.ExtTreeSet.isEmpty_empty
  simp [finishDsps, hdsps, htxsEmpty]

/-- The flag of a transaction is the same in two mempools whose pools look the same to it. -/
theorem Content.any_hasUnconfirmedParents {P' : Pool} {db' : TXO → Option TXOInfo}
    {mp mp' : Mempool} (h : Content H rpa P db mp) (h' : Content H rpa P' db' mp') {g : TxHash}
    {q : NewTx} (hP : P g = some q) (hP' : P' g = some q)
    (hsame : ∀ txo ∈ q.prevouts, P txo.txHash = none ↔ P' txo.txHash = none) :
    mp.txs[g]?.any Tx.hasUnconfirmedParents = mp'.txs[g]?.any Tx.hasUnconfirmedParents := by
  obtain ⟨tx, htx, hrep⟩ := h.present g q hP
  obtain ⟨tx', htx', hrep'⟩ := h'.present g q hP'
  rw [htx, htx', Option.any_some, Option.any_some, Bool.eq_iff_iff, hrep.hasUnconfirmedParents,
    hrep'.hasUnconfirmedParents]
  refine exists_congr fun txo => and_congr_right fun htxo => not_congr (hsame txo htxo)

theorem txRefLe_congr {txs txs' : TxMap} {a b : TxHash}
    (ha : txs[a]?.any Tx.hasUnconfirmedParents = txs'[a]?.any Tx.hasUnconfirmedParents)
    (hb : txs[b]?.any Tx.hasUnconfirmedParents = txs'[b]?.any Tx.hasUnconfirmedParents) :
    txRefLe txs a b = txRefLe txs' a b := by
  simp only [txRefLe, ha, hb]

/-- Sorting the affected vectors gives a mempool in order. -/
theorem Content.sortAffected {mp : Mempool} (h : Content H rpa P db mp) {affected : HashSet}
    (hsorted : ∀ (sh : HashX) (v : List TxHash), sh ∉ affected → mp.hashXTxs[sh]? = some v →
      v.Pairwise fun a b => txRefLe mp.txs a b = true ∧ a ≠ b) :
    Rep H rpa P db (sortAffected affected mp) := by
  have hget : ∀ sh : HashX, (Mempool.sortAffected affected mp).hashXTxs[sh]? =
      mp.hashXTxs[sh]?.map fun v => if sh ∈ affected then sortUnique (txRefLe mp.txs) v else v :=
    fun sh => Std.ExtTreeMap.getElem?_map
  refine ⟨⟨h.absent, h.present, ?_, ?_, h.table, h.dsps⟩, ?_⟩
  · intro sh g
    rw [← h.mem_hashXTxs, hget]
    cases mp.hashXTxs[sh]? with
    | none => simp
    | some v =>
        simp only [Option.map_some, Option.getD_some]
        split_ifs <;> simp
  · intro sh
    have hne := h.ne_nil sh
    rw [hget]
    cases hv : mp.hashXTxs[sh]? with
    | none => simp
    | some v =>
        rw [hv] at hne
        obtain ⟨g, hg⟩ := List.exists_mem_of_ne_nil v fun e => hne (by rw [e])
        intro he
        rw [Option.map_some, Option.some.injEq] at he
        split_ifs at he
        · have hmem : g ∈ sortUnique (txRefLe mp.txs) v := mem_sortUnique.mpr hg
          simp [he] at hmem
        · simp [he] at hg
  · intro sh v hv
    rw [hget, Option.map_eq_some_iff] at hv
    obtain ⟨w, hw, rfl⟩ := hv
    split_ifs with hsh
    · exact pairwise_sortUnique (isOrder_txRefLe mp.txs) w
    · exact hsorted sh w hsh hw

/-- `addNewTxs` succeeds if every input of the new transactions refers to a valid output. -/
theorem Rep.addNewTxs {mp : Mempool} (h : Rep H rpa P db mp) (hkeyed : P.Keyed)
    {news : List NewTx} (hnews : Fresh P news)
    (hres : ∀ nt ∈ news, ∀ txo ∈ nt.prevouts,
      ∃ info, (P.putAll news).prevInfo H db txo = some info) (affected : HashSet) :
    ∃ r, addNewTxs H db mp affected news = .ok r ∧ Rep H rpa (P.putAll news) db r.1 := by
  have houts := fun g => Pool.outsAgree_putAll_withVin (H := H) (P := P) hnews.nodup g
  have hfirst := h.toContent.firstPass hkeyed hnews affected
  have hres' : ∀ nt ∈ news, ∀ txo ∈ nt.prevouts,
      ∃ info, (P.putAll (news.map fun nt => nt.withVin [])).prevInfo H db txo = some info := by
    intro nt hnt txo htxo
    rw [Pool.prevInfo_congr houts]
    exact hres nt hnt txo htxo
  obtain ⟨s, hok, hinv⟩ := hfirst.addAllInputs (fun h => news.any (·.hash == h)) hnews.nodup
    hnews.firstPass_get hres'
  rw [putAll_putAll_withVin] at hinv
  refine ⟨_, by simp only [Mempool.addNewTxs, hok]; rfl, ?_⟩
  rw [finishDsps_eq (by exact hinv.content.dsps) (by exact hinv.dspTxs)]
  refine hinv.content.sortAffected fun sh v hsh hv => ?_
  -- vectors of other script hashes hold old transactions, whose flags did not change
  rw [hinv.unaffected sh hsh] at hv
  refine (h.sorted sh v hv).imp_of_mem fun {a b} ha hb hab => ?_
  have hflag : ∀ g ∈ v, mp.txs[g]?.any Tx.hasUnconfirmedParents =
      s.mp.txs[g]?.any Tx.hasUnconfirmedParents := by
    intro g hg
    obtain ⟨q, hq, -⟩ := (h.mem_hashXTxs sh g).mp (by rw [hv]; exact hg)
    have hnot : g ∉ news.map NewTx.hash := by
      intro hmem
      obtain ⟨nt, hnt, rfl⟩ := List.mem_map.mp hmem
      rw [hnews.none nt hnt] at hq
      cases hq
    refine h.toContent.any_hasUnconfirmedParents hinv.content hq ?_ ?_
    · rw [Pool.putAll_of_not_mem hnot, hq]
    · intro txo htxo
      rw [Pool.putAll_of_not_mem]
      intro hmem
      obtain ⟨nt, hnt, he⟩ := List.mem_map.mp hmem
      exact hnews.unused nt hnt g q hq txo htxo he.symm
  rw [← txRefLe_congr (hflag a ha) (hflag b hb)]
  exact hab

/-- If `addNewTxs` succeeds, every input refers to a valid output. -/
theorem Content.resolved_of_addNewTxs {mp : Mempool} (h : Content H rpa P db mp)
    (hkeyed : P.Keyed) {news : List NewTx} (hnews : Fresh P news) {affected : HashSet}
    {r : Mempool × HashSet × MempoolStats} (hok : addNewTxs H db mp affected news = .ok r) :
    ∀ nt ∈ news, ∀ txo ∈ nt.prevouts,
      ∃ info, (P.putAll news).prevInfo H db txo = some info := by
  have houts := fun g => Pool.outsAgree_putAll_withVin (H := H) (P := P) hnews.nodup g
  have hfirst := h.firstPass hkeyed hnews affected
  unfold Mempool.addNewTxs at hok
  cases hall : Mempool.addAllInputs H db (fun h => news.any (·.hash == h))
      (news.foldl (Mempool.addTxOutputs H) { mp := mp, scriptHashesAffected := affected }) news with
  | error e => simp [hall] at hok
  | ok s =>
      have hres := hfirst.resolved_of_addAllInputs hnews.nodup hnews.firstPass_get hall
      intro nt hnt txo htxo
      rw [← Pool.prevInfo_congr houts]
      exact hres nt hnt txo htxo

/-- The empty mempool, with the prefix table enabled or not. -/
def empty (rpa : Bool) : Mempool := { optPrefixTable := if rpa then some ∅ else none }

/-- The empty pool. -/
def noTxs : Pool := fun _ => none

theorem rep_empty : Rep H rpa noTxs db (empty rpa) where
  absent h _ := by simp [empty]
  present h nt hnt := by simp [noTxs] at hnt
  mem_hashXTxs sh h := by simp [empty, noTxs]
  ne_nil sh := by simp [empty]
  table := by
    refine ⟨fun hrpa => by simp [empty, hrpa], fun hrpa => ⟨∅, by simp [empty, hrpa], ?_⟩⟩
    simp [noTxs]
  dsps := rfl
  sorted sh v hv := by simp [empty] at hv

end Mempool
end Shulcrum
