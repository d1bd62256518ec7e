import Shulcrum.Mempool.NoDsps

/-!
# The second pass of `addNewTxs`

Between two inputs of the second pass the mempool represents a pool in which
some of the new transactions have only the first of their inputs.  What one
input keeps, of such a pool and the state of the pass, the whole pass keeps.

**Results.**
* `addAllInputs_rule`: the induction rule for the second pass.
* `mem_affected_of_passes`: the affected script hashes after both passes.
-/

namespace Shulcrum

open BTC TreeMap

theorem Pool.grow_eq_none {P : Pool} {h g : TxHash} {input : CTxIn} :
    P.grow h input g = none ↔ P g = none := by
  simp [Pool.grow]

theorem Pool.put_eq_none {P : Pool} {nt : NewTx} (hP : P nt.hash ≠ none) {g : TxHash} :
    P.put nt g = none ↔ P g = none := by
  by_cases hg : g = nt.hash
  · simp [hg, hP]
  · rw [Pool.put_of_ne hg]

namespace Mempool

variable {H : Hashers} {rpa : Bool} {P : Pool} {db : TXO → Option TXOInfo} {m : HashXTxMap}
variable {isNew : TxHash → Bool}

/-- One input, in a mempool that has double-spend proofs. -/
theorem addInv_of_addInput {s s' : AddState} (h : AddInv H rpa P db m s.noDsps) {nt : NewTx}
    {done : List CTxIn} (hP : P nt.hash = some (nt.withVin done)) {input : CTxIn}
    (hok : addInput H db isNew nt.hash s done.length input = .ok s') :
    AddInv H rpa (P.grow nt.hash input) db m s'.noDsps ∧
      ∃ info, P.prevInfo H db input.prevout = some info := by
  have hok₀ : addInput H db isNew nt.hash s.noDsps done.length input = .ok s'.noDsps := by
    rw [addInput_noDsps, hok]
    rfl
  obtain ⟨info, hinfo⟩ := h.prevInfo_of_addInput hok₀
  obtain ⟨s₁, hok₁, hinv⟩ := h.addInput isNew hP hinfo
  have hlen : (nt.withVin done).ctx.vin.length = done.length := rfl
  rw [hlen, hok₀, Except.ok.injEq] at hok₁
  rw [hok₁]
  exact ⟨hinv, info, hinfo⟩

/-- What one input of a transaction keeps, all its inputs keep. -/
theorem addInputs_rule {J : Pool → AddState → Prop} {nt : NewTx}
    (hJ : ∀ {Q : Pool} {s s' : AddState} {inNum : Nat} {input : CTxIn}, input ∈ nt.ctx.vin →
      AddInv H rpa Q db m s.noDsps → Q nt.hash ≠ none → (∀ g, Q g = none ↔ P g = none) →
      J Q s → addInput H db isNew nt.hash s inNum input = .ok s' → J (Q.grow nt.hash input) s')
    {Q : Pool} {s s' : AddState} {done rest : List CTxIn} (h : AddInv H rpa Q db m s.noDsps)
    (hQ : Q nt.hash = some (nt.withVin done)) (hnone : ∀ g, Q g = none ↔ P g = none)
    (hrest : rest ⊆ nt.ctx.vin) (hs : J Q s)
    (hok : addInputs H db isNew nt.hash s done.length rest = .ok s') :
    AddInv H rpa (Q.put (nt.withVin (done ++ rest))) db m s'.noDsps ∧
      J (Q.put (nt.withVin (done ++ rest))) s' := by
  rw [← Pool.foldl_grow hQ]
  induction rest generalizing Q s done with
  | nil =>
      rw [addInputs, Except.ok.injEq] at hok
      subst hok
      exact ⟨h, hs⟩
  | cons i rest ih =>
      simp only [addInputs] at hok
      cases hi : addInput H db isNew nt.hash s done.length i with
      | error e => simp [hi] at hok
      | ok s₁ =>
          obtain ⟨hinv, -⟩ := addInv_of_addInput h hQ hi
          have hs₁ := hJ (hrest List.mem_cons_self) h (by simp [hQ]) hnone hs hi
          have hgrow : Q.grow nt.hash i nt.hash = some (nt.withVin (done ++ [i])) :=
            Pool.grow_eq_some.mpr ⟨_, hQ, by rw [if_pos rfl]; rfl⟩
          have hnone₁ : ∀ g, Q.grow nt.hash i g = none ↔ P g = none :=
            fun g => Pool.grow_eq_none.trans (hnone g)
          simp only [hi] at hok
          rw [← List.length_singleton (a := i), ← List.length_append] at hok
          exact ih hinv hgrow hnone₁ (fun j hj => hrest (List.mem_cons_of_mem i hj)) hs₁ hok

/--
What holds between two transactions is kept by the second pass, if it opens to an
invariant of the inputs of each transaction.
-/
theorem addAllInputs_rule {K : Pool → AddState → Prop} {J : NewTx → Pool → AddState → Prop}
    {news : List NewTx} (hnodup : (news.map NewTx.hash).Nodup)
    (hopen : ∀ {nt : NewTx} {Q : Pool} {s : AddState}, K Q s →
      J nt Q { s with seenParents := ∅ })
    (hJ : ∀ {nt : NewTx} {Q : Pool} {s s' : AddState} {inNum : Nat} {input : CTxIn}, nt ∈ news →
      input ∈ nt.ctx.vin → AddInv H rpa Q db m s.noDsps → Q nt.hash ≠ none →
      (∀ g, Q g = none ↔ P g = none) → J nt Q s →
      addInput H db isNew nt.hash s inNum input = .ok s' → J nt (Q.grow nt.hash input) s')
    (hclose : ∀ {nt : NewTx} {Q : Pool} {s : AddState}, J nt Q s → K Q s)
    {Q : Pool} {s s' : AddState} (h : AddInv H rpa Q db m s.noDsps)
    (hQ : ∀ nt ∈ news, Q nt.hash = some (nt.withVin [])) (hnone : ∀ g, Q g = none ↔ P g = none)
    (hs : K Q s) (hok : addAllInputs H db isNew s news = .ok s') :
    AddInv H rpa (Q.putAll news) db m s'.noDsps ∧ K (Q.putAll news) s' := by
  induction news generalizing Q s with
  | nil =>
      rw [addAllInputs, Except.ok.injEq] at hok
      subst hok
      exact ⟨h, hs⟩
  | cons nt news ih =>
      rw [List.map_cons, List.nodup_cons] at hnodup
      simp only [addAllInputs] at hok
      cases hi : addInputs H db isNew nt.hash { s with seenParents := ∅ } 0 nt.ctx.vin with
      | error e => simp [hi] at hok
      | ok s₁ =>
          have hnt := hQ nt List.mem_cons_self
          have h₀ : AddInv H rpa Q db m { s with seenParents := ∅ }.noDsps := h
          obtain ⟨hinv, hs₁⟩ := addInputs_rule (J := J nt)
            (fun hin => hJ List.mem_cons_self hin) h₀ hnt hnone (List.Subset.refl nt.ctx.vin)
            (hopen hs) hi
          rw [List.nil_append, NewTx.withVin_self] at hinv hs₁
          simp only [hi] at hok
          refine ih hnodup.2 (fun hmem => hJ (List.mem_cons_of_mem nt hmem)) hinv ?_ ?_
            (hclose hs₁) hok
          · intro nt' hnt'
            rw [Pool.put_of_ne fun he => hnodup.1 (List.mem_map.mpr ⟨nt', hnt', he⟩)]
            exact hQ nt' (List.mem_cons_of_mem nt hnt')
          · intro g
            exact (Pool.put_eq_none (by simp [hnt])).trans (hnone g)

theorem putAll_eq_none {news : List NewTx} {g : TxHash} :
    P.putAll news g = none ↔ g ∉ news.map NewTx.hash ∧ P g = none := by
  induction news generalizing P with
  | nil => simp
  | cons nt news ih =>
      rw [Pool.putAll_cons, ih, List.map_cons, List.mem_cons, not_or]
      by_cases hg : g = nt.hash
      · simp [hg]
      · simp [Pool.put_of_ne hg, hg]

/-- The pool between the two passes has the ids of the pool after them. -/
theorem firstPass_eq_none {news : List NewTx} {g : TxHash} :
    P.putAll (news.map fun nt => nt.withVin []) g = none ↔ P.putAll news g = none := by
  rw [putAll_eq_none, putAll_eq_none, Pool.map_hash_withVin_nil]

/-! ## The affected script hashes -/

/-- One input adds the script hash of the output it spends. -/
theorem affected_addInput {s s' : AddState} (h : AddInv H rpa P db m s.noDsps) {hash : TxHash}
    {inNum : Nat} {input : CTxIn} (hok : addInput H db isNew hash s inNum input = .ok s') :
    ∃ info, P.prevInfo H db input.prevout = some info ∧
      s'.scriptHashesAffected = s.scriptHashesAffected.insert info.hashX := by
  have htxs : s.noDsps.mp.txs = s.mp.txs := rfl
  unfold addInput at hok
  cases hprev : P input.prevout.txHash with
  | none =>
      rw [Pool.prevInfo_of_none hprev]
      simp only [← htxs, h.content.absent _ hprev] at hok
      cases hdb : db input.prevout with
      | none => simp [hdb] at hok
      | some info =>
          simp only [hdb, Except.ok.injEq] at hok
          subst hok
          exact ⟨info, rfl, rfl⟩
  | some p =>
      obtain ⟨ptx, hptx, hprep⟩ := h.content.present _ p hprev
      rw [Pool.prevInfo_of_some hprev, NewTx.outAt, ← hprep.txos]
      rw [htxs] at hptx
      simp only [hptx] at hok
      cases hout : ptx.txos[input.prevout.outN]?.join with
      | none => simp [hout] at hok
      | some info =>
          simp only [hout] at hok
          cases hspend : spendUnconfirmed hash input.prevout info s.mp.txs with
          | error e => simp [hspend] at hok
          | ok txs =>
              simp only [hspend, Except.ok.injEq] at hok
              subst hok
              have hsame := congrArg AddState.scriptHashesAffected (addInputDsps_noDsps isNew hash
                input.prevout.txHash { s with mp := { s.mp with txs := txs } })
              refine ⟨info, rfl, ?_⟩
              exact congrArg (·.insert info.hashX) hsame

/-- The script hashes that the new transactions of a pool touch. -/
def NewTouch (H : Hashers) (db : TXO → Option TXOInfo) (isNew : TxHash → Bool) (P : Pool)
    (sh : HashX) : Prop :=
  ∃ h nt, isNew h = true ∧ P h = some nt ∧ P.Touches H db nt sh

theorem newTouch_grow {hash : TxHash} (hnew : isNew hash = true) (hP : P hash ≠ none)
    {input : CTxIn} {info : TXOInfo} (hinfo : P.prevInfo H db input.prevout = some info)
    {sh : HashX} :
    NewTouch H db isNew (P.grow hash input) sh ↔
      NewTouch H db isNew P sh ∨ sh = info.hashX := by
  constructor
  · rintro ⟨h, nt', hh, hnt', htouch⟩
    obtain ⟨nt, hnt, rfl⟩ := Pool.grow_eq_some.mp hnt'
    rw [Pool.touches_grow] at htouch
    split_ifs at htouch
    · rcases (Pool.touches_addVin hinfo).mp htouch with htouch | he
      · exact Or.inl ⟨h, nt, hh, hnt, htouch⟩
      · exact Or.inr he
    · exact Or.inl ⟨h, nt, hh, hnt, htouch⟩
  · rintro (⟨h, nt, hh, hnt, htouch⟩ | rfl)
    · refine ⟨h, _, hh, Pool.grow_eq_some.mpr ⟨nt, hnt, rfl⟩, ?_⟩
      rw [Pool.touches_grow]
      split_ifs
      · exact (Pool.touches_addVin hinfo).mpr (Or.inl htouch)
      · exact htouch
    · obtain ⟨nt, hnt⟩ := Option.ne_none_iff_exists'.mp hP
      refine ⟨hash, _, hnew, Pool.grow_eq_some.mpr ⟨nt, hnt, rfl⟩, ?_⟩
      rw [if_pos rfl, Pool.touches_grow]
      exact (Pool.touches_addVin hinfo).mpr (Or.inr rfl)

/-- One transaction of the first pass. -/
theorem affected_addTxOutputs {s : AddState} (hm : ∀ sh : HashX, s.mp.hashXTxs[sh]? ≠ some [])
    (nt : NewTx) (sh : HashX) :
    sh ∈ (addTxOutputs H s nt).scriptHashesAffected ↔
      sh ∈ s.scriptHashesAffected ∨ PaysTo H nt.ctx.vout sh := by
  have hout := (outInv_start (H := H) hm s.scriptHashesAffected nt).addOutputs
  rw [List.nil_append, List.length_nil] at hout
  exact hout.affected sh

theorem affected_foldl_addTxOutputs {s : AddState} (h : AddInv H rpa P db m s)
    {news : List NewTx} (hnodup : (news.map NewTx.hash).Nodup)
    (hnone : ∀ nt ∈ news, P nt.hash = none) (hunused : ∀ nt ∈ news, P.Unused nt.hash)
    (sh : HashX) :
    sh ∈ (news.foldl (addTxOutputs H) s).scriptHashesAffected ↔
      sh ∈ s.scriptHashesAffected ∨ ∃ nt ∈ news, PaysTo H nt.ctx.vout sh := by
  induction news generalizing P s with
  | nil => simp
  | cons nt news ih =>
      rw [List.map_cons, List.nodup_cons] at hnodup
      have hstep := h.addTxOutputs (hnone nt List.mem_cons_self) (hunused nt List.mem_cons_self)
      rw [List.foldl_cons, ih hstep hnodup.2, affected_addTxOutputs h.content.ne_nil]
      · simp only [List.mem_cons, exists_eq_or_imp]
        tauto
      · intro nt' hnt'
        rw [Pool.put_withVin_of_ne]
        · exact hnone nt' (List.mem_cons_of_mem nt hnt')
        · intro he
          exact hnodup.1 (List.mem_map.mpr ⟨nt', hnt', he⟩)
      · intro nt' hnt'
        exact (hunused nt' (List.mem_cons_of_mem nt hnt')).put_withVin_nil nt

theorem isNew_iff {news : List NewTx} {h : TxHash} :
    (news.any fun nt => nt.hash == h) = true ↔ h ∈ news.map NewTx.hash := by
  simp [List.any_eq_true]

/-- The script hashes that the new transactions touch before their inputs are added. -/
theorem newTouch_firstPass {news : List NewTx} (hnews : Fresh P news) (sh : HashX) :
    NewTouch H db (fun h => news.any (·.hash == h))
        (P.putAll (news.map fun nt => nt.withVin [])) sh ↔
      ∃ nt ∈ news, PaysTo H nt.ctx.vout sh := by
  constructor
  · rintro ⟨h, q, hh, hq, htouch⟩
    obtain ⟨nt, hnt, rfl⟩ := List.mem_map.mp (isNew_iff.mp hh)
    rw [hnews.firstPass_get nt hnt, Option.some.injEq] at hq
    subst hq
    exact ⟨nt, hnt, Pool.touches_withVin_nil.mp htouch⟩
  · rintro ⟨nt, hnt, hpays⟩
    exact ⟨nt.hash, nt.withVin [], isNew_iff.mpr (List.mem_map.mpr ⟨nt, hnt, rfl⟩),
      hnews.firstPass_get nt hnt, Pool.touches_withVin_nil.mpr hpays⟩

/-- What holds after the first pass and is kept by every input holds after both passes. -/
theorem passes_rule {K : Pool → AddState → Prop} {J : NewTx → Pool → AddState → Prop}
    {mp : Mempool} (h : Content H rpa P db mp.noDsps) (hkeyed : P.Keyed) {news : List NewTx}
    (hnews : Fresh P news) {affected : HashSet}
    (hopen : ∀ {nt : NewTx} {Q : Pool} {s : AddState}, K Q s →
      J nt Q { s with seenParents := ∅ })
    (hJ : ∀ {nt : NewTx} {Q : Pool} {s s' : AddState} {inNum : Nat} {input : CTxIn}, nt ∈ news →
      input ∈ nt.ctx.vin → AddInv H rpa Q db mp.hashXTxs s.noDsps → Q nt.hash ≠ none →
      (∀ g, Q g = none ↔ P.putAll news g = none) → J nt Q s →
      addInput H db (fun h => news.any (·.hash == h)) nt.hash s inNum input = .ok s' →
      J nt (Q.grow nt.hash input) s')
    (hclose : ∀ {nt : NewTx} {Q : Pool} {s : AddState}, J nt Q s → K Q s)
    (hfirst : K (P.putAll (news.map fun nt => nt.withVin []))
      (news.foldl (addTxOutputs H) { mp := mp, scriptHashesAffected := affected }))
    {s : AddState} (hok : passes H db mp affected news = .ok s) :
    AddInv H rpa (P.putAll news) db mp.hashXTxs s.noDsps ∧ K (P.putAll news) s := by
  have hinv := h.firstPass hkeyed hnews affected
  have hstart : { mp := mp.noDsps, scriptHashesAffected := affected } =
      AddState.noDsps { mp := mp, scriptHashesAffected := affected } := rfl
  rw [hstart, ← foldl_addTxOutputs_noDsps] at hinv
  have hall := addAllInputs_rule (P := P.putAll news) (K := K) (J := J) hnews.nodup hopen hJ hclose
    hinv hnews.firstPass_get (fun g => firstPass_eq_none) hfirst hok
  rw [putAll_putAll_withVin] at hall
  exact hall

/-- The affected script hashes are those given and those the new transactions touch. -/
theorem mem_affected_of_passes {mp : Mempool} (h : Content H rpa P db mp.noDsps)
    (hkeyed : P.Keyed) {news : List NewTx} (hnews : Fresh P news) {affected : HashSet}
    {s : AddState} (hok : passes H db mp affected news = .ok s) (sh : HashX) :
    sh ∈ s.scriptHashesAffected ↔
      sh ∈ affected ∨ ∃ nt ∈ news, (P.putAll news).Touches H db nt sh := by
  let K : Pool → AddState → Prop := fun Q s => ∀ sh, sh ∈ s.scriptHashesAffected ↔
    sh ∈ affected ∨ NewTouch H db (fun h => news.any (·.hash == h)) Q sh
  have hstart : AddInv H rpa P db mp.hashXTxs
      { mp := mp.noDsps, scriptHashesAffected := affected } :=
    ⟨h, hkeyed, rfl, fun _ _ => rfl⟩
  have hfirst : K (P.putAll (news.map fun nt => nt.withVin []))
      (news.foldl (addTxOutputs H) { mp := mp, scriptHashesAffected := affected }) := by
    intro sh
    have haff := affected_foldl_addTxOutputs hstart hnews.nodup hnews.none hnews.unused sh
    have hnoDsps := congrArg AddState.scriptHashesAffected
      (foldl_addTxOutputs_noDsps (H := H) news { mp := mp, scriptHashesAffected := affected })
    rw [newTouch_firstPass hnews, ← haff]
    exact Eq.to_iff (congrArg (sh ∈ ·) hnoDsps)
  have hall := passes_rule (K := K) (J := fun _ => K) h hkeyed hnews (fun hK => hK)
    (fun {nt Q s s' inNum input} hnt _ hinv hQ _ hK hadd sh => by
      obtain ⟨info, hinfo, haff⟩ := affected_addInput hinv hadd
      have hmem : sh ∈ s.scriptHashesAffected.insert info.hashX ↔
          sh = info.hashX ∨ sh ∈ s.scriptHashesAffected := mem_set_insert
      rw [haff, hmem, hK, newTouch_grow (isNew_iff.mpr (List.mem_map.mpr ⟨nt, hnt, rfl⟩)) hQ hinfo]
      tauto) (fun hK => hK) hfirst hok
  rw [hall.2]
  refine or_congr_right ⟨?_, ?_⟩
  · rintro ⟨g, nt, hg, hnt, htouch⟩
    obtain ⟨nt', hnt', rfl⟩ := List.mem_map.mp (isNew_iff.mp hg)
    rw [Pool.putAll_of_mem hnews.nodup hnt', Option.some.injEq] at hnt
    subst hnt
    exact ⟨nt', hnt', htouch⟩
  · rintro ⟨nt, hnt, htouch⟩
    exact ⟨nt.hash, nt, isNew_iff.mpr (List.mem_map.mpr ⟨nt, hnt, rfl⟩),
      Pool.putAll_of_mem hnews.nodup hnt, htouch⟩

end Mempool
end Shulcrum
