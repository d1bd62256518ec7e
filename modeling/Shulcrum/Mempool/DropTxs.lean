import Shulcrum.Mempool.Removal

/-!
# `dropTxs`

The txids to drop are closed under children, then the transactions are dropped
one by one.  While the loop runs, a transaction that stays is described by the
pool without the transactions dropped so far; of a transaction that is still to
be dropped only what the loop reads is kept up, see `Doomed`.

**Results.**
* `descendants_total`, `mem_descendants`: the closure ends and consists of the
  descendants in the mempool.
* `Rep.dropTxs`: the mempool represents the pool without the dropped
  transactions, and the affected script hashes are those they touch.
-/

namespace Shulcrum

open BTC SortUnique TreeMap

namespace Mempool

variable {H : Hashers} {rpa : Bool} {P : Pool} {db : TXO → Option TXOInfo}

theorem nodup_childrenOf (txs : TxMap) (h : TxHash) : (childrenOf txs h).Nodup := by
  unfold childrenOf
  cases txs[h]? with
  | none => simp
  | some tx => exact nodup_set_toList _

theorem Content.mem_childrenOf {mp : Mempool} (h : Content H rpa P db mp) (hkeyed : P.Keyed)
    {p c : TxHash} : c ∈ childrenOf mp.txs p ↔ P p ≠ none ∧ P.Spends c p := by
  unfold childrenOf
  cases hp : P p with
  | none => simp [h.absent p hp]
  | some q =>
      obtain ⟨tx, htx, hrep⟩ := h.present p q hp
      rw [htx, Option.map_some, Option.getD_some, Std.ExtTreeSet.mem_toList, hrep.children,
        hkeyed p q hp]
      simp

/-- The closure under children always ends. -/
theorem descendants_total (txs : TxMap) (txids : List TxHash) :
    ∃ res, growTxHashSetToIncludeDescendants txs txids = some res := by
  refine Worklist.grow_total (nodup_childrenOf txs)
    (U := txs.toList.flatMap fun e => e.2.children.toList) ?_ ?_
  · intro h c hc
    unfold childrenOf at hc
    cases htx : txs[h]? with
    | none => simp [htx] at hc
    | some tx =>
        rw [htx, Option.map_some, Option.getD_some] at hc
        refine List.mem_flatMap.mpr ⟨(h, tx), ?_, hc⟩
        exact Std.ExtTreeMap.mem_toList_iff_getElem?_eq_some.mpr htx
  · exact Nat.add_le_add_left (List.length_filter_le _ _) _

/-- A transaction and its descendants in the pool. -/
def Descends (P : Pool) : TxHash → TxHash → Prop :=
  Relation.ReflTransGen fun p c => P p ≠ none ∧ P.Spends c p

/-- The closure consists of the given txids and their descendants. -/
theorem Content.mem_descendants {mp : Mempool} (h : Content H rpa P db mp) (hkeyed : P.Keyed)
    {txids res : List TxHash} (hres : growTxHashSetToIncludeDescendants mp.txs txids = some res)
    (x : TxHash) : x ∈ res ↔ ∃ t ∈ txids, Descends P t x := by
  have hrel : (fun p c => c ∈ childrenOf mp.txs p) = fun p c => P p ≠ none ∧ P.Spends c p := by
    funext p c
    rw [h.mem_childrenOf hkeyed]
  rw [Worklist.mem_grow hres, hrel]
  rfl

/-- What the loop of `dropTxs` reads of a transaction that is still to be dropped. -/
structure Doomed (H : Hashers) (rpa : Bool) (P : Pool) (db : TXO → Option TXOInfo)
    (gone : List TxHash) (nt : NewTx) (tx : Tx) : Prop where
  hash : tx.hash = nt.hash
  mem_hashXs : ∀ sh, sh ∈ tx.hashXs ↔ P.Touches H db nt sh
  unconf : ∀ sh txo info, (tx.io sh).unconfirmedSpends[txo]? = some info ↔
    txo ∈ nt.prevouts ∧ (∃ p, P txo.txHash = some p ∧ p.outAt H txo.outN = some info) ∧
      info.hashX = sh
  parents : ∀ p, p ∉ gone → (p ∈ tx.parents ↔ P p ≠ none ∧ ∃ txo ∈ nt.prevouts, txo.txHash = p)
  children : ∀ c, c ∈ tx.children → c ∈ gone
  rpaNone : tx.optRpaPrefixSet = none ↔ rpa = false ∨ nt.ctx.vin = []
  rpaSome : ∀ s, tx.optRpaPrefixSet = some s → ∀ p, p ∈ s ↔ p ∈ nt.rpaPrefixes H

theorem TxRep.doomed {gone : List TxHash} {nt : NewTx} {tx : Tx} (h : TxRep H rpa P db nt tx)
    (hclosed : P.DescendantClosed gone) (hP : P nt.hash ≠ none) (hgone : nt.hash ∈ gone) :
    Doomed H rpa P db gone nt tx where
  hash := h.hash
  mem_hashXs := h.mem_hashXs
  unconf := h.unconf
  parents p _ := h.parents p
  children c hc := hclosed c nt.hash ((h.children c).mp hc) hP hgone
  rpaNone := h.rpaNone
  rpaSome := h.rpaSome

/-- A doomed transaction stays so when another one is unlinked. -/
theorem Doomed.unlink {gone : List TxHash} {nt : NewTx} {tx x : Tx} {g : TxHash}
    (h : Doomed H rpa P db gone nt x) (ht : tx.hash ∈ gone) :
    Doomed H rpa P db gone nt (unlinkOn tx g x) where
  hash := h.hash
  mem_hashXs := h.mem_hashXs
  unconf := h.unconf
  parents p hp := by
    rw [← h.parents p hp]
    have hne : p ≠ tx.hash := fun e => hp (e ▸ ht)
    unfold unlinkOn
    simp only
    split_ifs
    · exact mem_set_erase.trans (and_iff_right hne)
    · rfl
  children c hc := by
    apply h.children c
    unfold unlinkOn at hc
    simp only at hc
    split_ifs at hc
    · exact (mem_set_erase.mp hc).2
    · exact hc
  rpaNone := h.rpaNone
  rpaSome := h.rpaSome

/-- How crediting the outputs named in `L` changes the record of `g`. -/
structure Credited (g : TxHash) (L : List (HashX × TXO)) (x x' : Tx) : Prop where
  rest : x' = { x with hashXs := x'.hashXs }
  mem_hashXs : ∀ sh, sh ∈ x'.hashXs ↔ sh ∈ x.hashXs
  conf : ∀ sh, (x'.io sh).confirmedSpends = (x.io sh).confirmedSpends
  unconf : ∀ sh, (x'.io sh).unconfirmedSpends = (x.io sh).unconfirmedSpends
  utxo : ∀ sh n, n ∈ (x'.io sh).utxo ↔ n ∈ (x.io sh).utxo ∨
    ((sh, (⟨g, n⟩ : TXO)) ∈ L ∧ n < x.txos.length ∧ sh ∈ x.hashXs)

theorem Credited.refl (g : TxHash) (x : Tx) : Credited g [] x x :=
  ⟨rfl, fun _ => Iff.rfl, fun _ => rfl, fun _ => rfl, fun _ _ => by simp⟩

/-- One more output is credited. -/
theorem Credited.step {g : TxHash} {L : List (HashX × TXO)} {x x' : Tx} (h : Credited g L x x')
    (sh : HashX) (n : Nat) (hn : n < x.txos.length) :
    Credited g (L ++ [(sh, ⟨g, n⟩)]) x
      (x'.modifyIo sh fun io => { io with utxo := io.utxo.insert n }) := by
  by_cases hsh : sh ∈ x.hashXs
  · have hsh' := (h.mem_hashXs sh).mpr hsh
    refine ⟨?_, ?_, ?_, ?_, ?_⟩
    · rw [h.rest]
      rfl
    · intro sh'
      rw [Tx.mem_modifyIo, h.mem_hashXs]
    · intro sh'
      rw [Tx.io_modifyIo hsh']
      split_ifs <;> exact h.conf sh'
    · intro sh'
      rw [Tx.io_modifyIo hsh']
      split_ifs <;> exact h.unconf sh'
    · intro sh' n'
      rw [Tx.io_modifyIo hsh']
      simp only [List.mem_append, List.mem_singleton, Prod.mk.injEq, TXO.mk.injEq, true_and]
      split_ifs with he
      · subst he
        rw [mem_set_insert, h.utxo]
        constructor
        · rintro (rfl | hor)
          · exact .inr ⟨.inr ⟨rfl, rfl⟩, hn, hsh⟩
          · exact hor.imp id fun ⟨hL, hrest⟩ => ⟨.inl hL, hrest⟩
        · rintro (hu | ⟨hL | ⟨-, rfl⟩, hrest⟩)
          · exact .inr (.inl hu)
          · exact .inr (.inr ⟨hL, hrest⟩)
          · exact .inl rfl
      · rw [h.utxo]
        refine or_congr_right (and_congr_left fun _ => ⟨.inl, ?_⟩)
        rintro (hL | ⟨e, -⟩)
        · exact hL
        · exact absurd e.symm he
  · have hsh' : sh ∉ x'.hashXs := fun hm => hsh ((h.mem_hashXs sh).mp hm)
    have hsame : (x'.modifyIo sh fun io => { io with utxo := io.utxo.insert n }) = x' := by
      have hmap : x'.hashXs.modify sh (fun io => { io with utxo := io.utxo.insert n }) =
          x'.hashXs := by
        apply Std.ExtTreeMap.ext_getElem?
        intro sh'
        rw [get_modify]
        split_ifs with he
        · subst he
          rw [not_mem_iff_getElem?.mp hsh']
          rfl
        · rfl
      simp only [Tx.modifyIo, hmap]
    rw [hsame]
    refine ⟨h.rest, h.mem_hashXs, h.conf, h.unconf, fun sh' n' => ?_⟩
    rw [h.utxo]
    refine or_congr_right ⟨fun e => ⟨List.mem_append_left _ e.1, e.2⟩, ?_⟩
    rintro ⟨hL, hlen, hk⟩
    rcases List.mem_append.mp hL with hL | hL
    · exact ⟨hL, hlen, hk⟩
    · simp only [List.mem_singleton, Prod.mk.injEq] at hL
      rw [hL.1] at hk
      exact absurd hk hsh

/-- An entry that names no output of `g`. -/
theorem Credited.skip {g : TxHash} {L : List (HashX × TXO)} {x x' : Tx} (h : Credited g L x x')
    {e : HashX × TXO} (he : ∀ n, n < x.txos.length → e.2 ≠ ⟨g, n⟩) :
    Credited g (L ++ [e]) x x' := by
  refine ⟨h.rest, h.mem_hashXs, h.conf, h.unconf, fun sh n => ?_⟩
  rw [h.utxo]
  refine or_congr_right ⟨fun hL => ⟨List.mem_append_left _ hL.1, hL.2⟩, ?_⟩
  rintro ⟨hL, hlen, hk⟩
  rcases List.mem_append.mp hL with hL | hL
  · exact ⟨hL, hlen, hk⟩
  · rw [List.mem_singleton] at hL
    exact absurd (by rw [← hL]) (he n hlen)

/-- How crediting the outputs named in `L` changes all records. -/
structure CreditedMap (gone : List TxHash) (L : List (HashX × TXO)) (txs txs' : TxMap) : Prop where
  doomed : ∀ g ∈ gone, txs'[g]? = txs[g]?
  absent : ∀ g : TxHash, txs[g]? = none → txs'[g]? = none
  present : ∀ g ∉ gone, ∀ x, txs[g]? = some x → ∃ x', txs'[g]? = some x' ∧ Credited g L x x'

theorem CreditedMap.refl (gone : List TxHash) (txs : TxMap) : CreditedMap gone [] txs txs :=
  ⟨fun _ _ => rfl, fun _ h => h, fun g _ x hx => ⟨x, hx, Credited.refl g x⟩⟩

/-- An entry that names no output of a transaction that stays. -/
theorem CreditedMap.skip {gone : List TxHash} {L : List (HashX × TXO)} {txs txs' : TxMap}
    (h : CreditedMap gone L txs txs') {e : HashX × TXO}
    (he : ∀ g ∉ gone, ∀ x, txs[g]? = some x → ∀ n, n < x.txos.length → e.2 ≠ ⟨g, n⟩) :
    CreditedMap gone (L ++ [e]) txs txs' := by
  refine ⟨h.doomed, h.absent, fun g hg x hx => ?_⟩
  obtain ⟨x', hx', hcred⟩ := h.present g hg x hx
  exact ⟨x', hx', hcred.skip (he g hg x hx)⟩

theorem CreditedMap.creditBack {gone : List TxHash} {L : List (HashX × TXO)} {txs txs' : TxMap}
    (h : CreditedMap gone L txs txs') (sh : HashX) (e : TXO × TXOInfo) :
    CreditedMap gone (L ++ [(sh, e.1)]) txs (creditBack gone sh txs' e) := by
  unfold Mempool.creditBack
  split_ifs with hgone
  · refine h.skip fun g hg x _ n _ he => hg ?_
    rw [show e.1 = ⟨g, n⟩ from he] at hgone
    exact hgone
  · cases hprev : txs'[e.1.txHash]? with
    | none =>
        refine h.skip fun g hg x hx n _ he => ?_
        obtain ⟨x', hx', -⟩ := h.present g hg x hx
        rw [show e.1 = ⟨g, n⟩ from he, hx'] at hprev
        cases hprev
    | some prevTx =>
        simp only
        split_ifs with hlen
        · refine ⟨fun g hg => ?_, fun g hg => ?_, fun g hg x hx => ?_⟩
          · have hne : e.1.txHash ≠ g := fun he => hgone (he ▸ hg)
            rw [get_modify, if_neg hne]
            exact h.doomed g hg
          · rw [get_modify, h.absent g hg]
            simp
          · obtain ⟨x', hx', hcred⟩ := h.present g hg x hx
            rw [get_modify, hx']
            by_cases he : e.1.txHash = g
            · subst he
              rw [hx', Option.some.injEq] at hprev
              rw [← hprev, hcred.rest] at hlen
              rw [if_pos rfl]
              exact ⟨_, rfl, hcred.step sh e.1.outN hlen⟩
            · rw [if_neg he]
              exact ⟨x', rfl, hcred.skip fun n _ he' => he (by rw [show e.1 = ⟨g, n⟩ from he'])⟩
        · refine h.skip fun g hg x hx n hn he => hlen ?_
          obtain ⟨x', hx', hcred⟩ := h.present g hg x hx
          rw [show e.1 = ⟨g, n⟩ from he] at hprev ⊢
          rw [hx', Option.some.injEq] at hprev
          rw [← hprev, hcred.rest]
          exact hn

/-- The outputs spent by a transaction, with their script hashes. -/
def unconfirmedSpendKeys (tx : Tx) : List (HashX × TXO) :=
  tx.hashXs.toList.flatMap fun e => e.2.unconfirmedSpends.toList.map fun u => (e.1, u.1)

theorem mem_unconfirmedSpendKeys {tx : Tx} {sh : HashX} {txo : TXO} :
    (sh, txo) ∈ unconfirmedSpendKeys tx ↔
      ∃ info, (tx.io sh).unconfirmedSpends[txo]? = some info := by
  unfold unconfirmedSpendKeys
  simp only [List.mem_flatMap, List.mem_map, Prod.mk.injEq, Prod.exists]
  constructor
  · rintro ⟨sh', io, hio, txo', info, hinfo, rfl, rfl⟩
    rw [Std.ExtTreeMap.mem_toList_iff_getElem?_eq_some] at hio hinfo
    refine ⟨info, ?_⟩
    rw [Tx.io, hio]
    exact hinfo
  · rintro ⟨info, hinfo⟩
    have hsh : sh ∈ tx.hashXs := by
      by_contra hn
      rw [Tx.io_of_not_mem hn] at hinfo
      simp at hinfo
    refine ⟨sh, tx.io sh, ?_, txo, info, ?_, rfl, rfl⟩
    · rw [Std.ExtTreeMap.mem_toList_iff_getElem?_eq_some]
      exact Tx.get_hashXs_of_mem hsh
    · rw [Std.ExtTreeMap.mem_toList_iff_getElem?_eq_some]
      exact hinfo

/-- All outputs spent by a transaction are credited back. -/
theorem creditedMap_unconfirmedSpends (gone : List TxHash) (txs : TxMap) (tx : Tx) :
    CreditedMap gone (unconfirmedSpendKeys tx) txs
      (tx.hashXs.toList.foldl (fun txs e =>
        e.2.unconfirmedSpends.toList.foldl (creditBack gone e.1) txs) txs) := by
  have hinner : ∀ (sh : HashX) (es : List (TXO × TXOInfo)) (L : List (HashX × TXO)) (txs' : TxMap),
      CreditedMap gone L txs txs' →
      CreditedMap gone (L ++ es.map fun u => (sh, u.1)) txs
        (es.foldl (Mempool.creditBack gone sh) txs') := by
    intro sh es
    induction es with
    | nil =>
        intro L txs' h
        rw [List.map_nil, List.append_nil]
        exact h
    | cons e es ih =>
        intro L txs' h
        have hstep := ih _ _ (h.creditBack sh e)
        rw [List.append_assoc] at hstep
        exact hstep
  have houter : ∀ (l : List (HashX × IOInfo)) (L : List (HashX × TXO)) (txs' : TxMap),
      CreditedMap gone L txs txs' →
      CreditedMap gone
        (L ++ l.flatMap fun e => e.2.unconfirmedSpends.toList.map fun u => (e.1, u.1)) txs
        (l.foldl (fun txs e =>
          e.2.unconfirmedSpends.toList.foldl (Mempool.creditBack gone e.1) txs) txs') := by
    intro l
    induction l with
    | nil =>
        intro L txs' h
        rw [List.flatMap_nil, List.append_nil]
        exact h
    | cons e l ih =>
        intro L txs' h
        have hstep := ih _ _ (hinner e.1 e.2.unconfirmedSpends.toList L txs' h)
        rw [List.append_assoc] at hstep
        exact hstep
  exact houter _ [] txs (CreditedMap.refl gone txs)

end Mempool

namespace Pool

variable {P : Pool}

/-- The other transactions spend what they spent before. -/
theorem spends_without_append {gone : List TxHash} {t c p : TxHash} :
    (P.without (gone ++ [t])).Spends c p ↔ (P.without gone).Spends c p ∧ c ≠ t := by
  unfold Spends
  simp only [without_eq_some, List.mem_append, List.mem_singleton, not_or]
  constructor
  · rintro ⟨q, ⟨⟨hc, hct⟩, hq⟩, hrest⟩
    exact ⟨⟨q, ⟨hc, hq⟩, hrest⟩, hct⟩
  · rintro ⟨⟨q, ⟨hc, hq⟩, hrest⟩, hct⟩
    exact ⟨q, ⟨⟨hc, hct⟩, hq⟩, hrest⟩

/-- An output spent by the removed transaction is spent by no other one. -/
theorem spent_without_append (hP : P.NoDoubleSpend) {gone : List TxHash} {t : TxHash} {q : NewTx}
    (hq : P.without gone t = some q) {txo : TXO} :
    (P.without (gone ++ [t])).Spent txo ↔ (P.without gone).Spent txo ∧ txo ∉ q.prevouts := by
  unfold Spent
  constructor
  · rintro ⟨h, r, hr, hmem⟩
    rw [without_eq_some, List.mem_append, List.mem_singleton, not_or] at hr
    obtain ⟨⟨hgone, hht⟩, hr⟩ := hr
    refine ⟨⟨h, r, without_eq_some.mpr ⟨hgone, hr⟩, hmem⟩, fun hq' => hht ?_⟩
    exact hP h r t q txo hr (without_eq_some.mp hq).2 hmem hq'
  · rintro ⟨⟨h, r, hr, hmem⟩, hnot⟩
    have hht : h ≠ t := by
      rintro rfl
      rw [hq, Option.some.injEq] at hr
      subst hr
      exact hnot hmem
    rw [without_eq_some] at hr
    exact ⟨h, r, without_eq_some.mpr ⟨by simp [hr.1, hht], hr.2⟩, hmem⟩

end Pool
namespace Mempool

variable {H : Hashers} {rpa : Bool} {P : Pool} {db : TXO → Option TXOInfo}

/-- The record of a transaction that stays, when another one is dropped. -/
theorem TxRep.dropOther (hP : P.NoDoubleSpend) {gone done : List TxHash}
    (hclosed : P.DescendantClosed gone) {t : TxHash} (ht : t ∈ gone)
    {qt : NewTx} {tx : Tx} (hqt : P.without done t = some qt) (hhash : tx.hash = t)
    (hdoomed : Doomed H rpa P db gone qt tx) {g : TxHash} {q : NewTx} (hq : P g = some q)
    (hkey : q.hash = g) (hg : g ∉ gone) {x x' : Tx}
    (h : TxRep H rpa (P.without done) db q x)
    (hcred : Credited g (unconfirmedSpendKeys tx) x x') :
    TxRep H rpa (P.without (done ++ [t])) db q (unlinkOn tx g x') := by
  have hchild : g ∉ tx.children := fun hc => hg (hdoomed.children g hc)
  have hsame : ∀ txo ∈ q.prevouts,
      P.without (done ++ [t]) txo.txHash = P.without done txo.txHash := by
    intro txo htxo
    have hne : txo.txHash ≠ t := by
      rintro rfl
      refine hg (hclosed g txo.txHash ⟨q, hq, txo, htxo, rfl⟩ ?_ ht)
      rw [(Pool.without_eq_some.mp hqt).2]
      simp
    simp [Pool.without, hne]
  have hinfo : ∀ txo ∈ q.prevouts, (P.without (done ++ [t])).prevInfo H db txo =
      (P.without done).prevInfo H db txo := by
    intro txo htxo
    simp only [Pool.prevInfo, hsame txo htxo]
  have hrest := hcred.rest
  have hio : ∀ sh, (unlinkOn tx g x').io sh = x'.io sh := fun _ => rfl
  exact
    { hash := by
        rw [← h.hash, hrest]
        rfl
      sizeBytes := by
        rw [← h.sizeBytes, hrest]
        rfl
      vsizeBytes := by
        rw [← h.vsizeBytes, hrest]
        rfl
      txos := by
        rw [← h.txos, hrest]
        rfl
      fee := by
        have hsum : (P.without (done ++ [t])).inSum H db q = (P.without done).inSum H db q := by
          unfold Pool.inSum
          congr 1
          refine List.map_congr_left fun txo htxo => ?_
          rw [hinfo txo htxo]
        rw [hsum, ← h.fee, hrest]
        rfl
      mem_hashXs := fun sh => by
        refine (hcred.mem_hashXs sh).trans ((h.mem_hashXs sh).trans ?_)
        unfold Pool.Touches
        refine or_congr_right (exists_congr fun txo => and_congr_right fun htxo => ?_)
        rw [hinfo txo htxo]
      conf := fun sh txo info => by
        rw [hio, hcred.conf, h.conf]
        refine and_congr_right fun htxo => ?_
        rw [hsame txo htxo]
      unconf := fun sh txo info => by
        rw [hio, hcred.unconf, h.unconf]
        refine and_congr_right fun htxo => ?_
        rw [hsame txo htxo]
      utxo := fun sh n => by
        rw [hio, hcred.utxo, h.utxo, Pool.spent_without_append hP hqt, mem_unconfirmedSpendKeys,
          hkey]
        simp only [hdoomed.unconf, hq, Option.some.injEq, exists_eq_left']
        constructor
        · rintro (⟨hex, hns⟩ | ⟨⟨info, hmem, hout, hsh⟩, -⟩)
          · exact ⟨hex, fun hs => hns hs.1⟩
          · exact ⟨⟨info, hout, hsh⟩, fun hs => hs.2 hmem⟩
        · rintro ⟨⟨info, hout, hsh⟩, hns⟩
          by_cases hs : (P.without done).Spent ⟨g, n⟩
          · have hmem : (⟨g, n⟩ : TXO) ∈ qt.prevouts := by
              by_contra hn
              exact hns ⟨hs, hn⟩
            have hlen : n < x.txos.length := by
              rw [h.txos]
              by_contra hge
              rw [NewTx.outAt, List.getElem?_eq_none (not_lt.mp hge)] at hout
              cases hout
            exact .inr ⟨⟨info, hmem, hout, hsh⟩, hlen,
              (h.mem_hashXs sh).mpr (.inl ⟨n, info, hout, hsh⟩)⟩
          · exact .inl ⟨⟨info, hout, hsh⟩, hs⟩
      parents := fun p => by
        have hp : (unlinkOn tx g x').parents = x.parents := by
          rw [hrest]
          exact if_neg hchild
        rw [hp, h.parents]
        constructor
        · rintro ⟨hp, txo, htxo, rfl⟩
          exact ⟨by rw [hsame txo htxo]; exact hp, txo, htxo, rfl⟩
        · rintro ⟨hp, txo, htxo, rfl⟩
          exact ⟨by rw [← hsame txo htxo]; exact hp, txo, htxo, rfl⟩
      children := fun c => by
        have hc : (unlinkOn tx g x').children =
            if g ∈ tx.parents then x.children.erase t else x.children := by
          rw [hrest, ← hhash]
          rfl
        rw [hc, Pool.spends_without_append, ← h.children]
        split_ifs with hpar
        · rw [mem_set_erase, and_comm]
        · refine ⟨fun hmem => ⟨hmem, ?_⟩, fun hmem => hmem.1⟩
          -- a child that is dropped has this transaction among its parents
          rintro rfl
          obtain ⟨r, hr, txo, htxo, hpt⟩ := (h.children c).mp hmem
          rw [hqt, Option.some.injEq] at hr
          subst hr
          exact hpar ((hdoomed.parents g hg).mpr ⟨by simp [hq], txo, htxo, by rw [hpt, hkey]⟩)
      rpaNone := by
        rw [← h.rpaNone, hrest]
        rfl
      rpaSome := by
        rw [hrest]
        exact h.rpaSome }

/-- The loop of `dropTxs` over `gone`, when the transactions of `done` are dropped. -/
structure DropInv (H : Hashers) (rpa : Bool) (P : Pool) (db : TXO → Option TXOInfo)
    (gone : List TxHash) (mp : Mempool) (done : List TxHash) (s : RmState) : Prop where
  absent : ∀ g, P.without done g = none → s.mp.txs[g]? = none
  stays : ∀ g q, P g = some q → g ∉ gone →
    ∃ tx, s.mp.txs[g]? = some tx ∧ TxRep H rpa (P.without done) db q tx
  doomed : ∀ g q, P.without done g = some q → g ∈ gone →
    ∃ tx, s.mp.txs[g]? = some tx ∧ Doomed H rpa P db gone q tx
  affected : ∀ sh, sh ∈ s.scriptHashesAffected ↔
    ∃ g q, g ∈ done ∧ P g = some q ∧ P.Touches H db q sh
  table : TableRep H rpa (P.without done) s.mp.optPrefixTable
  hashXTxs : s.mp.hashXTxs = mp.hashXTxs
  dsps : s.mp.dsps = {}

theorem Content.dropInv {mp : Mempool} (h : Content H rpa P db mp) (hkeyed : P.Keyed)
    {gone : List TxHash} (hclosed : P.DescendantClosed gone) :
    DropInv H rpa P db gone mp [] { mp := mp } where
  absent g hg := h.absent g (by rwa [Pool.without_nil] at hg)
  stays g q hq _ := by
    rw [Pool.without_nil]
    exact h.present g q hq
  doomed g q hq hg := by
    rw [Pool.without_nil] at hq
    obtain ⟨tx, htx, hrep⟩ := h.present g q hq
    have hkey := hkeyed g q hq
    exact ⟨tx, htx, hrep.doomed hclosed (by simp [hkey, hq]) (by rwa [hkey])⟩
  affected sh := by simp
  table := by
    rw [Pool.without_nil]
    exact h.table
  hashXTxs := rfl
  dsps := h.dsps

/-- One round of the loop of `dropTxs`. -/
theorem DropInv.step (hP : P.NoDoubleSpend) (hkeyed : P.Keyed) {gone done : List TxHash}
    (hclosed : P.DescendantClosed gone) {mp : Mempool} {s : RmState}
    (h : DropInv H rpa P db gone mp done s) {t : TxHash} (ht : t ∈ gone) :
    DropInv H rpa P db gone mp (done ++ [t]) (dropTx gone s t) := by
  cases hqt : P.without done t with
  | none =>
      have hsame := Pool.without_append_of_none hqt
      have hskip : dropTx gone s t = s := by
        unfold dropTx
        rw [h.absent t hqt]
      rw [hskip]
      refine ⟨?_, ?_, ?_, ?_, ?_, h.hashXTxs, h.dsps⟩
      · rw [hsame]
        exact h.absent
      · rw [hsame]
        exact h.stays
      · rw [hsame]
        exact h.doomed
      · intro sh
        rw [h.affected]
        constructor
        · rintro ⟨g, q, hg, hrest⟩
          exact ⟨g, q, List.mem_append_left _ hg, hrest⟩
        · rintro ⟨g, q, hg, hq, htouch⟩
          rcases List.mem_append.mp hg with hg | hg
          · exact ⟨g, q, hg, hq, htouch⟩
          · rw [List.mem_singleton] at hg
            subst hg
            refine ⟨g, q, ?_, hq, htouch⟩
            by_contra hn
            rw [Pool.without_of_not_mem hn, hq] at hqt
            cases hqt
      · rw [hsame]
        exact h.table
  | some qt =>
      obtain ⟨htdone, hqtP⟩ := Pool.without_eq_some.mp hqt
      obtain ⟨tx, htx, hdoomed⟩ := h.doomed t qt hqt ht
      have hhash : tx.hash = t := by rw [hdoomed.hash, hkeyed t qt hqtP]
      have hcred := creditedMap_unconfirmedSpends gone s.mp.txs tx
      have hget : ∀ g, (dropTx gone s t).mp.txs[g]? = if t = g then none else
          (tx.hashXs.toList.foldl (fun txs e =>
            e.2.unconfirmedSpends.toList.foldl (creditBack gone e.1) txs) s.mp.txs)[g]?.map
              (unlinkOn tx g) := by
        intro g
        simp only [dropTx, htx, eraseTx, get_erase, get_unlink]
      have hother : ∀ g, t ≠ g → P.without (done ++ [t]) g = P.without done g := by
        intro g hne
        by_cases hg : g ∈ done
        · rw [Pool.without_of_mem hg, Pool.without_of_mem (by simp [hg])]
        · rw [Pool.without_of_not_mem hg, Pool.without_of_not_mem (by simp [hg, Ne.symm hne])]
      refine ⟨?_, ?_, ?_, ?_, ?_, ?_, ?_⟩
      · intro g hg
        rw [hget]
        split_ifs with hgt
        · rfl
        · rw [hother g hgt] at hg
          rw [hcred.absent g (h.absent g hg)]
          rfl
      · intro g q hq hg
        have hgt : t ≠ g := fun e => hg (e ▸ ht)
        obtain ⟨x, hx, hrep⟩ := h.stays g q hq hg
        obtain ⟨x', hx', hcredx⟩ := hcred.present g hg x hx
        rw [hget, if_neg hgt, hx']
        exact ⟨_, rfl, hrep.dropOther hP hclosed ht hqt hhash hdoomed hq (hkeyed g q hq) hg
          hcredx⟩
      · intro g q hq hg
        have hgt : t ≠ g := by
          rintro rfl
          rw [Pool.without_of_mem (by simp)] at hq
          cases hq
        rw [hother g hgt] at hq
        obtain ⟨x, hx, hdoomedx⟩ := h.doomed g q hq hg
        rw [hget, if_neg hgt, hcred.doomed g hg, hx]
        exact ⟨_, rfl, hdoomedx.unlink (by rwa [hhash])⟩
      · intro sh
        have haff : (dropTx gone s t).scriptHashesAffected =
            addHashXs tx s.scriptHashesAffected := by
          simp only [dropTx, htx, eraseTx]
        rw [haff, mem_addHashXs, h.affected, hdoomed.mem_hashXs]
        constructor
        · rintro (⟨g, q, hg, hrest⟩ | htouch)
          · exact ⟨g, q, List.mem_append_left _ hg, hrest⟩
          · exact ⟨t, qt, by simp, hqtP, htouch⟩
        · rintro ⟨g, q, hg, hq, htouch⟩
          rcases List.mem_append.mp hg with hg | hg
          · exact .inl ⟨g, q, hg, hq, htouch⟩
          · rw [List.mem_singleton] at hg
            subst hg
            rw [hqtP, Option.some.injEq] at hq
            subst hq
            exact .inr htouch
      · have htable : (dropTx gone s t).mp.optPrefixTable =
            (rmTxRpaAssociations s.mp.optPrefixTable tx).2 := by
          simp only [dropTx, htx, eraseTx]
        rw [htable]
        exact h.table.rmTx hqt hhash hdoomed.rpaNone hdoomed.rpaSome
      · rw [← h.hashXTxs]
        simp only [dropTx, htx, eraseTx]
      · rw [← h.dsps]
        simp only [dropTx, htx, eraseTx]

/-- The whole loop of `dropTxs`. -/
theorem DropInv.foldl (hP : P.NoDoubleSpend) (hkeyed : P.Keyed) {gone done rest : List TxHash}
    (hclosed : P.DescendantClosed gone) (hsub : rest ⊆ gone) {mp : Mempool} {s : RmState}
    (h : DropInv H rpa P db gone mp done s) :
    DropInv H rpa P db gone mp (done ++ rest) (rest.foldl (dropTx gone) s) := by
  induction rest generalizing done s with
  | nil =>
      rw [List.append_nil]
      exact h
  | cons t rest ih =>
      have hstep := h.step hP hkeyed hclosed (hsub (by simp) : t ∈ gone)
      have hrest := ih (fun g hg => hsub (by simp [hg])) hstep
      rw [List.append_assoc] at hrest
      exact hrest

/-- The descendants of a list are closed under children. -/
theorem descendantClosed_of_mem {txids gone : List TxHash}
    (hgone : ∀ x, x ∈ gone ↔ ∃ t ∈ txids, Descends P t x) : P.DescendantClosed gone := by
  intro c p hspends hp hmem
  obtain ⟨t, ht, hdesc⟩ := (hgone p).mp hmem
  exact (hgone c).mpr ⟨t, ht, hdesc.tail ⟨hp, hspends⟩⟩

/-- A transaction that stays sees the same outputs as before. -/
theorem agree_without {gone : List TxHash} (hclosed : P.DescendantClosed gone) {g : TxHash}
    {q : NewTx} (hq : P g = some q) (hg : g ∉ gone) :
    ∀ txo ∈ q.prevouts, P.without gone txo.txHash = P txo.txHash := by
  intro txo htxo
  by_cases hmem : txo.txHash ∈ gone
  · rw [Pool.without_of_mem hmem]
    by_contra hne
    exact hg (hclosed g txo.txHash ⟨q, hq, txo, htxo, rfl⟩ (Ne.symm hne) hmem)
  · exact Pool.without_of_not_mem hmem

/-- `dropTxs` drops the given transactions and their descendants. -/
theorem Rep.dropTxs {mp : Mempool} (h : Rep H rpa P db mp) (hP : P.NoDoubleSpend)
    (hkeyed : P.Keyed) (affectedOut : HashSet) (txids : List TxHash) :
    ∃ gone r, dropTxs mp affectedOut txids = some r ∧ r.2.1 = gone ∧
      (∀ x, x ∈ gone ↔ ∃ t ∈ txids, Descends P t x) ∧
      Rep H rpa (P.without gone) db r.1 ∧
      ∀ sh, sh ∈ r.2.2.1 ↔ sh ∈ affectedOut ∨
        ∃ g q, g ∈ gone ∧ P g = some q ∧ P.Touches H db q sh := by
  obtain ⟨gone, hgrow⟩ := descendants_total mp.txs txids
  have hgone := h.toContent.mem_descendants hkeyed hgrow
  have hclosed := descendantClosed_of_mem hgone
  have hinv := (h.toContent.dropInv hkeyed hclosed).foldl hP hkeyed hclosed
    (List.Subset.refl gone)
  rw [List.nil_append] at hinv
  refine ⟨gone, _, by simp only [Mempool.dropTxs, hgrow]; rfl, rfl, hgone, ?_, ?_⟩
  · refine rep_rmTxsInHashXTxs h (fun g => decide_eq_true_iff) hinv.absent ?_ ?_
      (by rw [← hinv.hashXTxs]) ?_ ?_ hinv.table (by simp [hinv.dsps])
    · intro g q hq
      obtain ⟨hg, hq⟩ := Pool.without_eq_some.mp hq
      exact hinv.stays g q hq hg
    · intro g q sh hq
      obtain ⟨hg, hq⟩ := Pool.without_eq_some.mp hq
      unfold Pool.Touches
      refine or_congr_right (exists_congr fun txo => and_congr_right fun htxo => ?_)
      simp only [Pool.prevInfo, agree_without hclosed hq hg txo htxo]
    · intro g q sh hq hg htouch
      exact (hinv.affected sh).mpr ⟨g, q, hg, hq, htouch⟩
    · intro g q hq hflag
      obtain ⟨hg, hqP⟩ := Pool.without_eq_some.mp hq
      obtain ⟨tx, htx, hrep⟩ := h.present g q hqP
      obtain ⟨tx', htx', hrep'⟩ := hinv.stays g q hqP hg
      refine absurd ?_ hflag
      rw [htx, htx', Option.any_some, Option.any_some, Bool.eq_iff_iff,
        hrep.hasUnconfirmedParents, hrep'.hasUnconfirmedParents]
      refine exists_congr fun txo => and_congr_right fun htxo => ?_
      rw [agree_without hclosed hqP hg txo htxo]
  · intro sh
    rw [Std.ExtTreeSet.mem_union_iff, hinv.affected]

end Mempool
end Shulcrum
