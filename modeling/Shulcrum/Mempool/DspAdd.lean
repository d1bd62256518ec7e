import Shulcrum.Mempool.SecondPass

/-!
# Double-spend proofs of new transactions

During the second pass a new transaction gets the proofs of its old parents,
and its new parents are noted.  After the loop over the noted pairs every
transaction has the proofs of all its parents, and no others than those of the
transactions it descends from.

**Results.**
* `DspInv.addInput`: what one input keeps.
* `DspInv.spreadNew`: the links after the loop are closed.
* `DspClosed.addNewTxs`: every proof lists the descendants of its transaction.
-/

namespace Shulcrum

open BTC TreeMap DSPs

/-- The transaction `c` of the pool spends an output of `q`, which is in the pool as well. -/
def Pool.Link (P : Pool) (c q : TxHash) : Prop := P q ≠ none ∧ P.Spends c q

namespace Mempool

open AddState

variable {H : Hashers} {rpa : Bool} {P : Pool} {db : TXO → Option TXOInfo} {m : HashXTxMap}
variable {isNew : TxHash → Bool}

/--
What the second pass keeps: `P` is the pool with the inputs added so far, `d₀` are
the proofs before, and `R` bounds the links that may be added.
-/
structure DspInv (d₀ : DSPs) (isNew : TxHash → Bool) (R : TxHash → Hash → Prop) (P : Pool)
    (s : AddState) : Prop where
  linked : Linked s.mp.dsps
  same : SameProofs d₀ s.mp.dsps
  sound : ∀ tx h, s.Lists tx h → R tx h
  affected : ∀ tx, tx ∈ s.dspTxsAffected ↔ isNew tx = true ∧ ∃ h, s.Lists tx h
  noted : ∀ c q, (c, q) ∈ newLinks s → isNew q = true ∧ P.Link c q
  notes : s.mp.dsps.isEmpty = false → ∀ c q, P.Link c q → isNew q = true → (c, q) ∈ newLinks s
  derives : ∀ c q, P.Link c q → isNew q = false → ∀ h, s.Lists q h → s.Lists c h

/-- The invariant between two inputs of the transaction `hash`. -/
structure InputInv (d₀ : DSPs) (isNew : TxHash → Bool) (R : TxHash → Hash → Prop) (hash : TxHash)
    (P : Pool) (s : AddState) : Prop extends DspInv d₀ isNew R P s where
  seen : ∀ q ∈ s.seenParents, P.Link hash q

theorem link_grow {hash : TxHash} (hP : P hash ≠ none) {input : CTxIn}
    (hprev : P input.prevout.txHash ≠ none) {c q : TxHash} :
    (P.grow hash input).Link c q ↔
      P.Link c q ∨ (c = hash ∧ q = input.prevout.txHash) := by
  unfold Pool.Link
  rw [Ne, Pool.grow_eq_none, Pool.spends_grow hP]
  constructor
  · rintro ⟨hq, hl | hl⟩
    · exact Or.inl ⟨hq, hl⟩
    · exact Or.inr hl
  · rintro (⟨hq, hl⟩ | ⟨rfl, rfl⟩)
    · exact ⟨hq, Or.inl hl⟩
    · exact ⟨hprev, Or.inr ⟨rfl, rfl⟩⟩

/-- A spend of a confirmed output links nothing. -/
theorem link_grow_of_none {hash : TxHash} (hP : P hash ≠ none) {input : CTxIn}
    (hprev : P input.prevout.txHash = none) {c q : TxHash} :
    (P.grow hash input).Link c q ↔ P.Link c q := by
  unfold Pool.Link
  rw [Ne, Pool.grow_eq_none, Pool.spends_grow hP]
  refine and_congr_right fun hq => ⟨?_, Or.inl⟩
  rintro (hl | ⟨-, rfl⟩)
  · exact hl
  · exact absurd hprev hq

theorem not_lists_of_isEmpty {s : AddState} (hs : Linked s.mp.dsps)
    (hempty : s.mp.dsps.isEmpty = true) (tx : TxHash) (h : Hash) : ¬ s.Lists tx h := by
  intro hl
  have hmem := hs.mem_dsproofs hl
  rw [Std.ExtTreeMap.isEmpty_iff.mp hempty] at hmem
  simp at hmem

/-- Note that the transaction `hash` has the new parent `q`. -/
def noteParent (hash q : TxHash) (s : AddState) : AddState :=
  { s with newTxsNewParents :=
      s.newTxsNewParents.alter hash fun o => some ((o.getD ∅).insert q) }

theorem mem_newLinks_noteParent {hash q : TxHash} {s : AddState} {c x : TxHash} :
    (c, x) ∈ newLinks (noteParent hash q s) ↔ (c, x) ∈ newLinks s ∨ (c = hash ∧ x = q) := by
  rw [mem_newLinks, mem_newLinks, noteParent]
  simp only [get_alter]
  by_cases hc : hash = c
  · subst hc
    cases hget : s.newTxsNewParents[hash]? with
    | none =>
        have hmem : x ∈ (∅ : HashSet).insert q ↔ x = q ∨ x ∈ (∅ : HashSet) := mem_set_insert
        simp [hmem]
    | some parents =>
        have hmem : x ∈ parents.insert q ↔ x = q ∨ x ∈ parents := mem_set_insert
        simp [hmem, or_comm]
  · simp [hc, Ne.symm hc]

section OneInput

variable {d₀ : DSPs} {R : TxHash → Hash → Prop} {hash : TxHash} {s : AddState} {input : CTxIn}

/-- Without proofs, or for a parent seen before, a spend changes nothing. -/
theorem InputInv.skip (h : InputInv d₀ isNew R hash P s) (hP : P hash ≠ none)
    (hprev : P input.prevout.txHash ≠ none)
    (hskip : s.mp.dsps.isEmpty = true ∨ input.prevout.txHash ∈ s.seenParents) :
    InputInv d₀ isNew R hash (P.grow hash input) s := by
  have hlink := fun c q => link_grow (c := c) (q := q) hP hprev
  refine ⟨⟨h.linked, h.same, h.sound, h.affected, ?_, ?_, ?_⟩, ?_⟩
  · intro c q hm
    obtain ⟨hq, hl⟩ := h.noted c q hm
    exact ⟨hq, (hlink c q).mpr (Or.inl hl)⟩
  · intro hne c q hl hq
    rcases (hlink c q).mp hl with hl | ⟨rfl, rfl⟩
    · exact h.notes hne c q hl hq
    · rcases hskip with hempty | hseen
      · simp [hempty] at hne
      · exact h.notes hne _ _ (h.seen _ hseen) hq
  · intro c q hl hq k hk
    rcases (hlink c q).mp hl with hl | ⟨rfl, rfl⟩
    · exact h.derives c q hl hq k hk
    · rcases hskip with hempty | hseen
      · exact absurd hk (not_lists_of_isEmpty h.linked hempty _ k)
      · exact h.derives _ _ (h.seen _ hseen) hq k hk
  · intro q hq
    exact (hlink hash q).mpr (Or.inl (h.seen q hq))

/-- A new parent is noted. -/
theorem DspInv.noteParent (h : DspInv d₀ isNew R P s) (hP : P hash ≠ none)
    (hprev : P input.prevout.txHash ≠ none) (hnew : isNew input.prevout.txHash = true) :
    DspInv d₀ isNew R (P.grow hash input) (noteParent hash input.prevout.txHash s) := by
  have hlink := fun c q => link_grow (c := c) (q := q) hP hprev
  refine ⟨h.linked, h.same, h.sound, h.affected, ?_, ?_, ?_⟩
  · intro c q hm
    rcases mem_newLinks_noteParent.mp hm with hm | ⟨rfl, rfl⟩
    · obtain ⟨hq, hl⟩ := h.noted c q hm
      exact ⟨hq, (hlink c q).mpr (Or.inl hl)⟩
    · exact ⟨hnew, (hlink _ _).mpr (Or.inr ⟨rfl, rfl⟩)⟩
  · intro hne c q hl hq
    rw [mem_newLinks_noteParent]
    rcases (hlink c q).mp hl with hl | he
    · exact Or.inl (h.notes hne c q hl hq)
    · exact Or.inr he
  · intro c q hl hq k hk
    rcases (hlink c q).mp hl with hl | ⟨-, rfl⟩
    · exact h.derives c q hl hq k hk
    · rw [hnew] at hq
      cases hq

/-- The proofs of an old parent are those it had before the pass. -/
theorem DspInv.addDspsOfParent (h : DspInv d₀ isNew R P s) (hP : P hash ≠ none)
    (hnew : isNew hash = true) (hprev : P input.prevout.txHash ≠ none)
    (hold : isNew input.prevout.txHash = false) (hR : ∀ k, R input.prevout.txHash k → R hash k) :
    DspInv d₀ isNew R (P.grow hash input)
      (addDspsOfParent hash input.prevout.txHash s) := by
  have hlink := fun c q => link_grow (c := c) (q := q) hP hprev
  have hscan := scan_addDspsOfParent h.linked hash input.prevout.txHash
  have hnewLinks := newLinks_congr hscan.newParents
  -- only links of the transaction itself are added, and it is new
  have horigin : ∀ tx k, (Mempool.addDspsOfParent hash input.prevout.txHash s).Lists tx k →
      s.Lists tx k ∨ tx = hash := by
    refine hscan.sound (fun tx k => s.Lists tx k ∨ tx = hash) ?_ (fun _ _ => Or.inl)
    intro e he k _
    rw [List.mem_singleton.mp he]
    exact Or.inr rfl
  refine ⟨hscan.linked, h.same.trans hscan.same, ?_, ?_, ?_, ?_, ?_⟩
  · refine hscan.sound R ?_ h.sound
    intro e he k hk
    rw [List.mem_singleton.mp he] at hk ⊢
    exact hR k hk
  · intro tx
    rw [hscan.affected, h.affected]
    constructor
    · rintro (⟨htx, k, hk⟩ | ⟨k, hk, hn⟩)
      · exact ⟨htx, k, hscan.mono tx k hk⟩
      · rcases horigin tx k hk with hs | rfl
        · exact absurd hs hn
        · exact ⟨hnew, k, hk⟩
    · rintro ⟨htx, k, hk⟩
      by_cases hs : s.Lists tx k
      · exact Or.inl ⟨htx, k, hs⟩
      · exact Or.inr ⟨k, hk, hs⟩
  · intro c q hm
    rw [hnewLinks] at hm
    obtain ⟨hq, hl⟩ := h.noted c q hm
    exact ⟨hq, (hlink c q).mpr (Or.inl hl)⟩
  · intro hne c q hl hq
    rw [hnewLinks]
    rw [hscan.same.isEmpty_eq] at hne
    rcases (hlink c q).mp hl with hl | ⟨-, rfl⟩
    · exact h.notes hne c q hl hq
    · rw [hold] at hq
      cases hq
  · intro c q hl hq k hk
    have hks : s.Lists q k := by
      rcases horigin q k hk with hs | rfl
      · exact hs
      · rw [hnew] at hq
        cases hq
    rcases (hlink c q).mp hl with hl | ⟨rfl, rfl⟩
    · exact hscan.mono c k (h.derives c q hl hq k hks)
    · exact hscan.derives (c, input.prevout.txHash) List.mem_cons_self k hks

/-- The bookkeeping for a spend of a mempool output. -/
theorem InputInv.addInputDsps (h : InputInv d₀ isNew R hash P s) (hP : P hash ≠ none)
    (hnew : isNew hash = true) (hprev : P input.prevout.txHash ≠ none)
    (hR : ∀ k, R input.prevout.txHash k → R hash k) :
    InputInv d₀ isNew R hash (P.grow hash input)
      (addInputDsps isNew hash input.prevout.txHash s) := by
  have hlink := fun c q => link_grow (c := c) (q := q) hP hprev
  have hseen : ∀ q, q ∈ s.seenParents.insert input.prevout.txHash →
      (P.grow hash input).Link hash q := by
    intro q hq
    have hmem : q = input.prevout.txHash ∨ q ∈ s.seenParents := mem_set_insert.mp hq
    rcases hmem with rfl | hq
    · exact (hlink hash _).mpr (Or.inr ⟨rfl, rfl⟩)
    · exact (hlink hash q).mpr (Or.inl (h.seen q hq))
  unfold Mempool.addInputDsps
  split_ifs with hskip hprevNew
  · exact h.skip hP hprev hskip
  · have hinv := h.toDspInv.noteParent hP hprev hprevNew
    exact ⟨⟨hinv.linked, hinv.same, hinv.sound, hinv.affected, hinv.noted, hinv.notes,
      hinv.derives⟩, hseen⟩
  · have hold : isNew input.prevout.txHash = false := by
      rw [Bool.eq_false_iff]
      exact hprevNew
    have hinv := h.toDspInv.addDspsOfParent hP hnew hprev hold hR
    have hsame := (scan_addDspsOfParent h.linked hash input.prevout.txHash).seen
    refine ⟨⟨hinv.linked, hinv.same, hinv.sound, hinv.affected, hinv.noted, hinv.notes,
      hinv.derives⟩, ?_⟩
    dsimp only
    rw [hsame]
    exact hseen

/-- The parts of the state that double-spend proofs depend on. -/
structure SameDsps (s s' : AddState) : Prop where
  dsps : s'.mp.dsps = s.mp.dsps
  affected : s'.dspTxsAffected = s.dspTxsAffected
  newParents : s'.newTxsNewParents = s.newTxsNewParents
  seen : s'.seenParents = s.seenParents

theorem InputInv.congr {s' : AddState} (h : InputInv d₀ isNew R hash P s) (hs : SameDsps s s') :
    InputInv d₀ isNew R hash P s' := by
  have hlists : ∀ tx k, s'.Lists tx k ↔ s.Lists tx k := by
    intro tx k
    rw [AddState.Lists, AddState.Lists, hs.dsps]
  have hlinks := newLinks_congr hs.newParents
  constructor
  · constructor
    · rw [hs.dsps]
      exact h.linked
    · rw [hs.dsps]
      exact h.same
    · simp only [hlists]
      exact h.sound
    · simp only [hlists, hs.affected]
      exact h.affected
    · rw [hlinks]
      exact h.noted
    · rw [hlinks, hs.dsps]
      exact h.notes
    · simp only [hlists]
      exact h.derives
  · rw [hs.seen]
    exact h.seen

theorem sameDsps_finishInput {inNum : Nat} {info : TXOInfo} :
    SameDsps s (finishInput H hash inNum input info s) := by
  refine ⟨?_, rfl, rfl, rfl⟩
  unfold finishInput
  dsimp only
  rw [addInputRpa_frame]

theorem InputInv.of_link_iff {P' : Pool} (h : InputInv d₀ isNew R hash P s)
    (hlink : ∀ c q, P'.Link c q ↔ P.Link c q) : InputInv d₀ isNew R hash P' s := by
  refine ⟨⟨h.linked, h.same, h.sound, h.affected, ?_, ?_, ?_⟩, ?_⟩
  · simp only [hlink]
    exact h.noted
  · simp only [hlink]
    exact h.notes
  · simp only [hlink]
    exact h.derives
  · simp only [hlink]
    exact h.seen

/-- One input of a new transaction. -/
theorem InputInv.addInput (h : InputInv d₀ isNew R hash P s)
    (hinv : AddInv H rpa P db m s.noDsps) (hP : P hash ≠ none) (hnew : isNew hash = true)
    (hR : P input.prevout.txHash ≠ none → ∀ k, R input.prevout.txHash k → R hash k)
    {inNum : Nat} {s' : AddState} (hok : addInput H db isNew hash s inNum input = .ok s') :
    InputInv d₀ isNew R hash (P.grow hash input) s' := by
  have htxs : s.noDsps.mp.txs = s.mp.txs := rfl
  unfold Mempool.addInput at hok
  cases hprev : P input.prevout.txHash with
  | none =>
      simp only [← htxs, hinv.content.absent _ hprev] at hok
      cases hdb : db input.prevout with
      | none => simp [hdb] at hok
      | some info =>
          simp only [hdb, Except.ok.injEq] at hok
          subst hok
          have hs := h.of_link_iff fun c q => link_grow_of_none (c := c) (q := q) hP hprev
          have hspend : InputInv d₀ isNew R hash (P.grow hash input)
              { s with mp := { s.mp with
                txs := spendConfirmed hash input.prevout info s.mp.txs } } :=
            hs.congr ⟨rfl, rfl, rfl, rfl⟩
          exact hspend.congr sameDsps_finishInput
  | some p =>
      have hne : P input.prevout.txHash ≠ none := by simp [hprev]
      obtain ⟨ptx, hptx, hprep⟩ := hinv.content.present _ p hprev
      rw [htxs] at hptx
      simp only [hptx] at hok
      cases hout : ptx.txos[input.prevout.outN]?.join with
      | none => simp [hout] at hok
      | some info =>
          simp only [hout] at hok
          cases hspend : spendUnconfirmed hash input.prevout info s.mp.txs with
          | error e => simp [hspend] at hok
          | ok txs =>
              simp only [hspend, Except.ok.injEq] at hok
              subst hok
              have hs : InputInv d₀ isNew R hash P { s with mp := { s.mp with txs := txs } } :=
                h.congr ⟨rfl, rfl, rfl, rfl⟩
              exact (hs.addInputDsps hP hnew hne (hR hne)).congr sameDsps_finishInput

end OneInput

section Loop

variable {d₀ : DSPs} {R : TxHash → Hash → Prop} {s : AddState}

/-- The links after the loop: closed, and still bounded by `R`. -/
structure DspFinal (d₀ : DSPs) (isNew : TxHash → Bool) (R : TxHash → Hash → Prop) (P : Pool)
    (s : AddState) : Prop where
  linked : Linked s.mp.dsps
  same : SameProofs d₀ s.mp.dsps
  sound : ∀ tx h, s.Lists tx h → R tx h
  affected : ∀ tx, tx ∈ s.dspTxsAffected ↔ isNew tx = true ∧ ∃ h, s.Lists tx h
  closed : ∀ c q, P.Link c q → ∀ h, s.Lists q h → s.Lists c h

/-- The loop is left out only where it would add nothing. -/
theorem DspInv.closed_of_skip (h : DspInv d₀ isNew R P s)
    (hskip : ¬ (¬ s.mp.dsps.isEmpty = true ∧ ¬ s.newTxsNewParents.isEmpty = true ∧
      ¬ s.dspTxsAffected.isEmpty = true)) {c q : TxHash} (hl : P.Link c q) {k : Hash}
    (hk : s.Lists q k) : s.Lists c k := by
  cases hq : isNew q with
  | false => exact h.derives c q hl hq k hk
  | true =>
      exfalso
      apply hskip
      have hne : s.mp.dsps.isEmpty = false := by
        rw [Bool.eq_false_iff]
        intro hempty
        exact not_lists_of_isEmpty h.linked hempty q k hk
      refine ⟨by simp [hne], ?_, ?_⟩
      · intro hempty
        obtain ⟨parents, hget, -⟩ := mem_newLinks.mp (h.notes hne c q hl hq)
        rw [Std.ExtTreeMap.isEmpty_iff.mp hempty] at hget
        simp at hget
      · intro hempty
        have hmem := (h.affected q).mpr ⟨hq, k, hk⟩
        rw [Std.ExtTreeSet.isEmpty_iff.mp hempty] at hmem
        simp at hmem

/-- The loop over the new transactions with new parents. -/
theorem DspInv.spreadNew (h : DspInv d₀ isNew R P s)
    (hR : ∀ c q, P.Link c q → ∀ k, R q k → R c k)
    (hnew : ∀ c q, P.Link c q → isNew q = true → isNew c = true) :
    DspFinal d₀ isNew R P (spreadNew s) := by
  unfold Mempool.spreadNew
  split_ifs with hloop
  · have hne : s.mp.dsps.isEmpty = false := by simpa using hloop.1
    obtain ⟨hscan, hclosed⟩ := scan_spreadDsps h.linked rfl
    have horigin : ∀ tx k, (spreadDsps (s.newTxsNewParents.size * s.mp.dsps.size + 1) s).Lists
        tx k → s.Lists tx k ∨ isNew tx = true := by
      refine hscan.sound (fun tx k => s.Lists tx k ∨ isNew tx = true) ?_ (fun _ _ => Or.inl)
      intro e he k _
      obtain ⟨hq, hl⟩ := h.noted e.1 e.2 he
      exact Or.inr (hnew _ _ hl hq)
    refine ⟨hscan.linked, h.same.trans hscan.same, ?_, ?_, ?_⟩
    · refine hscan.sound R ?_ h.sound
      intro e he k hk
      exact hR e.1 e.2 (h.noted e.1 e.2 he).2 k hk
    · intro tx
      rw [hscan.affected, h.affected]
      constructor
      · rintro (⟨htx, k, hk⟩ | ⟨k, hk, hn⟩)
        · exact ⟨htx, k, hscan.mono tx k hk⟩
        · rcases horigin tx k hk with hs | htx
          · exact absurd hs hn
          · exact ⟨htx, k, hk⟩
      · rintro ⟨htx, k, hk⟩
        by_cases hs : s.Lists tx k
        · exact Or.inl ⟨htx, k, hs⟩
        · exact Or.inr ⟨k, hk, hs⟩
    · intro c q hl k hk
      cases hq : isNew q with
      | true => exact hclosed (c, q) (h.notes hne c q hl hq) k hk
      | false =>
          have hks : s.Lists q k := by
            rcases horigin q k hk with hs | hq'
            · exact hs
            · rw [hq] at hq'
              cases hq'
          exact hscan.mono c k (h.derives c q hl hq k hks)
  · exact ⟨h.linked, h.same, h.sound, h.affected, fun c q hl k hk => h.closed_of_skip hloop hl hk⟩

end Loop

/-! ## The whole call -/

/-- Every proof lists its transaction, which is in the pool, and the descendants of it. -/
structure DspClosed (P : Pool) (d : DSPs) : Prop where
  linked : Linked d
  inPool : ∀ (h : Hash) (p : DSProof), d.dsproofs[h]? = some p → P p.txHash ≠ none
  descendants : ∀ (h : Hash) (p : DSProof), d.dsproofs[h]? = some p →
    ∀ t, t ∈ p.descendants ↔ Descends P p.txHash t

theorem dspClosed_empty (P : Pool) : DspClosed P {} := by
  refine ⟨linked_empty, ?_, ?_⟩
  · intro h p hp
    simp at hp
  · intro h p hp
    simp at hp

theorem DspClosed.lists_iff {d : DSPs} (hd : DspClosed P d) {tx : TxHash} {h : Hash} :
    DSPs.Lists d.txDspsMap tx h ↔ ∃ p, d.dsproofs[h]? = some p ∧ Descends P p.txHash tx := by
  rw [hd.linked.lists_iff, Affects]
  refine exists_congr fun p => and_congr_right fun hp => ?_
  exact hd.descendants h p hp tx

theorem Descends.mem {t x : TxHash} (h : Descends P t x) (ht : P t ≠ none) : P x ≠ none := by
  cases h with
  | refl => exact ht
  | tail _ hlast =>
      obtain ⟨-, q, hq, -⟩ := hlast
      simp [hq]

/-- A linked transaction is in the pool. -/
theorem DspClosed.mem_of_lists {d : DSPs} (hd : DspClosed P d) {tx : TxHash} {h : Hash}
    (hl : DSPs.Lists d.txDspsMap tx h) : P tx ≠ none := by
  obtain ⟨p, hp, hdesc⟩ := hd.lists_iff.mp hl
  exact hdesc.mem (hd.inPool h p hp)

theorem spends_firstPass {news : List NewTx} (hnews : Fresh P news) {c q : TxHash} :
    (P.putAll (news.map fun nt => nt.withVin [])).Spends c q ↔ P.Spends c q := by
  have hnodup : ((news.map fun nt => nt.withVin []).map NewTx.hash).Nodup := by
    rw [Pool.map_hash_withVin_nil]
    exact hnews.nodup
  constructor
  · rintro ⟨x, hx, txo, htxo, hq⟩
    rcases (Pool.putAll_eq_some hnodup).mp hx with ⟨hmem, -⟩ | ⟨-, hx⟩
    · obtain ⟨nt, -, rfl⟩ := List.mem_map.mp hmem
      simp at htxo
    · exact ⟨x, hx, txo, htxo, hq⟩
  · rintro ⟨x, hx, txo, htxo, hq⟩
    refine ⟨x, (Pool.putAll_eq_some hnodup).mpr (Or.inr ⟨?_, hx⟩), txo, htxo, hq⟩
    rw [Pool.map_hash_withVin_nil]
    intro hmem
    obtain ⟨nt, hnt, rfl⟩ := List.mem_map.mp hmem
    rw [hnews.none nt hnt] at hx
    cases hx

/-- Transactions of the pool do not spend from new ones. -/
theorem Fresh.not_new_of_spends {news : List NewTx} (hnews : Fresh P news) {c q : TxHash}
    (h : P.Spends c q) : q ∉ news.map NewTx.hash := by
  intro hmem
  obtain ⟨nt, hnt, rfl⟩ := List.mem_map.mp hmem
  obtain ⟨x, hx, txo, htxo, hq⟩ := h
  exact hnews.unused nt hnt c x hx txo htxo hq

/-- The proofs a transaction may be linked to. -/
def Reach (P : Pool) (d : DSPs) (tx : TxHash) (h : Hash) : Prop :=
  ∃ p, d.dsproofs[h]? = some p ∧ Descends P p.txHash tx

theorem reach_of_link {d : DSPs} {c q : TxHash} (hl : P.Link c q) {h : Hash}
    (hr : Reach P d q h) : Reach P d c h := by
  obtain ⟨p, hp, hdesc⟩ := hr
  exact ⟨p, hp, hdesc.tail hl⟩

/-- The links of the pool are links of the pool with the new transactions. -/
theorem Fresh.link_putAll {news : List NewTx} (hnews : Fresh P news) {c q : TxHash}
    (hl : P.Link c q) : (P.putAll news).Link c q := by
  obtain ⟨hq, x, hx, hex⟩ := hl
  have hc : c ∉ news.map NewTx.hash := by
    intro hmem
    obtain ⟨nt, hnt, rfl⟩ := List.mem_map.mp hmem
    rw [hnews.none nt hnt] at hx
    cases hx
  refine ⟨fun hnone => hq (putAll_eq_none.mp hnone).2, x, ?_, hex⟩
  rw [Pool.putAll_of_not_mem hc, hx]

theorem Fresh.descends_putAll {news : List NewTx} (hnews : Fresh P news) {t x : TxHash}
    (h : Descends P t x) : Descends (P.putAll news) t x := by
  induction h with
  | refl => exact .refl
  | tail _ hlast ih => exact ih.tail (hnews.link_putAll hlast)

theorem sameDsps_foldl_addTxOutputs (news : List NewTx) (s : AddState) :
    SameDsps s (news.foldl (addTxOutputs H) s) := by
  induction news generalizing s with
  | nil => exact ⟨rfl, rfl, rfl, rfl⟩
  | cons nt news ih =>
      have hrest := ih (addTxOutputs H s nt)
      exact ⟨hrest.dsps, hrest.affected, hrest.newParents, hrest.seen⟩

/-- What holds of the proofs between the two passes. -/
theorem dspInv_firstPass {mp : Mempool} (hd : DspClosed P mp.dsps) {news : List NewTx}
    (hnews : Fresh P news) (affected : HashSet) :
    DspInv mp.dsps (fun h => news.any (·.hash == h)) (Reach (P.putAll news) mp.dsps)
      (P.putAll (news.map fun nt => nt.withVin []))
      (news.foldl (addTxOutputs H) { mp := mp, scriptHashesAffected := affected }) := by
  have hsame := sameDsps_foldl_addTxOutputs (H := H) news
    { mp := mp, scriptHashesAffected := affected }
  have hlists : ∀ tx k,
      (news.foldl (addTxOutputs H) { mp := mp, scriptHashesAffected := affected }).Lists tx k ↔
        DSPs.Lists mp.dsps.txDspsMap tx k := by
    intro tx k
    rw [AddState.Lists, hsame.dsps]
  have hlink : ∀ c q, (P.putAll (news.map fun nt => nt.withVin [])).Link c q → P.Link c q := by
    rintro c q ⟨hq, hspends⟩
    rw [spends_firstPass hnews] at hspends
    have hq' := hnews.not_new_of_spends hspends
    rw [Pool.putAll_of_not_mem (by rw [Pool.map_hash_withVin_nil]; exact hq')] at hq
    exact ⟨hq, hspends⟩
  constructor
  · rw [hsame.dsps]
    exact hd.linked
  · rw [hsame.dsps]
    exact .refl _
  · intro tx k hl
    obtain ⟨p, hp, hdesc⟩ := hd.lists_iff.mp ((hlists tx k).mp hl)
    exact ⟨p, hp, hnews.descends_putAll hdesc⟩
  · intro tx
    rw [hsame.affected]
    constructor
    · intro hmem
      simp at hmem
    · rintro ⟨hnew, k, hl⟩
      obtain ⟨nt, hnt, rfl⟩ := List.mem_map.mp (isNew_iff.mp hnew)
      exact absurd (hnews.none nt hnt) (hd.mem_of_lists ((hlists _ k).mp hl))
  · intro c q hm
    obtain ⟨parents, hget, -⟩ := mem_newLinks.mp hm
    rw [hsame.newParents] at hget
    simp at hget
  · intro _ c q hl hq
    exact absurd (isNew_iff.mp hq) (hnews.not_new_of_spends (hlink c q hl).2)
  · intro c q hl _ k hk
    rw [hlists] at hk ⊢
    obtain ⟨p, hp, hdesc⟩ := hd.lists_iff.mp hk
    exact hd.lists_iff.mpr ⟨p, hp, hdesc.tail (hlink c q hl)⟩

/-- The links after the loop of `addNewTxs`. -/
theorem dspFinal_of_passes {mp : Mempool} (h : Content H rpa P db mp.noDsps) (hkeyed : P.Keyed)
    (hd : DspClosed P mp.dsps) {news : List NewTx} (hnews : Fresh P news) {affected : HashSet}
    {s : AddState} (hok : passes H db mp affected news = .ok s) :
    DspFinal mp.dsps (fun h => news.any (·.hash == h)) (Reach (P.putAll news) mp.dsps)
      (P.putAll news)
      (spreadNew { s with mp := sortAffected s.scriptHashesAffected s.mp }) := by
  have hpass := passes_rule
    (K := DspInv mp.dsps (fun h => news.any (·.hash == h)) (Reach (P.putAll news) mp.dsps))
    (J := fun nt => InputInv mp.dsps (fun h => news.any (·.hash == h))
      (Reach (P.putAll news) mp.dsps) nt.hash) h hkeyed hnews
    (fun {nt Q s} hK => by
      refine ⟨⟨hK.linked, hK.same, hK.sound, hK.affected, hK.noted, hK.notes, hK.derives⟩, ?_⟩
      intro q hq
      simp at hq)
    (fun {nt Q s s' inNum input} hnt hin hinv hQ hnone hJ hadd => by
      refine hJ.addInput hinv hQ (isNew_iff.mpr (List.mem_map.mpr ⟨nt, hnt, rfl⟩)) ?_ hadd
      intro hprev k hr
      refine reach_of_link ⟨fun hn => hprev ((hnone _).mpr hn), nt, ?_, ?_⟩ hr
      · exact Pool.putAll_of_mem hnews.nodup hnt
      · exact ⟨input.prevout, List.mem_map.mpr ⟨input, hin, rfl⟩, rfl⟩)
    (fun hJ => hJ.toDspInv) (dspInv_firstPass hd hnews affected) hok
  have hsorted : DspInv mp.dsps (fun h => news.any (·.hash == h)) (Reach (P.putAll news) mp.dsps)
      (P.putAll news) { s with mp := sortAffected s.scriptHashesAffected s.mp } :=
    ⟨hpass.2.linked, hpass.2.same, hpass.2.sound, hpass.2.affected, hpass.2.noted,
      hpass.2.notes, hpass.2.derives⟩
  refine hsorted.spreadNew (fun c q hl k hr => reach_of_link hl hr) ?_
  rintro c q ⟨-, x, hx, txo, htxo, rfl⟩ hq
  rcases (Pool.putAll_eq_some hnews.nodup).mp hx with ⟨hmem, rfl⟩ | ⟨-, hx⟩
  · exact isNew_iff.mpr (List.mem_map.mpr ⟨x, hmem, rfl⟩)
  · exact absurd (isNew_iff.mp hq) (hnews.not_new_of_spends ⟨x, hx, txo, htxo, rfl⟩)

/-- Closed links make every proof list exactly the descendants of its transaction. -/
theorem DspFinal.dspClosed {d₀ : DSPs} {isNew : TxHash → Bool} {P' : Pool} {s : AddState}
    (h : DspFinal d₀ isNew (Reach P' d₀) P' s) (hd : DspClosed P d₀)
    (hsub : ∀ g, P g ≠ none → P' g ≠ none) : DspClosed P' s.mp.dsps := by
  refine ⟨h.linked, ?_, ?_⟩
  · intro k p' hp'
    obtain ⟨p, hp, hcore⟩ := h.same.get hp'
    have htx : p'.txHash = p.txHash := txHash_eq_of_core hcore
    rw [htx]
    exact hsub _ (hd.inPool k p hp)
  · intro k p' hp' t
    obtain ⟨p, hp, hcore⟩ := h.same.get hp'
    have htx : p'.txHash = p.txHash := txHash_eq_of_core hcore
    have hlists : ∀ t, t ∈ p'.descendants ↔ s.Lists t k := by
      intro t
      rw [AddState.Lists, h.linked.lists_iff, affects_of_get hp']
    rw [hlists]
    constructor
    · intro hl
      obtain ⟨q, hq, hdesc⟩ := h.sound t k hl
      rw [hp, Option.some.injEq] at hq
      rw [htx, hq]
      exact hdesc
    · intro hdesc
      induction hdesc with
      | refl => exact (hlists _).mp (h.linked.filed k p' hp').2
      | tail _ hlast ih => exact h.closed _ _ hlast k ih

theorem dsps_addResult (mp : Mempool) (s : AddState) :
    (addResult mp (conclude s)).1.dsps =
      (spreadNew { s with mp := sortAffected s.scriptHashesAffected s.mp }).mp.dsps := by
  rw [conclude, finishDsps_eq_spreadNew]
  rfl

/-- `addNewTxs` keeps the lists of descendants complete, and keeps the proofs. -/
theorem DspClosed.addNewTxs {mp : Mempool} (hd : DspClosed P mp.dsps)
    (h : Content H rpa P db mp.noDsps) (hkeyed : P.Keyed) {news : List NewTx}
    (hnews : Fresh P news) {affected : HashSet} {r : Mempool × HashSet × MempoolStats}
    (hok : addNewTxs H db mp affected news = .ok r) :
    DspClosed (P.putAll news) r.1.dsps ∧ SameProofs mp.dsps r.1.dsps := by
  obtain ⟨s, hpass, rfl⟩ := exists_passes_of_ok hok
  have hfinal := dspFinal_of_passes h hkeyed hd hnews hpass
  rw [dsps_addResult]
  refine ⟨hfinal.dspClosed hd ?_, hfinal.same⟩
  intro g hg hnone
  exact hg (putAll_eq_none.mp hnone).2

end Mempool
end Shulcrum
