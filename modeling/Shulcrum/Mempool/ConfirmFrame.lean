import Shulcrum.Mempool.Indexed
import Shulcrum.Storage.HeaderRejection

/-!
# What a block leaves alone in the mempool

A block takes its transactions out of the mempool, and a transaction that stays
loses its parents in the block.  Its entry in a history changes when none is
left.  Nothing is asked of the block here: it may leave parents behind, and it
need not be one that is accepted.

**Results.**
* `coherent_of_reachable`: in every run the records agree on parents and children.
* `mem_affected_confirmedInBlock`: the reported script hashes are exactly those
  under which an entry changes.
* `history_confirmedInBlock`: the other histories stay the same.
* `standing_confirmedInBlock_eq_iff`: and the reported ones do not.
-/

namespace Shulcrum

open BTC TreeMap SortUnique

namespace Mempool

/-- The records agree on what touches a script hash and on what spends from what. -/
structure Coherent (mp : Mempool) : Prop where
  keyed : ∀ (h : TxHash) (tx : Tx), mp.txs[h]? = some tx → tx.hash = h
  mem_hashXTxs : ∀ (sh : HashX) (h : TxHash), h ∈ mp.hashXTxs[sh]?.getD [] ↔
    ∃ tx, mp.txs[h]? = some tx ∧ sh ∈ tx.hashXs
  ne_nil : ∀ sh : HashX, mp.hashXTxs[sh]? ≠ some []
  parents : ∀ (c : TxHash) (tx : Tx), mp.txs[c]? = some tx → ∀ p, p ∈ tx.parents ↔
    ∃ (sh : HashX) (txo : TXO), txo ∈ (tx.io sh).unconfirmedSpends ∧ txo.txHash = p
  stored : ∀ (c : TxHash) (tx : Tx), mp.txs[c]? = some tx → ∀ p ∈ tx.parents, p ∈ mp.txs
  children : ∀ (p : TxHash) (ptx : Tx), mp.txs[p]? = some ptx → ∀ c, c ∈ ptx.children ↔
    ∃ tx, mp.txs[c]? = some tx ∧ p ∈ tx.parents

section Runs

variable {H : Hashers} {rpa : Bool}

/-- In every run the records agree with each other. -/
theorem coherent_of_reachable {s : RunState}
    (h : Invariant.Reachable (RunState.Start rpa) (DspStep H) s) : Coherent s.mp := by
  have hinv := runInv_of_dspReachable h
  have hcontent : Content H rpa (Pool.ofList s.txs) s.db s.mp.noDsps := hinv.rep.toContent
  have hkeyed := Pool.keyed_ofList s.txs
  have hget : ∀ (g : TxHash) (tx : Tx), s.mp.txs[g]? = some tx →
      ∃ q, Pool.ofList s.txs g = some q ∧ TxRep H rpa (Pool.ofList s.txs) s.db q tx := by
    intro g tx htx
    have htx' : s.mp.noDsps.txs[g]? = some tx := htx
    obtain ⟨q, hq, -, hrep⟩ := hcontent.get_iff.mp htx'
    exact ⟨q, hq, hrep⟩
  refine ⟨?_, ?_, hcontent.ne_nil, ?_, ?_, ?_⟩
  · intro g tx htx
    obtain ⟨q, hq, hrep⟩ := hget g tx htx
    rw [hrep.hash, hkeyed g q hq]
  · intro sh g
    refine (hcontent.mem_hashXTxs sh g).trans ⟨?_, ?_⟩
    · rintro ⟨q, hq, htouch⟩
      obtain ⟨tx, htx, hrep⟩ := hcontent.present g q hq
      exact ⟨tx, htx, (hrep.mem_hashXs sh).mpr htouch⟩
    · rintro ⟨tx, htx, hsh⟩
      obtain ⟨q, hq, hrep⟩ := hget g tx htx
      exact ⟨q, hq, (hrep.mem_hashXs sh).mp hsh⟩
  · intro c tx htx p
    obtain ⟨q, hq, hrep⟩ := hget c tx htx
    exact hrep.mem_parents_iff hinv.resolved hq
  · intro c tx htx p hp
    obtain ⟨q, hq, hrep⟩ := hget c tx htx
    have hmem := hcontent.mem_txs.mpr ((hrep.parents p).mp hp).1
    exact hmem
  · intro p ptx hptx c
    obtain ⟨q, hq, hrep⟩ := hget p ptx hptx
    rw [hrep.children, hkeyed p q hq]
    constructor
    · rintro ⟨r, hr, hspends⟩
      obtain ⟨tx, htx, hrep'⟩ := hcontent.present c r hr
      exact ⟨tx, htx, (hrep'.parents p).mpr ⟨by simp [hq], hspends⟩⟩
    · rintro ⟨tx, htx, hp⟩
      obtain ⟨r, hr, hrep'⟩ := hget c tx htx
      exact ⟨r, hr, ((hrep'.parents p).mp hp).2⟩

end Runs

/-! ## The loop -/

section Loop

variable {txidMap : Std.ExtTreeMap TxHash Nat compare} {height : Nat}

/-- The block changes the entry of a transaction: it has the transaction, or all its parents. -/
def Moves (mp : Mempool) (txidMap : Std.ExtTreeMap TxHash Nat compare) (h : TxHash) : Prop :=
  h ∈ txidMap ∨
    ∃ tx, mp.txs[h]? = some tx ∧ tx.parents ≠ ∅ ∧ ∀ p ∈ tx.parents, p ∈ txidMap

/-- What the loop of `confirmedInBlock` leaves of a record that is not erased yet. -/
structure Remains (txidMap : Std.ExtTreeMap TxHash Nat compare) (done : List TxHash)
    (recategorized : HashSet) (g : TxHash) (tx tx' : Tx) : Prop where
  hash : tx'.hash = tx.hash
  fee : tx'.fee = tx.fee
  mem_hashXs : ∀ sh, sh ∈ tx'.hashXs ↔ sh ∈ tx.hashXs
  io : g ∉ recategorized → ∀ sh, tx'.io sh = tx.io sh
  parents : g ∉ txidMap → ∀ p, p ∈ tx'.parents ↔ p ∈ tx.parents ∧ p ∉ done
  children : ∀ c ∉ txidMap, c ∈ tx'.children ↔ c ∈ tx.children

/--
What holds in the loop of `confirmedInBlock`: the transactions of `done` are erased, and those
of `told` are reported.
-/
structure ConfirmFrame (mp₀ : Mempool) (txidMap : Std.ExtTreeMap TxHash Nat compare)
    (done told : List TxHash) (s : RmState) : Prop where
  mem : ∀ g, g ∈ s.mp.txs ↔ g ∈ mp₀.txs ∧ g ∉ done
  inBlock : ∀ t ∈ done, t ∈ txidMap
  remains : ∀ (g : TxHash) (tx' : Tx), s.mp.txs[g]? = some tx' →
    ∃ tx, mp₀.txs[g]? = some tx ∧ Remains txidMap done s.recategorized g tx tx'
  hashXTxs : s.mp.hashXTxs = mp₀.hashXTxs
  orphaned : ∀ g ∈ s.recategorized,
    ∃ tx, mp₀.txs[g]? = some tx ∧ ∃ p ∈ tx.parents, p ∈ txidMap
  handled : ∀ g ∉ txidMap, ∀ tx, mp₀.txs[g]? = some tx → ∀ p ∈ tx.parents, p ∈ done →
    g ∈ s.recategorized
  /-- A transaction that stays is reported if it has no parent that stays. -/
  affected : ∀ sh, sh ∈ s.scriptHashesAffected ↔ ∃ (g : TxHash) (tx : Tx),
    mp₀.txs[g]? = some tx ∧ sh ∈ tx.hashXs ∧
      (g ∈ told ∨ g ∈ s.recategorized ∧ ∀ p ∈ tx.parents, p ∈ txidMap)

variable {mp₀ : Mempool} {done told : List TxHash} {s : RmState}

theorem confirmFrame_start (mp : Mempool) (txidMap : Std.ExtTreeMap TxHash Nat compare) :
    ConfirmFrame mp txidMap [] [] { mp := mp } where
  mem g := by simp
  inBlock t ht := by cases ht
  remains g tx htx :=
    ⟨tx, htx, rfl, rfl, fun _ => Iff.rfl, fun _ _ => rfl, fun _ p => by simp, fun _ _ => Iff.rfl⟩
  hashXTxs := rfl
  orphaned g hg := by simp at hg
  handled g _ tx _ p _ hp := by cases hp
  affected sh := by simp

theorem mem_affected_recategorize {s : RmState} {c : TxHash} {tx : Tx}
    (htx : s.mp.txs[c]? = some tx) {sh : HashX} :
    sh ∈ (recategorizeSpendsForChild txidMap height s c).scriptHashesAffected ↔
      sh ∈ s.scriptHashesAffected ∨
        (recategorize txidMap height tx).nUnconfs = 0 ∧ sh ∈ tx.hashXs := by
  have heq : (recategorizeSpendsForChild txidMap height s c).scriptHashesAffected =
      if (recategorize txidMap height tx).nUnconfs = 0 then
        addHashXs (recategorize txidMap height tx) s.scriptHashesAffected
      else s.scriptHashesAffected := by
    unfold recategorizeSpendsForChild
    rw [htx]
    exact apply_ite RmState.scriptHashesAffected _ _ _
  rw [heq]
  split_ifs with hzero
  · rw [mem_addHashXs, mem_recategorize]
    simp [hzero]
  · simp [hzero]

/-- A transaction has no unconfirmed spends left iff all its parents are in the block. -/
theorem Coherent.nUnconfs_recategorize (hc : Coherent mp₀) {g : TxHash} {tx tx' : Tx}
    (htx : mp₀.txs[g]? = some tx) (hio : ∀ sh, tx'.io sh = tx.io sh) :
    (recategorize txidMap height tx').nUnconfs = 0 ↔ ∀ p ∈ tx.parents, p ∈ txidMap := by
  have hleft : ∀ (sh : HashX) (txo : TXO),
      txo ∈ ((recategorize txidMap height tx').io sh).unconfirmedSpends ↔
        txo ∈ (tx.io sh).unconfirmedSpends ∧ txo.txHash ∉ txidMap := by
    intro sh txo
    rw [io_recategorize, hio, mem_iff_getElem?, mem_iff_getElem?]
    simp only [get_recategorizeIo_unconf, exists_and_right, Std.ExtTreeMap.mem_keys]
  rw [nUnconfs_eq_zero_iff]
  simp only [hleft, not_and, not_not, hc.parents g tx htx]
  constructor
  · rintro hall p ⟨sh, txo, htxo, rfl⟩
    exact hall sh txo htxo
  · intro hall sh txo htxo
    exact hall txo.txHash ⟨sh, txo, htxo, rfl⟩

/-- One child of a transaction of the block. -/
theorem ConfirmFrame.confirmChild (hc : Coherent mp₀)
    (h : ConfirmFrame mp₀ txidMap done told s) {c : TxHash}
    (hchild : c ∉ txidMap → ∃ tx, mp₀.txs[c]? = some tx ∧ ∃ p ∈ tx.parents, p ∈ txidMap) :
    ConfirmFrame mp₀ txidMap done told (Mempool.confirmChild txidMap height s c) ∧
      (c ∉ txidMap → c ∈ (Mempool.confirmChild txidMap height s c).recategorized) ∧
      ∀ g ∈ s.recategorized, g ∈ (Mempool.confirmChild txidMap height s c).recategorized := by
  unfold Mempool.confirmChild
  by_cases hskip : c ∈ txidMap ∨ c ∈ s.recategorized
  · rw [if_pos hskip]
    exact ⟨h, fun hstay => hskip.resolve_left hstay, fun _ hg => hg⟩
  rw [if_neg hskip]
  obtain ⟨hstay, hfirst⟩ := not_or.mp hskip
  obtain ⟨tx, htx, hparent⟩ := hchild hstay
  have hthere : c ∈ s.mp.txs :=
    (h.mem c).mpr ⟨mem_iff_getElem?.mpr ⟨tx, htx⟩, fun hd => hstay (h.inBlock c hd)⟩
  obtain ⟨y, hy⟩ := mem_iff_getElem?.mp hthere
  obtain ⟨tx₀, htx₀, hrem⟩ := h.remains c y hy
  obtain rfl : tx = tx₀ := by
    rw [htx, Option.some.injEq] at htx₀
    exact htx₀
  have hs' : Recategorized txidMap height c y
      { s with recategorized := s.recategorized.insert c } _ := recategorized_of_get hy
  have hset : ∀ g, g ∈ s.recategorized.insert c ↔ g = c ∨ g ∈ s.recategorized :=
    fun g => mem_set_insert
  refine ⟨⟨?_, h.inBlock, ?_, ?_, ?_, ?_, ?_⟩, ?_, ?_⟩
  · intro g
    rw [mem_recategorizeSpendsForChild]
    exact h.mem g
  · intro g z hz
    rw [hs'.mp, get_insert] at hz
    rw [hs'.recategorized]
    split_ifs at hz with hgc
    · subst hgc
      cases hz
      refine ⟨tx, htx, hrem.hash, hrem.fee, ?_, ?_, hrem.parents, hrem.children⟩
      · exact fun sh => mem_recategorize.trans (hrem.mem_hashXs sh)
      · exact fun hnot => absurd ((hset c).mpr (.inl rfl)) hnot
    · obtain ⟨x, hx, hxz⟩ := h.remains g z hz
      refine ⟨x, hx, hxz.hash, hxz.fee, hxz.mem_hashXs, ?_, hxz.parents, hxz.children⟩
      exact fun hnot => hxz.io fun hg => hnot ((hset g).mpr (.inr hg))
  · rw [hs'.mp]
    exact h.hashXTxs
  · intro g hg
    rw [hs'.recategorized, hset] at hg
    rcases hg with rfl | hg
    · exact ⟨tx, htx, hparent⟩
    · exact h.orphaned g hg
  · intro g hg x hx p hp hdone
    rw [hs'.recategorized, hset]
    exact .inr (h.handled g hg x hx p hp hdone)
  · intro sh
    rw [mem_affected_recategorize (s := { s with recategorized := s.recategorized.insert c }) hy,
      hs'.recategorized, hc.nUnconfs_recategorize htx (hrem.io hfirst), hrem.mem_hashXs]
    simp only [hset, h.affected]
    constructor
    · rintro (⟨g, x, hx, hsh, htold | ⟨hg, hall⟩⟩ | ⟨hall, hsh⟩)
      · exact ⟨g, x, hx, hsh, .inl htold⟩
      · exact ⟨g, x, hx, hsh, .inr ⟨.inr hg, hall⟩⟩
      · exact ⟨c, tx, htx, hsh, .inr ⟨.inl rfl, hall⟩⟩
    · rintro ⟨g, x, hx, hsh, htold | ⟨rfl | hg, hall⟩⟩
      · exact .inl ⟨g, x, hx, hsh, .inl htold⟩
      · rw [htx, Option.some.injEq] at hx
        subst hx
        exact .inr ⟨hall, hsh⟩
      · exact .inl ⟨g, x, hx, hsh, .inr ⟨hg, hall⟩⟩
  · intro _
    rw [hs'.recategorized, hset]
    exact .inl rfl
  · intro g hg
    rw [hs'.recategorized, hset]
    exact .inr hg

/-- All children of a transaction of the block. -/
theorem ConfirmFrame.foldl_confirmChild (hc : Coherent mp₀)
    (h : ConfirmFrame mp₀ txidMap done told s) (height : Nat) (cs : List TxHash)
    (hchildren : ∀ c ∈ cs, c ∉ txidMap →
      ∃ tx, mp₀.txs[c]? = some tx ∧ ∃ p ∈ tx.parents, p ∈ txidMap) :
    ConfirmFrame mp₀ txidMap done told (cs.foldl (Mempool.confirmChild txidMap height) s) ∧
      (∀ c ∈ cs, c ∉ txidMap →
        c ∈ (cs.foldl (Mempool.confirmChild txidMap height) s).recategorized) ∧
      ∀ g ∈ s.recategorized,
        g ∈ (cs.foldl (Mempool.confirmChild txidMap height) s).recategorized := by
  induction cs generalizing s with
  | nil => exact ⟨h, by simp, fun _ hg => hg⟩
  | cons c cs ih =>
      obtain ⟨hframe, hself, hmono⟩ := h.confirmChild hc (hchildren c List.mem_cons_self)
      obtain ⟨hframe', hself', hmono'⟩ :=
        ih hframe fun c' hc' => hchildren c' (List.mem_cons_of_mem _ hc')
      refine ⟨hframe', fun c' hc' hstay => ?_, fun g hg => hmono' g (hmono g hg)⟩
      rcases List.mem_cons.mp hc' with rfl | hc'
      · exact hmono' c' (hself hstay)
      · exact hself' c' hc' hstay

/-- A transaction of the block is unlinked from another record. -/
theorem Remains.unlinkOn {recategorized : HashSet} {g t : TxHash} {ttx x y : Tx}
    (h : Remains txidMap done recategorized g x y) (ht : t ∈ txidMap) (hhash : ttx.hash = t)
    (hlink : g ∉ txidMap → (g ∈ ttx.children ↔ t ∈ x.parents)) :
    Remains txidMap (done ++ [t]) recategorized g x (unlinkOn ttx g y) := by
  refine ⟨h.hash, h.fee, h.mem_hashXs, h.io, ?_, ?_⟩
  · intro hstay p
    rw [List.mem_append, List.mem_singleton, not_or, ← and_assoc, ← h.parents hstay]
    simp only [Mempool.unlinkOn, hhash]
    split_ifs with hchild
    · rw [mem_set_erase, and_comm]
    · refine ⟨fun hp => ⟨hp, ?_⟩, fun hp => hp.1⟩
      rintro rfl
      exact hchild ((hlink hstay).mpr ((h.parents hstay p).mp hp).1)
  · intro c hstay
    have hne : c ≠ t := fun he => hstay (he ▸ ht)
    rw [← h.children c hstay]
    simp only [Mempool.unlinkOn, hhash]
    split_ifs
    · exact mem_set_erase.trans (and_iff_right hne)
    · rfl

/-- A transaction of the block is erased after its children are handled. -/
theorem ConfirmFrame.eraseTx (hc : Coherent mp₀) (h : ConfirmFrame mp₀ txidMap done told s)
    {t : TxHash} (ht : t ∈ txidMap) {tx₀ tx : Tx} (htx₀ : mp₀.txs[t]? = some tx₀)
    (hhash : tx.hash = t) (hchildren : ∀ c ∉ txidMap, c ∈ tx.children ↔ c ∈ tx₀.children)
    (hrecat : ∀ c ∈ tx.children, c ∉ txidMap → c ∈ s.recategorized) :
    ConfirmFrame mp₀ txidMap (done ++ [t]) told (eraseTx s t tx) := by
  have hlink : ∀ (g : TxHash) (x : Tx), mp₀.txs[g]? = some x → g ∉ txidMap →
      (g ∈ tx.children ↔ t ∈ x.parents) := by
    intro g x hx hstay
    rw [hchildren g hstay, hc.children t tx₀ htx₀]
    constructor
    · rintro ⟨x', hx', hp⟩
      rw [hx, Option.some.injEq] at hx'
      exact hx' ▸ hp
    · exact fun hp => ⟨x, hx, hp⟩
  refine ⟨?_, ?_, ?_, h.hashXTxs, h.orphaned, ?_, h.affected⟩
  · intro g
    rw [mem_eraseTx, h.mem, List.mem_append, List.mem_singleton, not_or, and_assoc]
  · intro g hg
    rcases List.mem_append.mp hg with hg | hg
    · exact h.inBlock g hg
    · rwa [List.mem_singleton.mp hg]
  · intro g z hz
    simp only [Mempool.eraseTx, get_erase, get_unlink] at hz
    split_ifs at hz
    obtain ⟨y, hy, rfl⟩ := Option.map_eq_some_iff.mp hz
    obtain ⟨x, hx, hxy⟩ := h.remains g y hy
    exact ⟨x, hx, hxy.unlinkOn ht hhash (hlink g x hx)⟩
  · intro g hstay x hx p hp hdone
    rcases List.mem_append.mp hdone with hdone | hdone
    · exact h.handled g hstay x hx p hp hdone
    · rw [List.mem_singleton] at hdone
      subst hdone
      exact hrecat g ((hlink g x hx hstay).mpr hp) hstay

/-- One round of the loop of `confirmedInBlock`. -/
theorem ConfirmFrame.step (hc : Coherent mp₀) (h : ConfirmFrame mp₀ txidMap done done s)
    {t : TxHash} (ht : t ∈ txidMap) :
    ConfirmFrame mp₀ txidMap (done ++ [t]) (done ++ [t]) (confirmTx txidMap height s t) := by
  cases htx : s.mp.txs[t]? with
  | none =>
      have hskip : confirmTx txidMap height s t = s := by
        unfold confirmTx
        rw [htx]
      have hdone : ∀ g ∈ mp₀.txs, g ∈ done ++ [t] ↔ g ∈ done := by
        intro g hg
        rw [List.mem_append, List.mem_singleton]
        refine or_iff_left_of_imp ?_
        rintro rfl
        by_contra hn
        exact not_mem_iff_getElem?.mpr htx ((h.mem g).mpr ⟨hg, hn⟩)
      rw [hskip]
      refine ⟨?_, ?_, ?_, h.hashXTxs, h.orphaned, ?_, ?_⟩
      · intro g
        rw [h.mem]
        exact and_congr_right fun hg => not_congr (hdone g hg).symm
      · intro g hg
        rcases List.mem_append.mp hg with hg | hg
        · exact h.inBlock g hg
        · rwa [List.mem_singleton.mp hg]
      · intro g y hy
        obtain ⟨x, hx, hxy⟩ := h.remains g y hy
        refine ⟨x, hx, hxy.hash, hxy.fee, hxy.mem_hashXs, hxy.io, ?_, hxy.children⟩
        intro hstay p
        rw [hxy.parents hstay]
        exact and_congr_right fun hp => not_congr (hdone p (hc.stored g x hx p hp)).symm
      · intro g hstay x hx p hp hpdone
        exact h.handled g hstay x hx p hp ((hdone p (hc.stored g x hx p hp)).mp hpdone)
      · intro sh
        rw [h.affected]
        refine exists_congr fun g => exists_congr fun x => and_congr_right fun hx => ?_
        rw [hdone g (mem_iff_getElem?.mpr ⟨x, hx⟩)]
  | some tx =>
      obtain ⟨tx₀, htx₀, hrem⟩ := h.remains t tx htx
      have hhash : tx.hash = t := hrem.hash.trans (hc.keyed t tx₀ htx₀)
      obtain ⟨s₁, hs₁, heq⟩ : ∃ s₁ : RmState,
          ConfirmFrame mp₀ txidMap done (done ++ [t]) s₁ ∧
            confirmTx txidMap height s t = Mempool.eraseTx
              (tx.children.toList.foldl (Mempool.confirmChild txidMap height) s₁) t tx := by
        refine ⟨{ s with
          scriptHashesAffected := addHashXs tx s.scriptHashesAffected
          dspTxids := if (s.mp.dsps.dspHashesForTx t).isSome then s.dspTxids.insert t
            else s.dspTxids }, ?_, ?_⟩
        · refine ⟨h.mem, h.inBlock, h.remains, h.hashXTxs, h.orphaned, h.handled, fun sh => ?_⟩
          simp only [mem_addHashXs, h.affected, hrem.mem_hashXs, List.mem_append,
            List.mem_singleton]
          constructor
          · rintro (⟨g, x, hx, hsh, hg | hg⟩ | hsh)
            · exact ⟨g, x, hx, hsh, .inl (.inl hg)⟩
            · exact ⟨g, x, hx, hsh, .inr hg⟩
            · exact ⟨t, tx₀, htx₀, hsh, .inl (.inr rfl)⟩
          · rintro ⟨g, x, hx, hsh, (hg | rfl) | hg⟩
            · exact .inl ⟨g, x, hx, hsh, .inl hg⟩
            · rw [htx₀, Option.some.injEq] at hx
              subst hx
              exact .inr hsh
            · exact .inl ⟨g, x, hx, hsh, .inr hg⟩
        · unfold confirmTx
          rw [htx]
      have hchildren : ∀ c ∈ tx.children.toList, c ∉ txidMap →
          ∃ x, mp₀.txs[c]? = some x ∧ ∃ p ∈ x.parents, p ∈ txidMap := by
        intro c hmem hstay
        rw [Std.ExtTreeSet.mem_toList, hrem.children c hstay, hc.children t tx₀ htx₀] at hmem
        obtain ⟨x, hx, hp⟩ := hmem
        exact ⟨x, hx, t, hp, ht⟩
      obtain ⟨hframe, hself, -⟩ := hs₁.foldl_confirmChild hc height tx.children.toList hchildren
      rw [heq]
      exact hframe.eraseTx hc ht htx₀ hhash hrem.children fun c hmem hstay =>
        hself c (Std.ExtTreeSet.mem_toList.mpr hmem) hstay

/-- The whole loop of `confirmedInBlock`. -/
theorem ConfirmFrame.foldl (hc : Coherent mp₀) (h : ConfirmFrame mp₀ txidMap done done s)
    (height : Nat) (rest : List TxHash) (hrest : ∀ t ∈ rest, t ∈ txidMap) :
    ConfirmFrame mp₀ txidMap (done ++ rest) (done ++ rest)
      (rest.foldl (confirmTx txidMap height) s) := by
  induction rest generalizing done s with
  | nil =>
      rw [List.append_nil]
      exact h
  | cons t rest ih =>
      have hstep : ConfirmFrame mp₀ txidMap (done ++ [t]) (done ++ [t])
          (confirmTx txidMap height s t) := h.step hc (hrest t List.mem_cons_self)
      have hnext := ih hstep fun t' ht' => hrest t' (List.mem_cons_of_mem _ ht')
      rw [List.append_assoc] at hnext
      exact hnext

end Loop

/-! ## The whole operation -/

/-- The height of an entry in a history. -/
def entryHeight (mp : Mempool) (h : TxHash) : Int :=
  if mp.txs[h]?.any Tx.hasUnconfirmedParents then -1 else 0

/-- What the status of a script hash is made of: the ids and heights of a history. -/
def standing (mp : Mempool) (sh : HashX) : List (TxHash × Int) :=
  (mp.history sh).map fun item => (item.hash, item.height)

theorem standing_eq {mp : Mempool} {sh : HashX}
    (hstored : ∀ h ∈ mp.hashXTxs[sh]?.getD [], ∃ tx, mp.txs[h]? = some tx ∧ tx.hash = h) :
    mp.standing sh = (mp.hashXTxs[sh]?.getD []).map fun h => (h, mp.entryHeight h) := by
  rw [standing, history, List.map_filterMap, ← List.filterMap_eq_map]
  refine List.filterMap_congr fun h hh => ?_
  obtain ⟨tx, htx, hhash⟩ := hstored h hh
  simp [entryHeight, htx, hhash]

theorem length_history {mp : Mempool} {sh : HashX}
    (hstored : ∀ h ∈ mp.hashXTxs[sh]?.getD [], ∃ tx, mp.txs[h]? = some tx ∧ tx.hash = h) :
    (mp.history sh).length = (mp.hashXTxs[sh]?.getD []).length := by
  have hlen := congrArg List.length (standing_eq hstored)
  rwa [standing, List.length_map, List.length_map] at hlen

theorem Coherent.stored_of_listed {mp : Mempool} (hc : Coherent mp) {sh : HashX} {h : TxHash}
    (hh : h ∈ mp.hashXTxs[sh]?.getD []) : ∃ tx, mp.txs[h]? = some tx ∧ tx.hash = h := by
  obtain ⟨tx, htx, -⟩ := (hc.mem_hashXTxs sh h).mp hh
  exact ⟨tx, htx, hc.keyed h tx htx⟩

theorem Indexed.length_history {mp : Mempool} (h : Indexed mp) (sh : HashX) :
    (mp.history sh).length = (mp.hashXTxs[sh]?.getD []).length := by
  refine Mempool.length_history fun g hg => ?_
  obtain ⟨tx, htx, -⟩ := h.listed sh g hg
  exact ⟨tx, htx, h.keyed g tx htx⟩

section Result

variable {mp : Mempool} {txidMap : Std.ExtTreeMap TxHash Nat compare} {height : Nat}
  {affectedOut : HashSet} {sh : HashX}

theorem Coherent.confirmFrame (hc : Coherent mp)
    (txidMap : Std.ExtTreeMap TxHash Nat compare) (height : Nat) :
    ConfirmFrame mp txidMap txidMap.keys txidMap.keys
      (txidMap.keys.foldl (confirmTx txidMap height) { mp := mp }) := by
  have hloop := (confirmFrame_start mp txidMap).foldl hc height txidMap.keys fun t ht =>
    Std.ExtTreeMap.mem_keys.mp ht
  rwa [List.nil_append] at hloop

/-- The reported script hashes are those under which the entry of a transaction changes. -/
theorem mem_affected_confirmedInBlock (hc : Coherent mp) :
    sh ∈ (confirmedInBlock txidMap height mp affectedOut).2.1 ↔
      sh ∈ affectedOut ∨ ∃ h ∈ mp.hashXTxs[sh]?.getD [], Moves mp txidMap h := by
  have hframe := hc.confirmFrame txidMap height
  refine Std.ExtTreeSet.mem_union_iff.trans (or_congr_right ((hframe.affected sh).trans ?_))
  constructor
  · rintro ⟨h, tx, htx, hsh, hor⟩
    refine ⟨h, (hc.mem_hashXTxs sh h).mpr ⟨tx, htx, hsh⟩, ?_⟩
    rcases hor with hin | ⟨hrecat, hall⟩
    · exact .inl (Std.ExtTreeMap.mem_keys.mp hin)
    · obtain ⟨x, hx, p, hp, -⟩ := hframe.orphaned h hrecat
      rw [htx, Option.some.injEq] at hx
      subst hx
      exact .inr ⟨tx, htx, set_ne_empty_iff.mpr ⟨p, hp⟩, hall⟩
  · rintro ⟨h, hh, hmoves⟩
    obtain ⟨tx, htx, hsh⟩ := (hc.mem_hashXTxs sh h).mp hh
    refine ⟨h, tx, htx, hsh, ?_⟩
    by_cases hin : h ∈ txidMap
    · exact .inl (Std.ExtTreeMap.mem_keys.mpr hin)
    · obtain ⟨x, hx, hne, hall⟩ := hmoves.resolve_left hin
      rw [htx, Option.some.injEq] at hx
      subst hx
      obtain ⟨p, hp⟩ := set_ne_empty_iff.mp hne
      exact .inr ⟨hframe.handled h hin tx htx p hp (Std.ExtTreeMap.mem_keys.mpr (hall p hp)), hall⟩

/-- The record of a transaction that stays. -/
theorem record_confirmedInBlock (hc : Coherent mp) {h : TxHash} {tx : Tx}
    (htx : mp.txs[h]? = some tx) (hstay : h ∉ txidMap) (height : Nat) (affectedOut : HashSet) :
    ∃ tx', (confirmedInBlock txidMap height mp affectedOut).1.txs[h]? = some tx' ∧
      tx'.hash = tx.hash ∧ tx'.fee = tx.fee ∧
        (tx'.hasUnconfirmedParents = true ↔ ∃ p ∈ tx.parents, p ∉ txidMap) := by
  have hframe := hc.confirmFrame txidMap height
  have hthere : h ∈ (confirmedInBlock txidMap height mp affectedOut).1.txs :=
    mem_confirmedInBlock.mpr ⟨mem_iff_getElem?.mpr ⟨tx, htx⟩, hstay⟩
  obtain ⟨tx', htx'⟩ := mem_iff_getElem?.mp hthere
  obtain ⟨x, hx, hrem⟩ := hframe.remains h tx' htx'
  rw [htx, Option.some.injEq] at hx
  subst hx
  refine ⟨tx', htx', hrem.hash, hrem.fee, ?_⟩
  rw [hasUnconfirmedParents_iff]
  simp only [hrem.parents hstay, Std.ExtTreeMap.mem_keys]

/-- The vector of a script hash has what is left of it, perhaps in another order. -/
theorem perm_confirmedInBlock (hc : Coherent mp) :
    ((confirmedInBlock txidMap height mp affectedOut).1.hashXTxs[sh]?.getD []).Perm
      ((mp.hashXTxs[sh]?.getD []).filter fun h => h ∉ txidMap) := by
  have hframe := hc.confirmFrame txidMap height
  have hget : (confirmedInBlock txidMap height mp affectedOut).1.hashXTxs[sh]? = _ :=
    get_rmTxsInHashXTxs (by rw [hframe.hashXTxs]; exact hc.ne_nil sh) fun h hh hin => by
      rw [hframe.hashXTxs] at hh
      obtain ⟨tx, htx, hsh⟩ := (hc.mem_hashXTxs sh h).mp hh
      rw [hframe.affected]
      exact ⟨h, tx, htx, hsh, .inl (Std.ExtTreeMap.mem_keys.mpr (of_decide_eq_true hin))⟩
  rw [hget, hframe.hashXTxs]
  cases mp.hashXTxs[sh]? with
  | none => exact List.Perm.nil
  | some v =>
      have hfilter : (v.filter fun h => !decide (h ∈ txidMap)) =
          v.filter fun h => decide (h ∉ txidMap) :=
        List.filter_congr fun h _ => (decide_not).symm
      simp only [Option.bind_some, Option.getD_some, hfilter]
      split_ifs with hnil hsort
      · rw [hnil]
        exact List.Perm.nil
      · exact List.perm_insertionSort _ _
      · exact List.Perm.refl _

/-- Where no entry changes the vector is the same. -/
theorem get_hashXTxs_confirmedInBlock (hc : Coherent mp)
    (hstill : ∀ h ∈ mp.hashXTxs[sh]?.getD [], ¬ Moves mp txidMap h) :
    (confirmedInBlock txidMap height mp affectedOut).1.hashXTxs[sh]? = mp.hashXTxs[sh]? := by
  have hframe := hc.confirmFrame txidMap height
  have hnot : sh ∉ (txidMap.keys.foldl (confirmTx txidMap height)
      { mp := mp }).scriptHashesAffected := by
    intro hin
    have haff : sh ∈ (confirmedInBlock txidMap height mp ∅).2.1 :=
      Std.ExtTreeSet.mem_union_iff.mpr (.inr hin)
    obtain ⟨h, hh, hmoves⟩ :=
      ((mem_affected_confirmedInBlock hc).mp haff).resolve_left (by simp)
    exact hstill h hh hmoves
  simp only [confirmedInBlock, rmTxsInHashXTxs]
  rw [Std.ExtTreeMap.getElem?_filterMap', hframe.hashXTxs]
  simp only [hnot, if_false]
  exact Option.bind_fun_some _

/-- Where no entry changes the history is the same. -/
theorem history_confirmedInBlock (hc : Coherent mp)
    (hstill : ∀ h ∈ mp.hashXTxs[sh]?.getD [], ¬ Moves mp txidMap h) :
    (confirmedInBlock txidMap height mp affectedOut).1.history sh = mp.history sh := by
  refine history_congr (get_hashXTxs_confirmedInBlock hc hstill) fun h hh => ?_
  obtain ⟨tx, htx, -⟩ := (hc.mem_hashXTxs sh h).mp hh
  obtain ⟨hstay, hleft⟩ := not_or.mp (hstill h hh)
  obtain ⟨tx', htx', hhash, hfee, hflag⟩ := record_confirmedInBlock hc htx hstay height affectedOut
  refine ⟨tx, tx', htx, htx', hhash, hfee, ?_⟩
  rw [Bool.eq_iff_iff, hflag, hasUnconfirmedParents_iff]
  constructor
  · rintro ⟨p, hp, -⟩
    exact ⟨p, hp⟩
  · rintro ⟨p, hp⟩
    by_contra hnone
    refine hleft ⟨tx, htx, set_ne_empty_iff.mpr ⟨p, hp⟩, fun p' hp' => ?_⟩
    by_contra hout
    exact hnone ⟨p', hp', hout⟩

theorem stored_confirmedInBlock (hc : Coherent mp) {h : TxHash}
    (hh : h ∈ (confirmedInBlock txidMap height mp affectedOut).1.hashXTxs[sh]?.getD []) :
    ∃ tx, (confirmedInBlock txidMap height mp affectedOut).1.txs[h]? = some tx ∧
      tx.hash = h := by
  obtain ⟨hlist, hstay⟩ := List.mem_filter.mp ((perm_confirmedInBlock hc).mem_iff.mp hh)
  obtain ⟨tx, htx, hhash⟩ := hc.stored_of_listed hlist
  obtain ⟨tx', htx', hhash', -⟩ := record_confirmedInBlock hc htx (of_decide_eq_true hstay)
    height affectedOut
  exact ⟨tx', htx', hhash'.trans hhash⟩

/-- Where an entry changes the history changes. -/
theorem standing_confirmedInBlock_ne (hc : Coherent mp)
    (hmoves : ∃ h ∈ mp.hashXTxs[sh]?.getD [], Moves mp txidMap h) :
    (confirmedInBlock txidMap height mp affectedOut).1.standing sh ≠ mp.standing sh := by
  intro heq
  obtain ⟨h, hh, hmoves⟩ := hmoves
  rw [standing_eq fun _ => stored_confirmedInBlock hc, standing_eq fun _ => hc.stored_of_listed]
    at heq
  -- the vectors have the same transactions, so none of them is in the block
  have hvec := congrArg (List.map Prod.fst) heq
  simp only [List.map_map, Function.comp_def, List.map_id'] at hvec
  rw [hvec, List.map_inj_left] at heq
  have hstay : h ∉ txidMap := by
    have hperm : ((confirmedInBlock txidMap height mp affectedOut).1.hashXTxs[sh]?.getD []).Perm
        ((mp.hashXTxs[sh]?.getD []).filter fun h => h ∉ txidMap) := perm_confirmedInBlock hc
    rw [hvec] at hperm
    exact of_decide_eq_true (List.mem_filter.mp (hperm.mem_iff.mp hh)).2
  obtain ⟨tx, htx, hne, hall⟩ := hmoves.resolve_left hstay
  obtain ⟨tx', htx', -, -, hflag⟩ := record_confirmedInBlock hc htx hstay height affectedOut
  have hbefore : tx.hasUnconfirmedParents = true :=
    hasUnconfirmedParents_iff.mpr (set_ne_empty_iff.mp hne)
  have hafter : tx'.hasUnconfirmedParents = false := by
    rw [Bool.eq_false_iff, ne_eq, hflag]
    rintro ⟨p, hp, hout⟩
    exact hout (hall p hp)
  have hheight := congrArg Prod.snd (heq h hh)
  simp [entryHeight, htx, htx', hbefore, hafter] at hheight

/-- The status of a script hash is the same iff no entry changes. -/
theorem standing_confirmedInBlock_eq_iff (hc : Coherent mp) :
    (confirmedInBlock txidMap height mp affectedOut).1.standing sh = mp.standing sh ↔
      ∀ h ∈ mp.hashXTxs[sh]?.getD [], ¬ Moves mp txidMap h := by
  constructor
  · intro heq h hh hmoves
    exact standing_confirmedInBlock_ne hc ⟨h, hh, hmoves⟩ heq
  · intro hstill
    rw [standing, standing, history_confirmedInBlock hc hstill]

theorem length_standing_confirmedInBlock (hc : Coherent mp) :
    ((confirmedInBlock txidMap height mp affectedOut).1.standing sh).length =
      ((mp.hashXTxs[sh]?.getD []).filter fun h => h ∉ txidMap).length := by
  rw [standing_eq fun _ => stored_confirmedInBlock hc, List.length_map]
  exact (perm_confirmedInBlock hc).length_eq

end Result

end Mempool
end Shulcrum
