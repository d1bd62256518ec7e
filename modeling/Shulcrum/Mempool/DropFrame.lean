import Shulcrum.Mempool.Indexed

/-!
# What dropping transactions leaves alone

`dropTxs` removes the given transactions and all that spend from them.  A
transaction that stays keeps its parents, because a child of a dropped
transaction is dropped too; so the histories of the script hashes that are not
reported stay the same.

**Results.**
* `dropTxs_covers`: every change is covered, and the mempool stays indexed.
* `mem_txs_dropTxs`: exactly the reported transactions are gone.
-/

namespace Shulcrum

open BTC TreeMap DSPs

namespace DSPs

variable {d : DSPs}

/-- A transaction that shares no proof with a removed one keeps its links. -/
theorem lists_rmTx_of_not_shared (hd : Linked d) {t u : TxHash}
    (hnot : ∀ h, Lists d.txDspsMap t h → ¬ Lists d.txDspsMap u h) (h : Hash) :
    Lists (d.rmTx u).2.txDspsMap t h ↔ Lists d.txDspsMap t h := by
  rw [(linked_rmTx hd).1.lists_iff, hd.lists_iff]
  unfold Affects
  simp only [get_dsproofs_rmTx hd, Option.bind_eq_some_iff]
  constructor
  · rintro ⟨p', ⟨p, hp, hdetach⟩, ht⟩
    unfold detach at hdetach
    split_ifs at hdetach
    cases hdetach
    have ht' : t ∈ p.descendants.erase u := ht
    exact ⟨p, hp, (mem_set_erase.mp ht').2⟩
  · rintro ⟨p, hp, ht⟩
    have hlist : Lists d.txDspsMap t h := (hd.lists_iff t h).mpr ⟨p, hp, ht⟩
    have hu : u ∉ p.descendants := fun hu =>
      hnot h hlist ((hd.lists_iff u h).mpr ⟨p, hp, hu⟩)
    exact ⟨p, ⟨p, hp, detach_of_not_mem (hd.filed h p hp).2 hu⟩, ht⟩

theorem lists_of_rmTx (hd : Linked d) {t u : TxHash} {h : Hash}
    (hl : Lists (d.rmTx u).2.txDspsMap t h) : Lists d.txDspsMap t h := by
  rw [(linked_rmTx hd).1.lists_iff] at hl
  obtain ⟨p', hp', ht⟩ := hl
  obtain ⟨p, hp, -, -, hdesc⟩ := (removes_rmTx hd u).get h p' hp'
  exact (hd.lists_iff t h).mpr ⟨p, hp, ((hdesc t).mp ht).1⟩

theorem lists_foldl_rmTx_of_not_shared (hd : Linked d) {t : TxHash} {us : List TxHash}
    (hnot : ∀ u ∈ us, ∀ h, Lists d.txDspsMap t h → ¬ Lists d.txDspsMap u h) (h : Hash) :
    Lists (us.foldl (fun d u => (d.rmTx u).2) d).txDspsMap t h ↔ Lists d.txDspsMap t h := by
  induction us generalizing d with
  | nil => exact Iff.rfl
  | cons u us ih =>
      rw [List.foldl_cons, ih (linked_rmTx hd).1]
      · exact lists_rmTx_of_not_shared hd (hnot u List.mem_cons_self) h
      · intro v hv k hl hl'
        exact hnot v (List.mem_cons_of_mem _ hv) k (lists_of_rmTx hd hl) (lists_of_rmTx hd hl')

end DSPs

namespace Mempool

/-- The transactions `dropTxs` reports for the proofs it removes or shortens. -/
def dropReported (dsps : DSPs) (gone : List TxHash) : HashSet :=
  let txids2rm := gone.filter fun h => (dsps.dspHashesForTx h).isSome
  if ¬ dsps.isEmpty ∧ txids2rm ≠ [] then dsps.txsLinkedToTxs (txids2rm.foldl (·.insert ·) ∅)
  else ∅

/-- A transaction that is not reported keeps its proofs. -/
theorem lists_dropDsps {d : DSPs} (hd : Linked d) {gone : List TxHash} {t : TxHash}
    (ht : t ∉ dropReported d gone) (h : Hash) :
    DSPs.Lists (dropDsps d gone).txDspsMap t h ↔ DSPs.Lists d.txDspsMap t h := by
  unfold dropDsps
  unfold dropReported at ht
  dsimp only at ht ⊢
  split_ifs at ht ⊢
  · rw [rmDspTxs_eq_foldl hd]
    refine lists_foldl_rmTx_of_not_shared hd ?_ h
    intro u hu k hl hl'
    refine ht (mem_txsLinkedToTxs.mpr ⟨u, mem_foldl_insert.mpr (.inr hu), k, hl', ?_⟩)
    exact (hd.lists_iff t k).mp hl
  · exact Iff.rfl

/-- What the loop leaves of a record that is not erased yet. -/
structure Shrunk (gone : List TxHash) (g : TxHash) (tx tx' : Tx) : Prop where
  hash : tx'.hash = tx.hash
  fee : tx'.fee = tx.fee
  mem_hashXs : ∀ sh, sh ∈ tx'.hashXs ↔ sh ∈ tx.hashXs
  children_sub : ∀ c ∈ tx'.children, c ∈ tx.children
  children : ∀ c ∈ tx.children, c ∉ gone → c ∈ tx'.children
  parents : g ∉ gone → tx'.parents = tx.parents

/-- The list is closed under children. -/
def ClosedUnderChildren (txs : TxMap) (gone : List TxHash) : Prop :=
  ∀ p ∈ gone, ∀ tx, txs[p]? = some tx → ∀ c ∈ tx.children, c ∈ gone

/-- What holds between two rounds of the loop of `dropTxs`. -/
structure DropFrame (mp₀ : Mempool) (gone done : List TxHash) (s : RmState) : Prop where
  mem : ∀ g, g ∈ s.mp.txs ↔ g ∈ mp₀.txs ∧ g ∉ done
  shrunk : ∀ (g : TxHash) (tx' : Tx), s.mp.txs[g]? = some tx' →
    ∃ tx, mp₀.txs[g]? = some tx ∧ Shrunk gone g tx tx'
  hashXTxs : s.mp.hashXTxs = mp₀.hashXTxs
  dsps : s.mp.dsps = mp₀.dsps
  affected : ∀ g ∈ done, ∀ tx, mp₀.txs[g]? = some tx → ∀ sh ∈ tx.hashXs,
    sh ∈ s.scriptHashesAffected

variable {mp₀ : Mempool} {gone done : List TxHash} {s : RmState}

theorem dropFrame_start (mp : Mempool) (gone : List TxHash) :
    DropFrame mp gone [] { mp := mp } where
  mem g := by simp
  shrunk g tx htx :=
    ⟨tx, htx, rfl, rfl, fun _ => Iff.rfl, fun _ h => h, fun _ h _ => h, fun _ => rfl⟩
  hashXTxs := rfl
  dsps := rfl
  affected g hg := by cases hg

/-- The record of a dropped transaction is unlinked from another record. -/
theorem Shrunk.unlinkOn {g t : TxHash} {tx x y : Tx} (h : Shrunk gone g x y) (ht : t ∈ gone)
    (hhash : tx.hash = t) (hchildren : ∀ c ∈ tx.children, c ∈ gone) :
    Shrunk gone g x (unlinkOn tx g y) := by
  have herase : ∀ {set : HashSet} {c : TxHash}, c ∈ set.erase tx.hash ↔ c ≠ tx.hash ∧ c ∈ set :=
    mem_set_erase
  refine ⟨h.hash, h.fee, h.mem_hashXs, ?_, ?_, ?_⟩
  · intro c hc
    simp only [Mempool.unlinkOn] at hc
    split_ifs at hc
    · exact h.children_sub c (herase.mp hc).2
    · exact h.children_sub c hc
  · intro c hc hgone
    have hc' := h.children c hc hgone
    simp only [Mempool.unlinkOn]
    split_ifs
    · refine herase.mpr ⟨?_, hc'⟩
      rintro rfl
      exact hgone (hhash ▸ ht)
    · exact hc'
  · intro hg
    have hnot : g ∉ tx.children := fun hc => hg (hchildren g hc)
    simp only [Mempool.unlinkOn, hnot, if_false]
    exact h.parents hg

/-- A credited record is the same to the loop. -/
theorem Shrunk.credited {g : TxHash} {L : List (HashX × TXO)} {x y z : Tx}
    (h : Shrunk gone g x y) (hcred : Credited g L y z) : Shrunk gone g x z := by
  have hrest := hcred.rest
  have hhash : z.hash = y.hash := by rw [hrest]
  have hfee : z.fee = y.fee := by rw [hrest]
  have hchildren : z.children = y.children := by rw [hrest]
  have hparents : z.parents = y.parents := by rw [hrest]
  refine ⟨hhash.trans h.hash, hfee.trans h.fee,
    fun sh => (hcred.mem_hashXs sh).trans (h.mem_hashXs sh), ?_, ?_, ?_⟩
  · rw [hchildren]
    exact h.children_sub
  · rw [hchildren]
    exact h.children
  · rw [hparents]
    exact h.parents

/-- One round of the loop of `dropTxs`. -/
theorem DropFrame.step (h : DropFrame mp₀ gone done s)
    (hkeyed : ∀ (g : TxHash) (tx : Tx), mp₀.txs[g]? = some tx → tx.hash = g)
    (hclosed : ClosedUnderChildren mp₀.txs gone) {t : TxHash} (ht : t ∈ gone) :
    DropFrame mp₀ gone (done ++ [t]) (dropTx gone s t) := by
  cases htx : s.mp.txs[t]? with
  | none =>
      have hskip : dropTx gone s t = s := by
        unfold dropTx
        rw [htx]
      have hout : t ∈ mp₀.txs → t ∈ done := by
        intro hmem
        by_contra hn
        exact not_mem_iff_getElem?.mpr htx ((h.mem t).mpr ⟨hmem, hn⟩)
      rw [hskip]
      refine ⟨?_, h.shrunk, h.hashXTxs, h.dsps, ?_⟩
      · intro g
        rw [h.mem, List.mem_append, List.mem_singleton, not_or]
        refine and_congr_right fun hg => ⟨fun hn => ⟨hn, ?_⟩, fun hn => hn.1⟩
        rintro rfl
        exact hn (hout hg)
      · intro g hg tx hget
        rcases List.mem_append.mp hg with hg | hg
        · exact h.affected g hg tx hget
        · rw [List.mem_singleton] at hg
          subst hg
          exact h.affected g (hout (mem_iff_getElem?.mpr ⟨tx, hget⟩)) tx hget
  | some tx =>
      obtain ⟨tx₀, htx₀, hsh⟩ := h.shrunk t tx htx
      have hhash : tx.hash = t := hsh.hash.trans (hkeyed t tx₀ htx₀)
      have hchildren : ∀ c ∈ tx.children, c ∈ gone :=
        fun c hc => hclosed t ht tx₀ htx₀ c (hsh.children_sub c hc)
      have hcred := creditedMap_unconfirmedSpends gone s.mp.txs tx
      have hget : ∀ g : TxHash, (dropTx gone s t).mp.txs[g]? = if t = g then none else
          (tx.hashXs.toList.foldl (fun txs e =>
            e.2.unconfirmedSpends.toList.foldl (creditBack gone e.1) txs) s.mp.txs)[g]?.map
              (Mempool.unlinkOn tx g) := by
        intro g
        simp only [dropTx, htx, eraseTx, get_erase, get_unlink]
      -- the credited records, which are those of before the round
      have hback : ∀ (g : TxHash) (z : Tx), (tx.hashXs.toList.foldl (fun txs e =>
          e.2.unconfirmedSpends.toList.foldl (creditBack gone e.1) txs) s.mp.txs)[g]? = some z →
          ∃ x, mp₀.txs[g]? = some x ∧ Shrunk gone g x z := by
        intro g z hz
        by_cases hg : g ∈ gone
        · rw [hcred.doomed g hg] at hz
          exact h.shrunk g z hz
        · cases hy : s.mp.txs[g]? with
          | none =>
              rw [hcred.absent g hy] at hz
              cases hz
          | some y =>
              obtain ⟨x, hx, hxy⟩ := h.shrunk g y hy
              obtain ⟨z', hz', hyz⟩ := hcred.present g hg y hy
              rw [hz', Option.some.injEq] at hz
              exact ⟨x, hx, hxy.credited (hz ▸ hyz)⟩
      have hforth : ∀ g : TxHash, g ∈ s.mp.txs → ∃ z, (tx.hashXs.toList.foldl (fun txs e =>
          e.2.unconfirmedSpends.toList.foldl (creditBack gone e.1) txs) s.mp.txs)[g]? = some z := by
        intro g hg
        obtain ⟨y, hy⟩ := mem_iff_getElem?.mp hg
        by_cases hgone : g ∈ gone
        · exact ⟨y, (hcred.doomed g hgone).trans hy⟩
        · obtain ⟨z, hz, -⟩ := hcred.present g hgone y hy
          exact ⟨z, hz⟩
      have haff : (dropTx gone s t).scriptHashesAffected =
          addHashXs tx s.scriptHashesAffected := by
        simp only [dropTx, htx, eraseTx]
      refine ⟨?_, ?_, ?_, ?_, ?_⟩
      · intro g
        rw [List.mem_append, List.mem_singleton, not_or, ← and_assoc, ← h.mem]
        constructor
        · intro hg
          obtain ⟨w, hw⟩ := mem_iff_getElem?.mp hg
          rw [hget] at hw
          split_ifs at hw with hgt
          obtain ⟨z, hz, -⟩ := Option.map_eq_some_iff.mp hw
          refine ⟨?_, Ne.symm hgt⟩
          by_contra hn
          rw [hcred.absent g (not_mem_iff_getElem?.mp hn)] at hz
          cases hz
        · rintro ⟨hg, hgt⟩
          obtain ⟨z, hz⟩ := hforth g hg
          exact mem_iff_getElem?.mpr ⟨_, by rw [hget, if_neg (Ne.symm hgt), hz]; rfl⟩
      · intro g w hw
        rw [hget] at hw
        split_ifs at hw with hgt
        obtain ⟨z, hz, rfl⟩ := Option.map_eq_some_iff.mp hw
        obtain ⟨x, hx, hxz⟩ := hback g z hz
        exact ⟨x, hx, hxz.unlinkOn ht hhash hchildren⟩
      · rw [← h.hashXTxs]
        simp only [dropTx, htx, eraseTx]
      · rw [← h.dsps]
        simp only [dropTx, htx, eraseTx]
      · intro g hg x hx sh hsh'
        rw [haff, mem_addHashXs]
        rcases List.mem_append.mp hg with hg | hg
        · exact .inl (h.affected g hg x hx sh hsh')
        · rw [List.mem_singleton] at hg
          subst hg
          rw [htx₀, Option.some.injEq] at hx
          subst hx
          exact .inr ((hsh.mem_hashXs sh).mpr hsh')

theorem DropFrame.foldl (h : DropFrame mp₀ gone done s)
    (hkeyed : ∀ (g : TxHash) (tx : Tx), mp₀.txs[g]? = some tx → tx.hash = g)
    (hclosed : ClosedUnderChildren mp₀.txs gone) {rest : List TxHash} (hrest : rest ⊆ gone) :
    DropFrame mp₀ gone (done ++ rest) (rest.foldl (dropTx gone) s) := by
  induction rest generalizing done s with
  | nil =>
      rw [List.append_nil]
      exact h
  | cons t rest ih =>
      obtain ⟨ht, hrest⟩ := List.cons_subset.mp hrest
      have hnext := ih (h.step hkeyed hclosed ht) hrest
      rw [List.append_assoc] at hnext
      exact hnext

/-! ## The whole operation -/

/-- The parts of what `dropTxs` returns. -/
theorem exists_of_dropTxs {mp : Mempool} {affected : HashSet} {txids : List TxHash}
    {r : Mempool × List TxHash × HashSet × MempoolStats}
    (h : dropTxs mp affected txids = some r) :
    ∃ s, s = r.2.1.foldl (dropTx r.2.1) { mp := mp } ∧
      growTxHashSetToIncludeDescendants mp.txs txids = some r.2.1 ∧
      r.1 = dropRest r.2.1 s ∧ r.2.2.1 = affected ∪ s.scriptHashesAffected ∧
      r.2.2.2.dspTxsAffected = dropReported s.mp.dsps r.2.1 ∧
      r.2.2.2.oldSize = mp.txs.size ∧ r.2.2.2.newSize = r.1.txs.size := by
  unfold dropTxs at h
  cases hgrow : growTxHashSetToIncludeDescendants mp.txs txids with
  | none =>
      rw [hgrow] at h
      cases h
  | some gone =>
      rw [hgrow] at h
      cases h
      exact ⟨_, rfl, rfl, rfl, rfl, rfl, rfl, rfl⟩

/-- The dropped transactions contain the given ones and all their children. -/
theorem closed_of_grow {txs : TxMap} {txids gone : List TxHash}
    (h : growTxHashSetToIncludeDescendants txs txids = some gone) :
    txids ⊆ gone ∧ ClosedUnderChildren txs gone := by
  have hmem := Worklist.mem_grow h
  constructor
  · exact fun t ht => (hmem t).mpr ⟨t, ht, .refl⟩
  · intro p hp tx htx c hc
    obtain ⟨t, ht, hreach⟩ := (hmem p).mp hp
    refine (hmem c).mpr ⟨t, ht, hreach.tail ?_⟩
    unfold childrenOf
    rw [htx, Option.map_some, Option.getD_some, Std.ExtTreeSet.mem_toList]
    exact hc

/-- A vector after the removal; it is never sorted again. -/
theorem get_dropRest (gone : List TxHash) (s : RmState) (sh : HashX) :
    (dropRest gone s).hashXTxs[sh]? = s.mp.hashXTxs[sh]?.bind fun v =>
      if sh ∈ s.scriptHashesAffected then
        if (v.filter fun h => h ∉ gone) = [] then none else some (v.filter fun h => h ∉ gone)
      else some v := by
  simp only [dropRest, rmTxsInHashXTxs]
  rw [Std.ExtTreeMap.getElem?_filterMap']
  simp

section Result

variable {mp : Mempool} (hs : DropFrame mp gone gone s)

include hs

/-- A record that stays is the same to a client. -/
theorem DropFrame.sameEntry {g : TxHash} (hg : g ∉ gone) {tx : Tx} (htx : mp.txs[g]? = some tx) :
    ∃ tx', s.mp.txs[g]? = some tx' ∧ Shrunk gone g tx tx' := by
  have hmem := (hs.mem g).mpr ⟨mem_iff_getElem?.mpr ⟨tx, htx⟩, hg⟩
  obtain ⟨tx', htx'⟩ := mem_iff_getElem?.mp hmem
  obtain ⟨tx₀, htx₀, hsh⟩ := hs.shrunk g tx' htx'
  rw [htx, Option.some.injEq] at htx₀
  exact ⟨tx', htx', htx₀ ▸ hsh⟩

variable (hi : Indexed mp)

include hi

/-- What is listed after the removal was listed before, and stays. -/
theorem DropFrame.mem_vector {sh : HashX} {g : TxHash}
    (hg : g ∈ (dropRest gone s).hashXTxs[sh]?.getD []) :
    g ∈ mp.hashXTxs[sh]?.getD [] ∧ g ∉ gone := by
  rw [get_dropRest, hs.hashXTxs] at hg
  cases hv : mp.hashXTxs[sh]? with
  | none => simp [hv] at hg
  | some v =>
      rw [hv, Option.bind_some] at hg
      rw [Option.getD_some]
      by_cases hsh : sh ∈ s.scriptHashesAffected
      · rw [if_pos hsh] at hg
        split_ifs at hg with hnil
        · simp at hg
        · simpa using hg
      · rw [if_neg hsh, Option.getD_some] at hg
        refine ⟨hg, fun hgone => hsh ?_⟩
        obtain ⟨tx, htx, hmem⟩ := hi.listed sh g (by rw [hv]; exact hg)
        exact hs.affected g hgone tx htx sh hmem

theorem DropFrame.indexed (hclosed : ClosedUnderChildren mp.txs gone) :
    Indexed (dropRest gone s) := by
  have hdsps : (dropRest gone s).dsps = dropDsps mp.dsps gone := by
    rw [← hs.dsps]
    rfl
  have hremoves := removes_dropDsps hi.linked gone
  refine ⟨?_, ?_, ?_, ?_, ?_, ?_⟩
  · intro g tx' htx'
    obtain ⟨tx, htx, hsh⟩ := hs.shrunk g tx' htx'
    rw [hsh.hash]
    exact hi.keyed g tx htx
  · intro sh g hg
    obtain ⟨hlist, hgone⟩ := hs.mem_vector hi hg
    obtain ⟨tx, htx, hmem⟩ := hi.listed sh g hlist
    obtain ⟨tx', htx', hsh⟩ := hs.sameEntry hgone htx
    exact ⟨tx', htx', (hsh.mem_hashXs sh).mpr hmem⟩
  · intro sh he
    rw [get_dropRest, hs.hashXTxs, Option.bind_eq_some_iff] at he
    obtain ⟨v, hv, he⟩ := he
    split_ifs at he with hsh hnil
    · exact hnil (Option.some.inj he)
    · rw [Option.some.injEq] at he
      exact hi.ne_nil sh (by rw [hv, he])
  · intro c tx' htx' p hp
    obtain ⟨tx, htx, hsh⟩ := hs.shrunk c tx' htx'
    have hc : c ∉ gone := ((hs.mem c).mp (mem_iff_getElem?.mpr ⟨tx', htx'⟩)).2
    rw [hsh.parents hc] at hp
    obtain ⟨ptx, hptx, hchild⟩ := hi.parents c tx htx p hp
    have hp' : p ∉ gone := fun hgone => hc (hclosed p hgone ptx hptx c hchild)
    obtain ⟨ptx', hptx', hpsh⟩ := hs.sameEntry hp' hptx
    exact ⟨ptx', hptx', hpsh.children c hchild hc⟩
  · rw [hdsps]
    exact hremoves.linked
  · intro t k hl
    rw [hdsps, hremoves.linked.lists_iff] at hl
    obtain ⟨p', hp', ht⟩ := hl
    obtain ⟨p, hp, -, -, hdesc⟩ := hremoves.get k p' hp'
    obtain ⟨htp, hgone⟩ := (hdesc t).mp ht
    exact (hs.mem t).mpr ⟨hi.proofs t k ((hi.linked.lists_iff t k).mpr ⟨p, hp, htp⟩), hgone⟩

theorem DropFrame.history_eq {sh : HashX} (hsh : sh ∉ s.scriptHashesAffected) :
    (dropRest gone s).history sh = mp.history sh := by
  have hvec : (dropRest gone s).hashXTxs[sh]? = mp.hashXTxs[sh]? := by
    rw [get_dropRest, hs.hashXTxs]
    cases mp.hashXTxs[sh]? with
    | none => rfl
    | some v => rw [Option.bind_some, if_neg hsh]
  refine Mempool.history_eq hvec fun g hg => ?_
  obtain ⟨tx, htx, hmem⟩ := hi.listed sh g hg
  have hgone : g ∉ gone := fun hgone => hsh (hs.affected g hgone tx htx sh hmem)
  obtain ⟨tx', htx', hshr⟩ := hs.sameEntry hgone htx
  exact ⟨tx, tx', htx, htx', hshr.hash, hshr.fee, hshr.parents hgone⟩

end Result

/-- The transactions of the mempool after `dropTxs`. -/
theorem mem_txs_dropTxs {mp : Mempool}
    (hkeyed : ∀ (g : TxHash) (tx : Tx), mp.txs[g]? = some tx → tx.hash = g) {affected : HashSet}
    {txids : List TxHash} {r : Mempool × List TxHash × HashSet × MempoolStats}
    (h : dropTxs mp affected txids = some r) :
    txids ⊆ r.2.1 ∧ ∀ g, g ∈ r.1.txs ↔ g ∈ mp.txs ∧ g ∉ r.2.1 := by
  obtain ⟨s, hs, hgrow, hmp, -⟩ := exists_of_dropTxs h
  obtain ⟨hsub, hclosed⟩ := closed_of_grow hgrow
  have hloop := (dropFrame_start mp r.2.1).foldl hkeyed hclosed (List.Subset.refl r.2.1)
  rw [List.nil_append, ← hs] at hloop
  rw [hmp]
  exact ⟨hsub, hloop.mem⟩

/-- What `dropTxs` does, whatever is dropped. -/
theorem dropTxs_covers {mp : Mempool} (hi : Indexed mp) {affected : HashSet}
    {txids : List TxHash} {r : Mempool × List TxHash × HashSet × MempoolStats}
    (h : dropTxs mp affected txids = some r) :
    Indexed r.1 ∧ ∀ T : HashSet, (∀ t ∈ r.2.1, t ∈ T) →
      Covers r.2.2.1 T r.2.2.2.dspTxsAffected mp r.1 := by
  obtain ⟨-, hmem⟩ := mem_txs_dropTxs hi.keyed h
  obtain ⟨s, hs, hgrow, hmp, haff, hdsp, -⟩ := exists_of_dropTxs h
  obtain ⟨-, hclosed⟩ := closed_of_grow hgrow
  have hloop := (dropFrame_start mp r.2.1).foldl hi.keyed hclosed (List.Subset.refl r.2.1)
  rw [List.nil_append, ← hs] at hloop
  refine ⟨hmp ▸ hloop.indexed hi hclosed, fun T hT => ⟨?_, ?_, ?_⟩⟩
  · intro sh hsh
    rw [haff, Std.ExtTreeSet.mem_union_iff, not_or] at hsh
    rw [hmp]
    exact hloop.history_eq hi hsh.2
  · intro g hg
    rw [hmem]
    exact ⟨fun hm => hm.1, fun hm => ⟨hm, fun hgone => hg (hT g hgone)⟩⟩
  · intro t ht
    have hindexed := hloop.indexed hi hclosed
    have hdsps : r.1.dsps = dropDsps mp.dsps r.2.1 := by
      rw [hmp, ← hloop.dsps]
      rfl
    rw [hdsp, hloop.dsps] at ht
    refine get_eq_of_lists_iff ?_ hi.linked.noEmpty fun k => ?_
    · rw [hmp]
      exact hindexed.linked.noEmpty
    · rw [hdsps]
      exact lists_dropDsps hi.linked ht k

end Mempool
end Shulcrum
