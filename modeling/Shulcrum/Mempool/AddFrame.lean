import Shulcrum.Mempool.Indexed

/-!
# What adding transactions leaves alone

`addNewTxs` inserts the new transactions and touches the old ones only to note
a new child and to mark an output as spent.  A script hash it does not report
has the same history as before, and a transaction it does not report has the
same double-spend proofs.  Nothing is asked of the new transactions except that
they are new and listed once.

**Results.**
* `addNewTxs_covers`: every change is covered, and the mempool stays indexed.
-/

namespace Shulcrum

open BTC TreeMap DSPs SortUnique

namespace Mempool

section Records

/-- What an input of the transaction `hash` does to the record filed under `g`. -/
structure Touched (hash g : TxHash) (tx tx' : Tx) : Prop where
  hash_eq : tx'.hash = tx.hash
  mem_hashXs : ∀ sh ∈ tx.hashXs, sh ∈ tx'.hashXs
  children : ∀ c ∈ tx.children, c ∈ tx'.children
  same : g ≠ hash → tx'.fee = tx.fee ∧ tx'.parents = tx.parents

variable {H : Hashers} {hash : TxHash} {info : TXOInfo} {prev : TXO}

theorem get_of_spendUnconfirmed {txs txs' : TxMap}
    (h : spendUnconfirmed hash prev info txs = .ok txs') (g : TxHash) :
    txs'[g]? = txs[g]?.map (spendOn hash prev info g) := by
  simp only [spendUnconfirmed] at h
  split_ifs at h
  cases h
  simp only [linkChild, get_modify]
  cases txs[g]? with
  | none => simp
  | some tx =>
      by_cases hg : hash = g <;> by_cases hp : prev.txHash = g <;>
        simp [spendOn, hg, hp, Tx.markSpent, Tx.modifyIo, Tx.updIo]

theorem touched_spendOn (hash : TxHash) (prev : TXO) (info : TXOInfo) (g : TxHash) (tx : Tx) :
    Touched hash g tx (spendOn hash prev info g tx) := by
  have hupd : ∀ k ∈ tx.hashXs, k ∈ (tx.updIo info.hashX fun io =>
      { io with unconfirmedSpends := io.unconfirmedSpends.insert prev info }).hashXs :=
    fun k hk => Tx.mem_updIo.mpr (.inr hk)
  have hmark : ∀ (tx : Tx), ∀ k ∈ tx.hashXs,
      k ∈ (tx.markSpent info.hashX prev.outN hash).hashXs :=
    fun tx k hk => Tx.mem_modifyIo.mpr hk
  have hchild : ∀ (tx : Tx), ∀ c ∈ tx.children,
      c ∈ (tx.markSpent info.hashX prev.outN hash).children :=
    fun tx c hc => mem_set_insert.mpr (.inr hc)
  by_cases hg : hash = g <;> by_cases hp : prev.txHash = g <;>
    simp only [spendOn, hg, hp, if_true, if_false]
  · exact ⟨rfl, fun k hk => hmark _ k (hupd k hk), fun c hc => hg ▸ hchild _ c hc,
      fun hne => absurd rfl hne⟩
  · exact ⟨rfl, hupd, fun _ hc => hc, fun hne => absurd rfl hne⟩
  · exact ⟨rfl, hmark tx, hchild tx, fun _ => ⟨rfl, rfl⟩⟩
  · exact ⟨rfl, fun _ hk => hk, fun _ hc => hc, fun _ => ⟨rfl, rfl⟩⟩

theorem mem_hashXs_spendOn (hash : TxHash) (prev : TXO) (info : TXOInfo) (tx : Tx) :
    info.hashX ∈ (spendOn hash prev info hash tx).hashXs := by
  have hupd : ∀ f, info.hashX ∈ (tx.updIo info.hashX f).hashXs :=
    fun f => Tx.mem_updIo.mpr (.inl rfl)
  by_cases hp : prev.txHash = hash
  · simp only [spendOn, hp, if_true]
    exact Tx.mem_modifyIo.mpr (hupd _)
  · simp only [spendOn, hp, if_true, if_false]
    exact hupd _

/-- The parents of the spender, and the child its parent gets. -/
theorem links_spendOn (hash : TxHash) (prev : TXO) (info : TXOInfo) (tx : Tx) :
    (∀ p ∈ (spendOn hash prev info hash tx).parents, p = prev.txHash ∨ p ∈ tx.parents) ∧
      hash ∈ (spendOn hash prev info prev.txHash tx).children := by
  constructor
  · intro p hp
    have hpar : (spendOn hash prev info hash tx).parents = tx.parents.insert prev.txHash := by
      by_cases hpg : prev.txHash = hash <;>
        simp [spendOn, hpg, Tx.markSpent, Tx.modifyIo, Tx.updIo]
    rw [hpar] at hp
    exact mem_set_insert.mp hp
  · by_cases hpg : hash = prev.txHash <;>
      simp [spendOn, hpg, Tx.markSpent, Tx.modifyIo, Tx.updIo]

end Records

/-! ## The invariant -/

/-- What holds between two steps of `addNewTxs`, for the mempool it started with. -/
structure AddFrame (mp₀ : Mempool) (affected₀ : HashSet) (isNew : TxHash → Bool)
    (s : AddState) : Prop where
  indexed : Indexed s.mp
  old : ∀ (g : TxHash) (tx : Tx), mp₀.txs[g]? = some tx →
    ∃ tx', s.mp.txs[g]? = some tx' ∧ SameEntry tx tx'
  txs : ∀ g ∈ s.mp.txs, g ∈ mp₀.txs ∨ isNew g = true
  affected : ∀ sh ∈ affected₀, sh ∈ s.scriptHashesAffected
  vectors : ∀ sh : HashX, sh ∉ s.scriptHashesAffected → s.mp.hashXTxs[sh]? = mp₀.hashXTxs[sh]?
  mono : ∀ t h, DSPs.Lists mp₀.dsps.txDspsMap t h → s.Lists t h
  noted : ∀ t, t ∈ s.dspTxsAffected ↔ ∃ h, s.Lists t h ∧ ¬ DSPs.Lists mp₀.dsps.txDspsMap t h
  newLinks : ∀ e ∈ newLinks s, e.1 ∈ s.mp.txs

variable {H : Hashers} {getTXOInfo : TXO → Option TXOInfo} {mp₀ : Mempool} {affected₀ : HashSet}
  {isNew : TxHash → Bool}

theorem addFrame_start {mp : Mempool} (h : Indexed mp) (affected : HashSet)
    (isNew : TxHash → Bool) :
    AddFrame mp affected isNew { mp := mp, scriptHashesAffected := affected } where
  indexed := h
  old g tx htx := ⟨tx, htx, rfl, rfl, rfl⟩
  txs g hg := .inl hg
  affected sh hsh := hsh
  vectors sh _ := rfl
  mono t k hl := hl
  noted t := by
    simp only [Std.ExtTreeSet.not_mem_empty, false_iff, not_exists, not_and, not_not]
    exact fun k hl => hl
  newLinks e he := by simp [Mempool.newLinks] at he

/-! ## The outputs of the new transactions -/

/-- The state after the outputs of a new transaction are added. -/
theorem addTxOutputs_eq {s : AddState} (hm : ∀ sh : HashX, s.mp.hashXTxs[sh]? ≠ some [])
    (nt : NewTx) : ∃ r : OutState,
      OutInv H s.mp.hashXTxs s.scriptHashesAffected nt nt.ctx.vout 0 r ∧
      addTxOutputs H s nt = { s with
        mp := { s.mp with txs := s.mp.txs.insert nt.hash r.tx, hashXTxs := r.hashXTxs }
        scriptHashesAffected := r.scriptHashesAffected } := by
  have hstart : OutInv H s.mp.hashXTxs s.scriptHashesAffected nt [] nt.ctx.vout.length _ :=
    outInv_start hm s.scriptHashesAffected nt
  have hout := hstart.addOutputs
  rw [List.nil_append, List.length_nil] at hout
  exact ⟨_, hout, rfl⟩

/-- A new transaction is inserted, with its outputs. -/
theorem AddFrame.addTxOutputs {s : AddState} (h : AddFrame mp₀ affected₀ isNew s) {nt : NewTx}
    (hnew : isNew nt.hash = true) (hnot : nt.hash ∉ s.mp.txs) :
    AddFrame mp₀ affected₀ isNew (addTxOutputs H s nt) := by
  obtain ⟨r, hout, heq⟩ := addTxOutputs_eq (H := H) h.indexed.ne_nil nt
  rw [heq]
  have hget : ∀ g : TxHash, (s.mp.txs.insert nt.hash r.tx)[g]? =
      if nt.hash = g then some r.tx else s.mp.txs[g]? := fun g => get_insert
  have hne : ∀ g : TxHash, g ∈ s.mp.txs → nt.hash ≠ g := by
    rintro g hg rfl
    exact hnot hg
  have hmem : ∀ {g : TxHash} {tx : Tx}, s.mp.txs[g]? = some tx → g ∈ s.mp.txs :=
    fun htx => mem_iff_getElem?.mpr ⟨_, htx⟩
  have hkeep : ∀ g ∈ s.mp.txs, g ∈ s.mp.txs.insert nt.hash r.tx := by
    intro g hg
    obtain ⟨tx, htx⟩ := mem_iff_getElem?.mp hg
    exact mem_iff_getElem?.mpr ⟨tx, by rw [hget, if_neg (hne g hg), htx]⟩
  refine ⟨⟨?_, ?_, hout.ne_nil, ?_, h.indexed.linked, ?_⟩, ?_, ?_, ?_, ?_, h.mono, h.noted, ?_⟩
  · intro g tx htx
    rw [hget] at htx
    split_ifs at htx with hg
    · cases htx
      rw [hout.hash, hg]
    · exact h.indexed.keyed g tx htx
  · intro sh g hg
    rw [hget]
    rcases (hout.mem_hashXTxs sh g).mp hg with hg | ⟨hpays, rfl⟩
    · obtain ⟨tx, htx, hsh⟩ := h.indexed.listed sh g hg
      exact ⟨tx, by rw [if_neg (hne g (hmem htx)), htx], hsh⟩
    · exact ⟨r.tx, if_pos rfl, (hout.mem_hashXs sh).mpr hpays⟩
  · intro c tx htx p hp
    rw [hget] at htx
    split_ifs at htx with hc
    · cases htx
      rw [hout.parents] at hp
      simp at hp
    · obtain ⟨ptx, hptx, hchild⟩ := h.indexed.parents c tx htx p hp
      exact ⟨ptx, by rw [hget, if_neg (hne p (hmem hptx)), hptx], hchild⟩
  · exact fun t k hl => hkeep t (h.indexed.proofs t k hl)
  · intro g tx htx
    obtain ⟨tx', htx', hsame⟩ := h.old g tx htx
    exact ⟨tx', by rw [hget, if_neg (hne g (hmem htx')), htx'], hsame⟩
  · intro g hg
    obtain ⟨tx, htx⟩ := mem_iff_getElem?.mp hg
    rw [hget] at htx
    split_ifs at htx with he
    · exact .inr (he ▸ hnew)
    · exact h.txs g (hmem htx)
  · exact fun sh hsh => (hout.affected sh).mpr (.inl (h.affected sh hsh))
  · intro sh hsh
    rw [hout.affected, not_or] at hsh
    rw [hout.unaffected sh hsh.2]
    exact h.vectors sh hsh.1
  · exact fun e he => hkeep e.1 (h.newLinks e he)

theorem mem_txs_addTxOutputs {s : AddState} {nt : NewTx} {g : TxHash} :
    g ∈ (addTxOutputs H s nt).mp.txs ↔ g = nt.hash ∨ g ∈ s.mp.txs := by
  have heq : (addTxOutputs H s nt).mp.txs = s.mp.txs.insert nt.hash
      (addOutputs H ⟨{ hash := nt.hash
                       sizeBytes := nt.sizeBytes
                       vsizeBytes := nt.vsizeBytes
                       txos := List.replicate nt.ctx.vout.length none },
        s.mp.hashXTxs, s.scriptHashesAffected⟩ 0 nt.ctx.vout).tx := rfl
  rw [heq, Std.ExtTreeMap.mem_insert, Std.LawfulEqCmp.compare_eq_iff_eq, eq_comm]

theorem mem_txs_foldl_addTxOutputs {news : List NewTx} {s : AddState} {g : TxHash} :
    g ∈ (news.foldl (addTxOutputs H) s).mp.txs ↔ g ∈ s.mp.txs ∨ g ∈ news.map NewTx.hash := by
  induction news generalizing s with
  | nil => simp
  | cons nt news ih =>
      rw [List.foldl_cons, ih, mem_txs_addTxOutputs, List.map_cons, List.mem_cons]
      tauto

theorem AddFrame.foldl_addTxOutputs {s : AddState} (h : AddFrame mp₀ affected₀ isNew s)
    {news : List NewTx} (hnew : ∀ nt ∈ news, isNew nt.hash = true)
    (hnodup : (news.map NewTx.hash).Nodup) (hnot : ∀ nt ∈ news, nt.hash ∉ s.mp.txs) :
    AddFrame mp₀ affected₀ isNew (news.foldl (Mempool.addTxOutputs H) s) := by
  induction news generalizing s with
  | nil => exact h
  | cons nt news ih =>
      rw [List.map_cons, List.nodup_cons] at hnodup
      refine ih (h.addTxOutputs (hnew nt List.mem_cons_self) (hnot nt List.mem_cons_self))
        (fun q hq => hnew q (List.mem_cons_of_mem _ hq)) hnodup.2 ?_
      intro q hq hmem
      rcases mem_txs_addTxOutputs.mp hmem with he | hmem
      · exact hnodup.1 (he ▸ List.mem_map_of_mem hq)
      · exact hnot q (List.mem_cons_of_mem _ hq) hmem

/-! ## One input -/

/-- The records are changed by an input of a new transaction. -/
theorem AddFrame.setTxs {s : AddState} (h : AddFrame mp₀ affected₀ isNew s) {hash : TxHash}
    (hfresh : hash ∉ mp₀.txs) {f : TxHash → Tx → Tx} {txs' : TxMap}
    (hget : ∀ g : TxHash, txs'[g]? = s.mp.txs[g]?.map (f g))
    (hf : ∀ g tx, Touched hash g tx (f g tx))
    (hlinks : ∀ tx, s.mp.txs[hash]? = some tx → ∀ p ∈ (f hash tx).parents,
      p ∈ tx.parents ∨ ∃ ptx, s.mp.txs[p]? = some ptx ∧ hash ∈ (f p ptx).children)
    (table : Option MempoolPrefixTable) :
    AddFrame mp₀ affected₀ isNew
      { s with mp := { s.mp with txs := txs', optPrefixTable := table } } := by
  have hback : ∀ (g : TxHash) (tx' : Tx), txs'[g]? = some tx' →
      ∃ tx, s.mp.txs[g]? = some tx ∧ tx' = f g tx := by
    intro g tx' htx'
    rw [hget, Option.map_eq_some_iff] at htx'
    obtain ⟨tx, htx, rfl⟩ := htx'
    exact ⟨tx, htx, rfl⟩
  have hforth : ∀ {g : TxHash} {tx : Tx}, s.mp.txs[g]? = some tx → txs'[g]? = some (f g tx) := by
    intro g tx htx
    rw [hget, htx, Option.map_some]
  have hkeep : ∀ g ∈ s.mp.txs, g ∈ txs' := by
    intro g hg
    obtain ⟨tx, htx⟩ := mem_iff_getElem?.mp hg
    exact mem_iff_getElem?.mpr ⟨_, hforth htx⟩
  refine ⟨⟨?_, ?_, h.indexed.ne_nil, ?_, h.indexed.linked, ?_⟩, ?_, ?_, h.affected, h.vectors,
    h.mono, h.noted, ?_⟩
  · intro g tx' htx'
    obtain ⟨tx, htx, rfl⟩ := hback g tx' htx'
    rw [(hf g tx).hash_eq]
    exact h.indexed.keyed g tx htx
  · intro k g hg
    obtain ⟨tx, htx, hk⟩ := h.indexed.listed k g hg
    exact ⟨_, hforth htx, (hf g tx).mem_hashXs k hk⟩
  · intro c tx' htx' p hp
    obtain ⟨tx, htx, rfl⟩ := hback c tx' htx'
    have hold : p ∈ tx.parents → ∃ ptx, txs'[p]? = some ptx ∧ c ∈ ptx.children := by
      intro hp
      obtain ⟨ptx, hptx, hchild⟩ := h.indexed.parents c tx htx p hp
      exact ⟨_, hforth hptx, (hf p ptx).children c hchild⟩
    by_cases hc : c = hash
    · subst hc
      rcases hlinks tx htx p hp with hp | ⟨ptx, hptx, hchild⟩
      · exact hold hp
      · exact ⟨_, hforth hptx, hchild⟩
    · rw [((hf c tx).same hc).2] at hp
      exact hold hp
  · exact fun t k hl => hkeep t (h.indexed.proofs t k hl)
  · intro g tx htx
    have hg : g ≠ hash := by
      rintro rfl
      exact hfresh (mem_iff_getElem?.mpr ⟨tx, htx⟩)
    obtain ⟨tx', htx', hsame⟩ := h.old g tx htx
    have hone := hf g tx'
    exact ⟨_, hforth htx', hsame.trans ⟨hone.hash_eq, (hone.same hg).1, (hone.same hg).2⟩⟩
  · intro g hg
    obtain ⟨tx', htx'⟩ := mem_iff_getElem?.mp hg
    obtain ⟨tx, htx, -⟩ := hback g tx' htx'
    exact h.txs g (mem_iff_getElem?.mpr ⟨tx, htx⟩)
  · exact fun e he => hkeep e.1 (h.newLinks e he)

/-- A transaction is listed under a script hash it touches, which is reported. -/
theorem AddFrame.pushTx {s : AddState} (h : AddFrame mp₀ affected₀ isNew s) {hash : TxHash}
    {sh : HashX} {tx : Tx} (htx : s.mp.txs[hash]? = some tx) (hsh : sh ∈ tx.hashXs) :
    AddFrame mp₀ affected₀ isNew { s with
      mp := { s.mp with hashXTxs := pushTx s.mp.hashXTxs sh hash }
      scriptHashesAffected := s.scriptHashesAffected.insert sh } := by
  refine ⟨⟨h.indexed.keyed, ?_, pushTx_ne_nil h.indexed.ne_nil, h.indexed.parents,
    h.indexed.linked, h.indexed.proofs⟩, h.old, h.txs, ?_, ?_, h.mono, h.noted, h.newLinks⟩
  · intro k g hg
    rcases mem_pushTx.mp hg with hg | ⟨rfl, rfl⟩
    · exact h.indexed.listed k g hg
    · exact ⟨tx, htx, hsh⟩
  · exact fun k hk => mem_set_insert.mpr (.inr (h.affected k hk))
  · intro k hk
    obtain ⟨hne, hk⟩ := not_or.mp (mt mem_set_insert.mpr hk)
    rw [get_pushTx_of_ne hne]
    exact h.vectors k hk

/-- The prefix of an input. -/
theorem AddFrame.addInputRpa {s : AddState} (h : AddFrame mp₀ affected₀ isNew s) {hash : TxHash}
    (hfresh : hash ∉ mp₀.txs) (inNum : Nat) (input : CTxIn) :
    AddFrame mp₀ affected₀ isNew { s with mp := addInputRpa H hash inNum input s.mp } := by
  let addPfx (g : TxHash) (tx : Tx) : Tx :=
    if hash = g ∧ s.mp.optPrefixTable.isSome ∧ inNum < rpaInputIndexLimit then
      tx.addRpaPrefix (H.rpaPrefix input) else tx
  have hpfx : ∀ g : TxHash,
      (Mempool.addInputRpa H hash inNum input s.mp).txs[g]? = s.mp.txs[g]?.map (addPfx g) := by
    intro g
    unfold Mempool.addInputRpa
    cases ht : s.mp.optPrefixTable with
    | none => simp [addPfx, ht]
    | some table =>
        dsimp only
        by_cases hlim : inNum < rpaInputIndexLimit
        · by_cases hg : hash = g <;> simp [addPfx, ht, hlim, get_modify, hg]
        · simp [addPfx, hlim]
  have htouch : ∀ g tx, Touched hash g tx (addPfx g tx) := by
    intro g tx
    simp only [addPfx]
    split_ifs <;> exact ⟨rfl, fun _ hk => hk, fun _ hc => hc, fun _ => ⟨rfl, rfl⟩⟩
  have hparents : ∀ tx, s.mp.txs[hash]? = some tx → ∀ p ∈ (addPfx hash tx).parents,
      p ∈ tx.parents ∨ ∃ ptx, s.mp.txs[p]? = some ptx ∧ hash ∈ (addPfx p ptx).children := by
    intro tx _ p hp
    simp only [addPfx] at hp
    split_ifs at hp <;> exact .inl hp
  rw [addInputRpa_frame]
  exact h.setTxs hfresh hpfx htouch hparents _

/-- The end of the input loop body. -/
theorem AddFrame.finishInput {s : AddState} (h : AddFrame mp₀ affected₀ isNew s) {hash : TxHash}
    (hfresh : hash ∉ mp₀.txs) {info : TXOInfo} {tx : Tx} (htx : s.mp.txs[hash]? = some tx)
    (hsh : info.hashX ∈ tx.hashXs) (inNum : Nat) (input : CTxIn) :
    AddFrame mp₀ affected₀ isNew (finishInput H hash inNum input info s) := by
  let addFee (g : TxHash) (tx : Tx) : Tx :=
    if hash = g then { tx with fee := tx.fee + info.amount } else tx
  have hfee : ∀ g : TxHash, (s.mp.txs.modify hash fun tx =>
      { tx with fee := tx.fee + info.amount })[g]? = s.mp.txs[g]?.map (addFee g) := by
    intro g
    rw [get_modify]
    by_cases hg : hash = g <;> simp [addFee, hg]
  have htouch : ∀ g tx, Touched hash g tx (addFee g tx) := by
    intro g tx
    by_cases hg : hash = g
    · simp only [addFee, hg, if_true]
      exact ⟨rfl, fun _ hk => hk, fun _ hc => hc, fun hne => absurd rfl hne⟩
    · simp only [addFee, hg, if_false]
      exact ⟨rfl, fun _ hk => hk, fun _ hc => hc, fun _ => ⟨rfl, rfl⟩⟩
  have h₁ := h.setTxs hfresh hfee htouch (fun tx _ p hp => .inl (by simpa [addFee] using hp))
    s.mp.optPrefixTable
  have htx₁ : (s.mp.txs.modify hash fun tx => { tx with fee := tx.fee + info.amount })[hash]? =
      some { tx with fee := tx.fee + info.amount } := by
    rw [hfee, htx]
    simp [addFee]
  have h₂ := h₁.pushTx htx₁ hsh
  exact h₂.addInputRpa hfresh inNum input

/-! ## The proofs of the parents -/

/-- New links of stored transactions are noted. -/
theorem AddFrame.scan {s s' : AddState} (h : AddFrame mp₀ affected₀ isNew s)
    {E : List (TxHash × TxHash)} (hscan : AddState.Scan E s s') (hE : ∀ e ∈ E, e.1 ∈ s.mp.txs)
    (hrest : s'.noDsps = s.noDsps) : AddFrame mp₀ affected₀ isNew s' := by
  have hmp := congrArg AddState.mp hrest
  have htxs : s'.mp.txs = s.mp.txs := by
    have heq := congrArg Mempool.txs hmp
    exact heq
  have hvec : s'.mp.hashXTxs = s.mp.hashXTxs := by
    have heq := congrArg Mempool.hashXTxs hmp
    exact heq
  have haff : s'.scriptHashesAffected = s.scriptHashesAffected := by
    have heq := congrArg AddState.scriptHashesAffected hrest
    exact heq
  have hlisted : ∀ t k, s'.Lists t k → t ∈ s.mp.txs :=
    hscan.sound (fun t _ => t ∈ s.mp.txs) (fun e he _ _ => hE e he)
      (fun t k hl => h.indexed.proofs t k hl)
  have hi := h.indexed
  refine ⟨⟨?_, ?_, ?_, ?_, hscan.linked, ?_⟩, ?_, ?_, ?_, ?_, ?_, ?_, ?_⟩
  · rw [htxs]
    exact hi.keyed
  · rw [htxs, hvec]
    exact hi.listed
  · rw [hvec]
    exact hi.ne_nil
  · rw [htxs]
    exact hi.parents
  · rw [htxs]
    exact hlisted
  · rw [htxs]
    exact h.old
  · rw [htxs]
    exact h.txs
  · rw [haff]
    exact h.affected
  · rw [haff, hvec]
    exact h.vectors
  · exact fun t k hl => hscan.mono t k (h.mono t k hl)
  · intro t
    rw [hscan.affected, h.noted]
    constructor
    · rintro (⟨k, hl, hn⟩ | ⟨k, hl, hn⟩)
      · exact ⟨k, hscan.mono t k hl, hn⟩
      · exact ⟨k, hl, fun hl₀ => hn (h.mono t k hl₀)⟩
    · rintro ⟨k, hl, hn⟩
      by_cases hmid : s.Lists t k
      · exact .inl ⟨k, hmid, hn⟩
      · exact .inr ⟨k, hl, hmid⟩
  · rw [htxs, newLinks_congr hscan.newParents]
    exact h.newLinks

theorem AddFrame.addInputDsps {s : AddState} (h : AddFrame mp₀ affected₀ isNew s) {hash : TxHash}
    (hash_mem : hash ∈ s.mp.txs) (prevTxId : TxHash) :
    AddFrame mp₀ affected₀ isNew (addInputDsps isNew hash prevTxId s) := by
  unfold Mempool.addInputDsps
  split_ifs
  · exact h
  · have hnote : AddFrame mp₀ affected₀ isNew (noteParent hash prevTxId s) := by
      refine { h with newLinks := ?_ }
      rintro ⟨c, q⟩ he
      rcases mem_newLinks_noteParent.mp he with he | ⟨rfl, -⟩
      · exact h.newLinks (c, q) he
      · exact hash_mem
    exact { hnote with }
  · have hscan := h.scan (scan_addDspsOfParent h.indexed.linked hash prevTxId)
      (fun e he => by rw [List.mem_singleton.mp he]; exact hash_mem)
      (addDspsOfParent_noDsps hash prevTxId s)
    exact { hscan with }

/-! ## All inputs -/

theorem mem_txs_finishInput {s : AddState} {hash : TxHash} {inNum : Nat} {input : CTxIn}
    {info : TXOInfo} {g : TxHash} :
    g ∈ (finishInput H hash inNum input info s).mp.txs ↔ g ∈ s.mp.txs := by
  have hrpa : ∀ mp : Mempool, g ∈ (addInputRpa H hash inNum input mp).txs ↔ g ∈ mp.txs := by
    intro mp
    unfold addInputRpa
    cases mp.optPrefixTable with
    | none => rfl
    | some table =>
        dsimp only
        split_ifs
        · exact Std.ExtTreeMap.mem_modify
        · rfl
  exact (hrpa _).trans Std.ExtTreeMap.mem_modify

theorem txs_addInputDsps (isNew : TxHash → Bool) (hash prevTxId : TxHash) (s : AddState) :
    (addInputDsps isNew hash prevTxId s).mp.txs = s.mp.txs := by
  have heq := congrArg (fun r => r.mp.txs) (addInputDsps_noDsps isNew hash prevTxId s)
  exact heq

/-- One input of a new transaction. -/
theorem AddFrame.addInput {s s' : AddState} (h : AddFrame mp₀ affected₀ isNew s) {hash : TxHash}
    (hfresh : hash ∉ mp₀.txs) (hash_mem : hash ∈ s.mp.txs) {inNum : Nat} {input : CTxIn}
    (hok : addInput H getTXOInfo isNew hash s inNum input = .ok s') :
    AddFrame mp₀ affected₀ isNew s' ∧ ∀ g, g ∈ s'.mp.txs ↔ g ∈ s.mp.txs := by
  obtain ⟨tx, htx⟩ := mem_iff_getElem?.mp hash_mem
  simp only [Mempool.addInput] at hok
  cases hprev : s.mp.txs[input.prevout.txHash]? with
  | none =>
      rw [hprev] at hok
      cases hinfo : getTXOInfo input.prevout with
      | none =>
          rw [hinfo] at hok
          cases hok
      | some info =>
          rw [hinfo] at hok
          cases hok
          let f (g : TxHash) (tx : Tx) : Tx := if hash = g then tx.updIo info.hashX fun io =>
            { io with confirmedSpends := io.confirmedSpends.insert input.prevout info } else tx
          have hget : ∀ g : TxHash, (spendConfirmed hash input.prevout info s.mp.txs)[g]? =
              s.mp.txs[g]?.map (f g) := by
            intro g
            rw [spendConfirmed, get_modify]
            by_cases hg : hash = g <;> simp [f, hg]
          have htouch : ∀ g tx, Touched hash g tx (f g tx) := by
            intro g tx
            by_cases hg : hash = g
            · simp only [f, hg, if_true]
              exact ⟨rfl, fun _ hk => Tx.mem_updIo.mpr (.inr hk), fun _ hc => hc,
                fun hne => absurd rfl hne⟩
            · simp only [f, hg, if_false]
              exact ⟨rfl, fun _ hk => hk, fun _ hc => hc, fun _ => ⟨rfl, rfl⟩⟩
          have hspent := h.setTxs hfresh hget htouch
            (fun tx _ p hp => .inl (by simpa [f, Tx.updIo] using hp)) s.mp.optPrefixTable
          have htx' : (spendConfirmed hash input.prevout info s.mp.txs)[hash]? =
              some (f hash tx) := by rw [hget, htx, Option.map_some]
          have hsh : info.hashX ∈ (f hash tx).hashXs := by
            simp only [f, if_true]
            exact Tx.mem_updIo.mpr (.inl rfl)
          refine ⟨hspent.finishInput hfresh htx' hsh inNum input, fun g => ?_⟩
          exact mem_txs_finishInput.trans Std.ExtTreeMap.mem_modify
  | some prevTx =>
      rw [hprev] at hok
      dsimp only at hok
      cases hinfo : prevTx.txos[input.prevout.outN]?.join with
      | none =>
          rw [hinfo] at hok
          cases hok
      | some info =>
          rw [hinfo] at hok
          dsimp only at hok
          cases hspend : spendUnconfirmed hash input.prevout info s.mp.txs with
          | error e =>
              rw [hspend] at hok
              cases hok
          | ok txs =>
              rw [hspend] at hok
              cases hok
              have hget := get_of_spendUnconfirmed hspend
              have hmem : ∀ g, g ∈ txs ↔ g ∈ s.mp.txs := by
                intro g
                simp only [mem_iff_getElem?, hget, Option.map_eq_some_iff]
                constructor
                · rintro ⟨_, tx, htx, -⟩
                  exact ⟨tx, htx⟩
                · rintro ⟨tx, htx⟩
                  exact ⟨_, tx, htx, rfl⟩
              have hspent := h.setTxs hfresh hget (touched_spendOn hash input.prevout info)
                (fun tx _ p hp => by
                  rcases (links_spendOn hash input.prevout info tx).1 p hp with rfl | hp
                  · exact .inr ⟨prevTx, hprev, (links_spendOn hash input.prevout info prevTx).2⟩
                  · exact .inl hp) s.mp.optPrefixTable
              have hdsps := hspent.addInputDsps ((hmem hash).mpr hash_mem) input.prevout.txHash
              have htx' : (Mempool.addInputDsps isNew hash input.prevout.txHash
                  { s with mp := { s.mp with txs := txs } }).mp.txs[hash]? =
                  some (spendOn hash input.prevout info hash tx) := by
                rw [txs_addInputDsps]
                exact (hget hash).trans (by rw [htx, Option.map_some])
              refine ⟨hdsps.finishInput hfresh htx' (mem_hashXs_spendOn hash input.prevout info tx)
                inNum input, fun g => ?_⟩
              rw [mem_txs_finishInput, txs_addInputDsps]
              exact hmem g

theorem AddFrame.addInputs {s s' : AddState} (h : AddFrame mp₀ affected₀ isNew s) {hash : TxHash}
    (hfresh : hash ∉ mp₀.txs) (hash_mem : hash ∈ s.mp.txs) {inNum : Nat} {inputs : List CTxIn}
    (hok : addInputs H getTXOInfo isNew hash s inNum inputs = .ok s') :
    AddFrame mp₀ affected₀ isNew s' ∧ ∀ g, g ∈ s'.mp.txs ↔ g ∈ s.mp.txs := by
  induction inputs generalizing s inNum with
  | nil =>
      cases hok
      exact ⟨h, fun _ => Iff.rfl⟩
  | cons input inputs ih =>
      rw [Mempool.addInputs] at hok
      cases hone : Mempool.addInput H getTXOInfo isNew hash s inNum input with
      | error e =>
          rw [hone] at hok
          cases hok
      | ok s₁ =>
          rw [hone] at hok
          obtain ⟨h₁, hmem₁⟩ := h.addInput hfresh hash_mem hone
          obtain ⟨h₂, hmem₂⟩ := ih h₁ ((hmem₁ hash).mpr hash_mem) hok
          exact ⟨h₂, fun g => (hmem₂ g).trans (hmem₁ g)⟩

/-- The inputs of all new transactions. -/
theorem AddFrame.addAllInputs {s s' : AddState} (h : AddFrame mp₀ affected₀ isNew s)
    {news : List NewTx} (hfresh : ∀ nt ∈ news, nt.hash ∉ mp₀.txs)
    (hmem : ∀ nt ∈ news, nt.hash ∈ s.mp.txs)
    (hok : addAllInputs H getTXOInfo isNew s news = .ok s') :
    AddFrame mp₀ affected₀ isNew s' ∧ ∀ g, g ∈ s'.mp.txs ↔ g ∈ s.mp.txs := by
  induction news generalizing s with
  | nil =>
      cases hok
      exact ⟨h, fun _ => Iff.rfl⟩
  | cons nt news ih =>
      rw [Mempool.addAllInputs] at hok
      have hseen : AddFrame mp₀ affected₀ isNew { s with seenParents := ∅ } := { h with }
      cases hone : Mempool.addInputs H getTXOInfo isNew nt.hash { s with seenParents := ∅ } 0
          nt.ctx.vin with
      | error e =>
          rw [hone] at hok
          cases hok
      | ok s₁ =>
          rw [hone] at hok
          obtain ⟨h₁, hmem₁⟩ := hseen.addInputs (hfresh nt List.mem_cons_self)
            (hmem nt List.mem_cons_self) hone
          obtain ⟨h₂, hmem₂⟩ := ih h₁ (fun q hq => hfresh q (List.mem_cons_of_mem _ hq))
            (fun q hq => (hmem₁ _).mpr (hmem q (List.mem_cons_of_mem _ hq))) hok
          exact ⟨h₂, fun g => (hmem₂ g).trans (hmem₁ g)⟩

/-! ## The whole operation -/

/-- The vectors of the reported script hashes are sorted. -/
theorem AddFrame.sortAffected {s : AddState} (h : AddFrame mp₀ affected₀ isNew s) :
    AddFrame mp₀ affected₀ isNew
      { s with mp := sortAffected s.scriptHashesAffected s.mp } := by
  have hget : ∀ sh : HashX, (Mempool.sortAffected s.scriptHashesAffected s.mp).hashXTxs[sh]? =
      s.mp.hashXTxs[sh]?.map fun v =>
        if sh ∈ s.scriptHashesAffected then sortUnique (txRefLe s.mp.txs) v else v :=
    fun sh => Std.ExtTreeMap.getElem?_map
  have hi := h.indexed
  refine ⟨⟨hi.keyed, ?_, ?_, hi.parents, hi.linked, hi.proofs⟩, h.old, h.txs, h.affected, ?_,
    h.mono, h.noted, h.newLinks⟩
  · intro sh g hg
    refine hi.listed sh g ?_
    rw [hget] at hg
    cases hv : s.mp.hashXTxs[sh]? with
    | none => simp [hv] at hg
    | some v =>
        rw [hv, Option.map_some, Option.getD_some] at hg
        split_ifs at hg
        · exact mem_sortUnique.mp hg
        · exact hg
  · intro sh he
    rw [hget, Option.map_eq_some_iff] at he
    obtain ⟨v, hv, hnil⟩ := he
    have hne : v ≠ [] := fun e => hi.ne_nil sh (by rw [hv, e])
    obtain ⟨g, hg⟩ := List.exists_mem_of_ne_nil v hne
    split_ifs at hnil
    · have hmem : g ∈ sortUnique (txRefLe s.mp.txs) v := mem_sortUnique.mpr hg
      simp [hnil] at hmem
    · exact hne hnil
  · intro sh hsh
    have hsame : (s.mp.hashXTxs[sh]?.map fun v =>
        if sh ∈ s.scriptHashesAffected then sortUnique (txRefLe s.mp.txs) v else v) =
        s.mp.hashXTxs[sh]? := by
      simp [hsh]
    rw [hget, hsame]
    exact h.vectors sh hsh

/-- The loop that spreads the proofs among the new transactions. -/
theorem AddFrame.spreadNew {s : AddState} (h : AddFrame mp₀ affected₀ isNew s) :
    AddFrame mp₀ affected₀ isNew (spreadNew s) := by
  unfold Mempool.spreadNew
  split_ifs
  · exact h.scan (scan_spreadDsps h.indexed.linked rfl).1 h.newLinks (spreadDsps_noDsps _ s)
  · exact h

/-- The changes up to a state are covered by what it reports. -/
theorem AddFrame.covers {s : AddState} (h₀ : Indexed mp₀) (h : AddFrame mp₀ affected₀ isNew s)
    {txids dspTxs : HashSet} (htxids : ∀ g, isNew g = true → g ∈ txids)
    (hdsps : ∀ t ∈ s.dspTxsAffected, t ∈ dspTxs) :
    Covers s.scriptHashesAffected txids dspTxs mp₀ s.mp := by
  refine ⟨?_, ?_, ?_⟩
  · intro sh hsh
    refine history_eq (h.vectors sh hsh) fun g hg => ?_
    obtain ⟨tx, htx, -⟩ := h₀.listed sh g hg
    obtain ⟨tx', htx', hsame⟩ := h.old g tx htx
    exact ⟨tx, tx', htx, htx', hsame⟩
  · intro g hg
    constructor
    · intro hmem
      exact (h.txs g hmem).resolve_right fun hnew => hg (htxids g hnew)
    · intro hmem
      obtain ⟨tx, htx⟩ := mem_iff_getElem?.mp hmem
      obtain ⟨tx', htx', -⟩ := h.old g tx htx
      exact mem_iff_getElem?.mpr ⟨tx', htx'⟩
  · intro t ht
    refine get_eq_of_lists_iff h.indexed.linked.noEmpty h₀.linked.noEmpty fun k => ?_
    refine ⟨fun hl => ?_, h.mono t k⟩
    by_contra hn
    exact ht (hdsps t ((h.noted t).mpr ⟨k, hl, hn⟩))

/-- What `addNewTxs` does, whatever the new transactions are. -/
theorem addNewTxs_covers {mp : Mempool} (h : Indexed mp) {affected : HashSet} {news : List NewTx}
    (hnodup : (news.map NewTx.hash).Nodup) (hfresh : ∀ nt ∈ news, nt.hash ∉ mp.txs)
    {r : Mempool × HashSet × MempoolStats}
    (hok : addNewTxs H getTXOInfo mp affected news = .ok r) {T : HashSet}
    (htxids : ∀ nt ∈ news, nt.hash ∈ T) :
    Indexed r.1 ∧ Covers r.2.1 T r.2.2.dspTxsAffected mp r.1 ∧
      (∀ sh ∈ affected, sh ∈ r.2.1) ∧
      ∀ g, g ∈ r.1.txs ↔ g ∈ mp.txs ∨ g ∈ news.map NewTx.hash := by
  obtain ⟨s, hpass, rfl⟩ := exists_passes_of_ok hok
  have hstart := addFrame_start h affected fun g => news.any (·.hash == g)
  have hnew : ∀ nt ∈ news, (news.any (·.hash == nt.hash)) = true := by
    intro nt hnt
    rw [List.any_eq_true]
    exact ⟨nt, hnt, by simp⟩
  have hfirst := hstart.foldl_addTxOutputs (H := H) hnew hnodup hfresh
  obtain ⟨hframe, hmem⟩ := hfirst.addAllInputs hfresh
    (fun nt hnt => mem_txs_foldl_addTxOutputs.mpr (.inr (List.mem_map_of_mem hnt))) hpass
  have hsorted := hframe.sortAffected.spreadNew
  generalize hs₁ : ({ s with mp := Mempool.sortAffected s.scriptHashesAffected s.mp } :
    AddState) = s₁ at hsorted
  have hconclude : conclude s = finishDsps s₁ := by rw [← hs₁]; rfl
  have htxs : (Mempool.spreadNew s₁).mp.txs = s.mp.txs := by
    have hrest := finishDsps_noDsps s₁
    rw [finishDsps_eq_spreadNew] at hrest
    have heq := congrArg (fun r => r.mp.txs) hrest
    rw [← hs₁] at heq ⊢
    exact heq
  rw [hconclude, finishDsps_eq_spreadNew]
  refine ⟨hsorted.indexed, ?_, hsorted.affected, ?_⟩
  · refine hsorted.covers h ?_ ?_
    · intro g hg
      obtain ⟨nt, hnt, he⟩ := List.any_eq_true.mp hg
      rw [← beq_iff_eq.mp he]
      exact htxids nt hnt
    · -- a noted transaction has a proof, so it is among those linked to the noted ones
      intro t ht
      have hne : (Mempool.spreadNew s₁).dspTxsAffected.isEmpty = false := by
        rw [Std.ExtTreeSet.isEmpty_eq_false_iff]
        rintro he
        rw [he] at ht
        simp at ht
      obtain ⟨k, hl, -⟩ := (hsorted.noted t).mp ht
      simp only [addResult, hne, Bool.false_eq_true, if_false]
      exact hsorted.indexed.linked.mem_txsLinkedToTxs ht hl
  · intro g
    refine Iff.trans (b := g ∈ s.mp.txs) ?_ ?_
    · simp only [addResult]
      rw [htxs]
    · rw [hmem, mem_txs_foldl_addTxOutputs]

end Mempool
end Shulcrum
