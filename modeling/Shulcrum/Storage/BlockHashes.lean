import Shulcrum.Storage.UndoSize

/-!
# The cache of the transaction hashes of a block

`txHashesForBlockInBitcoindMemoryOrder` keeps the lists of hashes it has read by
height, and `undoLatestBlock` removes the list of the block it takes back.  The
guard of the blocks lock at the top of the function is a temporary object, so the
lock is free again at once: between the four steps of a call any block can be
added or undone.

**Results.**
* `blockTxids_of_reachable`: what the index has for a height are the ids of the
  block there.
* `blockHashes_coherent`: in the runs in which no block is undone while a call
  for it is between its reads and its insert, the cache has the hashes of the
  blocks of the chain only.
* `stale_blockHashes`: the run that breaks it otherwise.
-/

namespace Shulcrum
namespace Storage

open Invariant Flatten ChainIndex PreProcessedBlock

/-- The bytes of a number from the last one on, after those in `acc`. -/
def reverseBytesFrom : Nat → Nat → Nat → Nat
  | 0, _, acc => acc
  | k + 1, n, acc => reverseBytesFrom k (n / 256) (acc * 256 + n % 256)

/-- The hash with its 32 bytes in the opposite order, as the node keeps it in memory. -/
def reverseBytes (h : Hash) : Hash := BitVec.ofNat 256 (reverseBytesFrom 32 h.toNat 0)

/-- The ids of the transactions of the block at a height, as the index has them. -/
def ChainIndex.blockTxids (ix : ChainIndex) (height : Nat) : Option (List TxHash) :=
  ix.blkInfos[height]?.map fun bi => (ix.txNums.drop bi.txNum0).take bi.nTx

/-! ## What the index has for a height -/

/-- The index has the ids of the blocks. -/
structure BlockTxids (r : ChainRun) : Prop where
  length : r.blocks.length = r.state.index.blkInfos.length
  txids : ∀ h : Nat, r.state.index.blockTxids h =
    r.blocks[h]?.map fun b => b.vtx.map CTransaction.hash

section Txids

variable {H : Hashers} {opts : Options} {valid : List CBlock → CBlock → Prop} {r r' : ChainRun}

theorem blockTxids_connect {ix : ChainIndex} {b : CBlock} {ppb : PreProcessedBlock}
    {ch : BlockChanges} (hw : WellFormed ix) (hc : Connected H opts ix b ppb ch) (h : Nat) :
    (nextIndex opts ix ppb ch).blockTxids h =
      if h = ix.blkInfos.length then some (b.vtx.map CTransaction.hash) else ix.blockTxids h := by
  have hinfos : (nextIndex opts ix ppb ch).blkInfos =
      ix.blkInfos ++ [⟨ix.txNumNext, ppb.txInfos.length⟩] := rfl
  have hnums : (nextIndex opts ix ppb ch).txNums = ix.txNums ++ b.vtx.map CTransaction.hash := by
    rw [← hc.prepared.hashes]
    rfl
  rw [blockTxids, hinfos, hnums, get_concat]
  split_ifs with hnew
  · have hdrop : (ix.txNums ++ b.vtx.map CTransaction.hash).drop ix.txNumNext =
        b.vtx.map CTransaction.hash := by
      rw [← hw.txNums_length, List.drop_left]
    rw [Option.map_some, hdrop, hc.nTx, List.take_of_length_le (by rw [List.length_map])]
  · rw [blockTxids]
    cases hget : ix.blkInfos[h]? with
    | none => rfl
    | some bi =>
        have hle : bi.txNum0 + bi.nTx ≤ ix.txNums.length := by
          rw [hw.txNums_length]
          exact hw.blkInfo_le hget
        rw [Option.map_some, Option.map_some, List.drop_append_of_le_length (by omega),
          List.take_append_of_le_length (by rw [List.length_drop]; omega)]

theorem blockTxids_disconnect {ix ix' : ChainIndex} {prevHeight : Nat} {prevHeader : Header}
    {u : UndoInfo} (hw : WellFormed ix) (hu : RecordOk ix (prevHeight + 1) u)
    (htip : ix.blkInfos.length = prevHeight + 2)
    (hd : ix.disconnectBlock prevHeight prevHeader u = .ok ix') (h : Nat) :
    ix'.blockTxids h = if h < prevHeight + 1 then ix.blockTxids h else none := by
  obtain ⟨shist, table, -, -, rfl⟩ := disconnectBlock_eq_ok hd
  simp only [blockTxids]
  split_ifs with hlt
  · rw [List.dropLast_eq_take, List.getElem?_take_of_lt (by omega)]
    cases hget : ix.blkInfos[h]? with
    | none => rfl
    | some bi =>
        have hle := hu.end_le_start hw hget hlt
        rw [Option.map_some, Option.map_some, List.drop_take, List.take_take,
          min_eq_left (by omega)]
  · rw [List.getElem?_eq_none (by rw [List.length_dropLast]; omega), Option.map_none]

theorem BlockTxids.step (h : BlockTxids r) (hs : Sound r.state)
    (hstep : ChainStep H opts valid r r') : BlockTxids r' := by
  cases hstep with
  | @add b height blockSize blockHash rpaTask ppb saveUndo notifySubs trackRecent s notify hfill _
      hfits hadd =>
      obtain ⟨ch, hc, hindex, -⟩ := connected_of_addBlock hfill hfits hadd
      have hinfos : s.index.blkInfos.length = r.state.index.blkInfos.length + 1 := by
        rw [hindex]
        exact List.length_append
      refine ⟨by rw [List.length_append, List.length_singleton, hinfos, h.length], fun k => ?_⟩
      rw [hindex, blockTxids_connect hs.wellFormed hc, get_concat, h.length, h.txids]
      split_ifs <;> rfl
  | reject hadd =>
      obtain ⟨recent, hconf⟩ := confirmInMempool_eq r.state _ _ _
      rw [state_of_rejected hadd, hconf]
      exact ⟨h.length, h.txids⟩
  | @undo notifySubs u hundo =>
      obtain ⟨prevHeader, info, hv, -, hget, hd, -, -⟩ := undoLatestBlock_eq_ok hundo
      obtain ⟨-, htip⟩ := WellFormed.tip_eq hs.wellFormed hv
      have hrec := hs.recorded.records _ _ hget
      have hinfos : u.state.index.blkInfos = r.state.index.blkInfos.dropLast := by
        obtain ⟨shist, table, -, -, hindex⟩ := disconnectBlock_eq_ok hd
        rw [hindex]
      have hlen := h.length
      refine ⟨by rw [hinfos, List.length_dropLast, List.length_dropLast, hlen], fun k => ?_⟩
      rw [blockTxids_disconnect hs.wellFormed hrec htip hd, h.txids, List.dropLast_eq_take]
      split_ifs with hk
      · rw [List.getElem?_take_of_lt (by omega)]
      · rw [List.getElem?_eq_none (by rw [List.length_take]; omega), Option.map_none]
  | mempool mp => exact ⟨h.length, h.txids⟩

/-- The index has the ids of the blocks in every run. -/
theorem blockTxids_of_reachable (h : Reachable ChainRun.Start (ChainStep H opts valid) r) :
    Sound r.state ∧ BlockTxids r := by
  refine Reachable.invariant (I := fun r => Sound r.state ∧ BlockTxids r) ?_ ?_ h
  · rintro _ rfl
    exact ⟨⟨wellFormed_empty, recorded_empty⟩, rfl, fun h => rfl⟩
  · rintro r r' ⟨hs, htxids⟩ hstep
    exact ⟨hs.step hstep, htxids.step hs hstep⟩

end Txids

/-! ## The steps of a call -/

/-- How far a call of `txHashesForBlockInBitcoindMemoryOrder` has come. -/
inductive HashesStage where
  | begun
  | missed
  /-- The numbers of the block are read: the first one and how many there are. -/
  | ranged (txNum0 nTx : Nat)
  /-- The hashes are read and reversed. -/
  | read (hashes : List TxHash)
  deriving DecidableEq

structure HashesCall where
  height : Nat
  stage : HashesStage := .begun
  deriving DecidableEq

/-- The storage, the cache and the calls under way.  An answer is kept with the chain at the time
it was given. -/
structure HashesWorld where
  run : ChainRun
  lruHeight2Hashes : Nat → Option (List TxHash) := fun _ => none
  calls : List HashesCall := []
  answers : List (Nat × List TxHash × List CBlock) := []

namespace HashesWorld

/-- The `k`-th call answers and is over. -/
def answer (w : HashesWorld) (k height : Nat) (hashes : List TxHash) : HashesWorld :=
  { w with
    calls := w.calls.eraseIdx k
    answers := (height, hashes, w.run.blocks) :: w.answers }

/-- The next step of the `k`-th call up to the insert; each step is under a lock of its own. -/
def advance (w : HashesWorld) (k : Nat) (call : HashesCall) : HashesWorld :=
  match call.stage with
  | .begun =>
      match w.lruHeight2Hashes call.height with
      | some hashes => w.answer k call.height hashes
      | none => { w with calls := w.calls.set k { call with stage := .missed } }
  | .missed =>
      match w.run.state.index.blkInfos[call.height]? with
      | none => w.answer k call.height []
      | some bi => { w with calls := w.calls.set k { call with stage := .ranged bi.txNum0 bi.nTx } }
  | .ranged txNum0 nTx =>
      let vec := (w.run.state.index.txNums.drop txNum0).take nTx
      if vec.length ≠ nTx then w.answer k call.height []
      else { w with calls := w.calls.set k { call with stage := .read (vec.map reverseBytes) } }
  | .read hashes => w.answer k call.height hashes

end HashesWorld

/-- A cache after an insert: it has the new entry or refused it, and it may have dropped others. -/
def Inserted (cache cache' : Nat → Option (List TxHash)) (height : Nat) (hashes : List TxHash) :
    Prop :=
  ∀ k l, cache' k = some l → (k = height ∧ l = hashes) ∨ cache k = some l

theorem inserted_self (cache : Nat → Option (List TxHash)) (height : Nat) (hashes : List TxHash) :
    Inserted cache (Function.update cache height (some hashes)) height hashes := by
  intro k l hk
  rw [Function.update_apply] at hk
  split_ifs at hk with heq
  · exact .inl ⟨heq, (Option.some.inj hk).symm⟩
  · exact .inr hk

/-- The steps of the calls and of the chain.  A block is undone in the states `guard` allows. -/
inductive HashesStep (H : Hashers) (opts : Options) (valid : List CBlock → CBlock → Prop)
    (guard : HashesWorld → Prop) : HashesWorld → HashesWorld → Prop
  | call {w : HashesWorld} (height : Nat) :
      HashesStep H opts valid guard w { w with calls := w.calls ++ [{ height := height }] }
  | advance {w : HashesWorld} {k : Nat} {call : HashesCall} :
      w.calls[k]? = some call → (∀ hashes, call.stage ≠ .read hashes) →
      HashesStep H opts valid guard w (w.advance k call)
  | insert {w : HashesWorld} {k height : Nat} {hashes : List TxHash}
      {cache : Nat → Option (List TxHash)} :
      w.calls[k]? = some ⟨height, .read hashes⟩ →
      Inserted w.lruHeight2Hashes cache height hashes →
      HashesStep H opts valid guard w
        ({ w with lruHeight2Hashes := cache }.advance k ⟨height, .read hashes⟩)
  /-- A step of the chain that takes no block back. -/
  | chain {w : HashesWorld} {r : ChainRun} :
      ChainStep H opts valid w.run r → w.run.blocks <+: r.blocks →
      HashesStep H opts valid guard w { w with run := r }
  | undo {w : HashesWorld} {notifySubs : Bool} {u : Undone} :
      undoLatestBlock H w.run.state notifySubs = .ok u → guard w →
      HashesStep H opts valid guard w
        { w with
          run := { state := u.state, blocks := w.run.blocks.dropLast }
          lruHeight2Hashes := fun k =>
            if k = u.prevHeight + 1 then none else w.lruHeight2Hashes k }

/-- The hashes of the block at a height, in the order of the node. -/
def hashesAt (blocks : List CBlock) (height : Nat) : Option (List TxHash) :=
  blocks[height]?.map fun b => b.vtx.map fun tx => reverseBytes tx.hash

/-- No call for the latest block is between its reads and its insert. -/
def Undisturbed (w : HashesWorld) : Prop :=
  ∀ call ∈ w.calls, call.height + 1 = w.run.blocks.length →
    call.stage = .begun ∨ call.stage = .missed

/-- What the undisturbed runs keep. -/
structure HashesInv (w : HashesWorld) : Prop where
  sound : Sound w.run.state
  txids : BlockTxids w.run
  cache : ∀ h l, w.lruHeight2Hashes h = some l → hashesAt w.run.blocks h = some l
  ranged : ∀ call ∈ w.calls, ∀ txNum0 nTx, call.stage = .ranged txNum0 nTx →
    w.run.state.index.blkInfos[call.height]? = some ⟨txNum0, nTx⟩
  read : ∀ call ∈ w.calls, ∀ l, call.stage = .read l → hashesAt w.run.blocks call.height = some l
  /-- An answer was right when it was given. -/
  answers : ∀ a ∈ w.answers, a.2.1 ≠ [] → hashesAt a.2.2 a.1 = some a.2.1

section Coherence

variable {H : Hashers} {opts : Options} {valid : List CBlock → CBlock → Prop} {w w' : HashesWorld}

/-- What is read for the numbers of a block are its hashes. -/
theorem HashesInv.hashes_of_range (h : HashesInv w) {height txNum0 nTx : Nat}
    (hget : w.run.state.index.blkInfos[height]? = some ⟨txNum0, nTx⟩) :
    hashesAt w.run.blocks height =
      some (((w.run.state.index.txNums.drop txNum0).take nTx).map reverseBytes) := by
  have htxids := h.txids.txids height
  rw [blockTxids, hget, Option.map_some] at htxids
  obtain ⟨b, hb, heq⟩ := Option.map_eq_some_iff.mp htxids.symm
  rw [hashesAt, hb, Option.map_some, ← heq, List.map_map]
  rfl

theorem HashesInv.answer (h : HashesInv w) {k height : Nat} {hashes : List TxHash}
    (hans : hashes ≠ [] → hashesAt w.run.blocks height = some hashes) :
    HashesInv (w.answer k height hashes) := by
  refine ⟨h.sound, h.txids, h.cache, ?_, ?_, ?_⟩
  · exact fun call hcall => h.ranged call (List.mem_of_mem_eraseIdx hcall)
  · exact fun call hcall => h.read call (List.mem_of_mem_eraseIdx hcall)
  · intro a ha
    rcases List.mem_cons.mp ha with rfl | ha
    · exact hans
    · exact h.answers a ha

/-- A call that goes on to a stage whose data are right. -/
theorem HashesInv.set (h : HashesInv w) {k : Nat} {call : HashesCall}
    (hranged : ∀ txNum0 nTx, call.stage = .ranged txNum0 nTx →
      w.run.state.index.blkInfos[call.height]? = some ⟨txNum0, nTx⟩)
    (hread : ∀ l, call.stage = .read l → hashesAt w.run.blocks call.height = some l) :
    HashesInv { w with calls := w.calls.set k call } := by
  refine ⟨h.sound, h.txids, h.cache, ?_, ?_, h.answers⟩
  · intro c hc
    rcases List.mem_or_eq_of_mem_set hc with hc | rfl
    · exact h.ranged c hc
    · exact hranged
  · intro c hc
    rcases List.mem_or_eq_of_mem_set hc with hc | rfl
    · exact h.read c hc
    · exact hread

theorem HashesInv.advance (h : HashesInv w) {k : Nat} {call : HashesCall} (hcall : call ∈ w.calls) :
    HashesInv (w.advance k call) := by
  rw [HashesWorld.advance]
  split
  · split
    · next hashes hhit => exact h.answer fun _ => h.cache _ _ hhit
    · exact h.set (fun _ _ hst => by cases hst) (fun _ hst => by cases hst)
  · split
    · exact h.answer fun hne => absurd rfl hne
    · next bi hget =>
        refine h.set (fun txNum0 nTx hst => ?_) (fun _ hst => by cases hst)
        cases hst
        exact hget
  · next txNum0 nTx hst =>
      dsimp only
      split_ifs with hlen
      · exact h.answer fun hne => absurd rfl hne
      · refine h.set (fun _ _ hst' => by cases hst') (fun l hst' => ?_)
        cases hst'
        exact h.hashes_of_range (h.ranged call hcall _ _ hst)
  · next hashes hst => exact h.answer fun _ => h.read call hcall _ hst

theorem get_of_prefix {α : Type} {l l' : List α} (h : l <+: l') {i : Nat} {a : α}
    (hget : l[i]? = some a) : l'[i]? = some a := by
  obtain ⟨t, rfl⟩ := h
  rw [List.getElem?_append_left (List.getElem?_eq_some_iff.mp hget).1]
  exact hget

/-- A chain that keeps its blocks keeps their numbers. -/
theorem blkInfos_prefix {r r' : ChainRun} (hs : Sound r.state) (htxids : BlockTxids r)
    (hstep : ChainStep H opts valid r r') (hblocks : r.blocks <+: r'.blocks) :
    r.state.index.blkInfos <+: r'.state.index.blkInfos := by
  cases hstep with
  | add hfill _ hfits hadd =>
      obtain ⟨ch, hc, hindex, -⟩ := connected_of_addBlock hfill hfits hadd
      rw [hindex]
      exact List.prefix_append _ _
  | reject hadd =>
      obtain ⟨recent, hconf⟩ := confirmInMempool_eq r.state _ _ _
      rw [state_of_rejected hadd, hconf]
  | undo hundo =>
      obtain ⟨-, -, hv, -, -, -, -, -⟩ := undoLatestBlock_eq_ok hundo
      obtain ⟨-, htip⟩ := WellFormed.tip_eq hs.wellFormed hv
      have hlen := hblocks.length_le
      have heq := htxids.length
      rw [List.length_dropLast] at hlen
      omega
  | mempool mp => exact List.prefix_rfl

theorem HashesInv.step (h : HashesInv w) (hstep : HashesStep H opts valid Undisturbed w w') :
    HashesInv w' := by
  cases hstep with
  | call height =>
      refine ⟨h.sound, h.txids, h.cache, ?_, ?_, h.answers⟩
      · intro c hc
        rcases List.mem_append.mp hc with hc | hc
        · exact h.ranged c hc
        · obtain rfl := List.mem_singleton.mp hc
          exact fun _ _ hst => by cases hst
      · intro c hc
        rcases List.mem_append.mp hc with hc | hc
        · exact h.read c hc
        · obtain rfl := List.mem_singleton.mp hc
          exact fun _ hst => by cases hst
  | advance hget _ => exact h.advance (List.mem_of_getElem? hget)
  | @insert k height hashes cache hget hins =>
      have hcall := List.mem_of_getElem? hget
      have hcached : HashesInv { w with lruHeight2Hashes := cache } := by
        refine ⟨h.sound, h.txids, ?_, h.ranged, h.read, h.answers⟩
        intro j l hj
        rcases hins j l hj with ⟨rfl, rfl⟩ | hold
        · exact h.read _ hcall _ rfl
        · exact h.cache j l hold
      exact hcached.advance hcall
  | @chain r hstep hblocks =>
      have hprefix := blkInfos_prefix h.sound h.txids hstep hblocks
      have hkeep : ∀ {j l}, hashesAt w.run.blocks j = some l → hashesAt r.blocks j = some l := by
        intro j l hj
        obtain ⟨b, hb, heq⟩ := Option.map_eq_some_iff.mp hj
        rw [hashesAt, get_of_prefix hblocks hb, Option.map_some, heq]
      refine ⟨h.sound.step hstep, h.txids.step h.sound hstep, ?_, ?_, ?_, h.answers⟩
      · exact fun j l hj => hkeep (h.cache j l hj)
      · exact fun c hc n0 n hst => get_of_prefix hprefix (h.ranged c hc n0 n hst)
      · exact fun c hc l hst => hkeep (h.read c hc l hst)
  | @undo notifySubs u hundo hguard =>
      obtain ⟨prevHeader, info, hv, -, hget, hd, -, -⟩ := undoLatestBlock_eq_ok hundo
      obtain ⟨-, htip⟩ := WellFormed.tip_eq h.sound.wellFormed hv
      have hlen := h.txids.length
      have hinfos : u.state.index.blkInfos = w.run.state.index.blkInfos.dropLast := by
        obtain ⟨shist, table, -, -, hindex⟩ := disconnectBlock_eq_ok hd
        rw [hindex]
      have hstep : ChainStep H opts valid w.run _ := .undo hundo
      -- what is below the block that goes stays
      have hkeep : ∀ {j l}, hashesAt w.run.blocks j = some l → j ≠ u.prevHeight + 1 →
          hashesAt w.run.blocks.dropLast j = some l := by
        intro j l hj hne
        obtain ⟨b, hb, heq⟩ := Option.map_eq_some_iff.mp hj
        have hlt := (List.getElem?_eq_some_iff.mp hb).1
        rw [hashesAt, List.dropLast_eq_take, List.getElem?_take_of_lt (by omega), hb,
          Option.map_some, heq]
      have hquiet : ∀ c ∈ w.calls, c.stage ≠ .begun → c.stage ≠ .missed →
          c.height ≠ u.prevHeight + 1 := by
        intro c hc h1 h2 heq
        rcases hguard c hc (by omega) with hst | hst
        · exact h1 hst
        · exact h2 hst
      refine ⟨h.sound.undo hundo, h.txids.step h.sound hstep, ?_, ?_, ?_, h.answers⟩
      · intro j l hj
        simp only at hj
        split_ifs at hj with hne
        exact hkeep (h.cache j l hj) hne
      · intro c hc n0 n hst
        have hne := hquiet c hc (by simp [hst]) (by simp [hst])
        have hold := h.ranged c hc n0 n hst
        have hlt := (List.getElem?_eq_some_iff.mp hold).1
        simp only [hinfos]
        rw [List.dropLast_eq_take, List.getElem?_take_of_lt (by omega)]
        exact hold
      · intro c hc l hst
        exact hkeep (h.read c hc l hst) (hquiet c hc (by simp [hst]) (by simp [hst]))

/-- The storage is empty, and nothing was asked yet. -/
def HashesWorld.Start (w : HashesWorld) : Prop := w = { run := { state := {}, blocks := [] } }

theorem hashesInv_start (h : w.Start) : HashesInv w := by
  cases h
  refine ⟨⟨wellFormed_empty, recorded_empty⟩, ⟨rfl, fun h => rfl⟩, ?_, ?_, ?_, ?_⟩
  all_goals simp

/--
In every run in which no block is undone while a call for it is between its
reads and its insert: a cached list is the list of the hashes of the block now at
that height, and every list that a call has answered with was that of the block
at the height when it was given.
-/
theorem blockHashes_coherent
    (h : Reachable HashesWorld.Start (HashesStep H opts valid Undisturbed) w) :
    (∀ height hashes, w.lruHeight2Hashes height = some hashes →
      hashesAt w.run.blocks height = some hashes) ∧
    ∀ height hashes blocks, (height, hashes, blocks) ∈ w.answers → hashes ≠ [] →
      hashesAt blocks height = some hashes := by
  have hinv : HashesInv w :=
    Reachable.invariant (I := HashesInv) (fun _ hw => hashesInv_start hw)
      (fun _ _ hw hstep => hw.step hstep) h
  exact ⟨hinv.cache, fun height hashes blocks ha => hinv.answers _ ha⟩

end Coherence

section SmallChain

open Mempool

variable {guard : HashesWorld → Prop}

/-- The numbers of a block of a run give its ids. -/
theorem exists_range {H : Hashers} {opts : Options} {valid : List CBlock → CBlock → Prop}
    {r : ChainRun} {height : Nat} {b : CBlock}
    (h : Reachable ChainRun.Start (ChainStep H opts valid) r) (hb : r.blocks[height]? = some b) :
    ∃ bi, r.state.index.blkInfos[height]? = some bi ∧ bi.nTx = b.vtx.length ∧
      (r.state.index.txNums.drop bi.txNum0).take bi.nTx = b.vtx.map CTransaction.hash := by
  obtain ⟨hsound, htxids⟩ := blockTxids_of_reachable h
  have hids := htxids.txids height
  rw [hb, Option.map_some] at hids
  obtain ⟨bi, hget, hbi⟩ := Option.map_eq_some_iff.mp hids
  have hle := hsound.wellFormed.blkInfo_le hget
  have hlen := congrArg List.length hbi
  rw [List.length_take, List.length_drop, hsound.wellFormed.txNums_length, List.length_map] at hlen
  exact ⟨bi, hget, by omega, hbi⟩

/-- A call that finds nothing in the cache and has read the hashes of the block. -/
theorem reachable_read {H : Hashers} {opts : Options} {valid : List CBlock → CBlock → Prop}
    {w : HashesWorld} {height : Nat} {b : CBlock}
    (h : Reachable HashesWorld.Start (HashesStep H opts valid guard) w) (hcalls : w.calls = [])
    (hmiss : w.lruHeight2Hashes height = none)
    (hrun : Reachable ChainRun.Start (ChainStep H opts valid) w.run)
    (hb : w.run.blocks[height]? = some b) :
    Reachable HashesWorld.Start (HashesStep H opts valid guard)
      { w with
        calls := [⟨height, .read ((b.vtx.map CTransaction.hash).map reverseBytes)⟩] } := by
  obtain ⟨bi, hget, hnTx, hbi⟩ := exists_range hrun hb
  have h1 := h.next (.call height)
  rw [hcalls, List.nil_append] at h1
  have h2 := h1.next (.advance (k := 0) rfl fun _ hst => by cases hst)
  simp only [HashesWorld.advance, hmiss] at h2
  have h3 := h2.next (.advance (k := 0) rfl fun _ hst => by cases hst)
  simp only [HashesWorld.advance, hget] at h3
  have h4 := h3.next (.advance (k := 0) rfl fun _ hst => by cases hst)
  have hlen : (b.vtx.map CTransaction.hash).length = bi.nTx := by rw [List.length_map, hnTx]
  simpa only [HashesWorld.advance, List.set_cons_zero, hbi, hlen, ne_eq, not_true_eq_false,
    if_false] using h4

/-- A call for the second block has read its hashes. -/
theorem exists_read_second : ∃ (s : State) (u : Undone),
    Reachable HashesWorld.Start (HashesStep opTrueHashers {} (fun _ _ => True) guard)
        { run := { state := s, blocks := [firstBlock, secondBlock 0] }
          calls := [⟨1, .read [reverseBytes 8, reverseBytes 2, reverseBytes 1]⟩] } ∧
      Reachable ChainRun.Start (ChainStep opTrueHashers {} fun _ _ => True)
        { state := u.state, blocks := [firstBlock] } ∧
      undoLatestBlock opTrueHashers s true = .ok u ∧ u.prevHeight = 0 ∧
      u.state.index = firstState.index := by
  obtain ⟨s, notify, u, hadd, hundo, hheight, hsame⟩ := exists_undone_second
  have hfirst : ChainStep opTrueHashers {} (fun _ _ => True) { state := {}, blocks := [] }
      { state := firstState, blocks := [firstBlock] } := by
    have hfill : fill opTrueHashers 0 none 0 100 firstBlock = .ok (prepared 0 firstBlock) := rfl
    have hadd : addBlock opTrueHashers {} {} (prepared 0 firstBlock) true false false =
        .ok firstState none := rfl
    exact .add hfill trivial (by decide) hadd
  have hsecond : ChainStep opTrueHashers {} (fun _ _ => True)
      { state := firstState, blocks := [firstBlock] }
      { state := s, blocks := [firstBlock] ++ [secondBlock 0] } := by
    have hfill : fill opTrueHashers 1 none 0 100 (secondBlock 0) =
        .ok (prepared 1 (secondBlock 0)) := rfl
    exact .add hfill trivial (by decide) hadd
  have hrun : Reachable ChainRun.Start (ChainStep opTrueHashers {} fun _ _ => True)
      { state := s, blocks := [firstBlock] ++ [secondBlock 0] } :=
    .next (.next (.start rfl) hfirst) hsecond
  have hworld : Reachable HashesWorld.Start (HashesStep opTrueHashers {} (fun _ _ => True) guard)
      { run := { state := s, blocks := [firstBlock] ++ [secondBlock 0] } } :=
    .next (.next (.start rfl) (.chain hfirst List.nil_prefix))
      (.chain hsecond (List.prefix_append _ _))
  have hget : ([firstBlock] ++ [secondBlock 0])[1]? = some (secondBlock 0) := rfl
  exact ⟨s, u, reachable_read hworld rfl rfl hrun hget, hrun.next (.undo hundo), hundo, hheight,
    hsame⟩

/-- Another block comes after the first one when the second is undone. -/
theorem exists_other_second {u : Undone} {w : HashesWorld}
    (hworld : Reachable HashesWorld.Start (HashesStep opTrueHashers {} (fun _ _ => True) guard) w)
    (hrun : w.run = { state := u.state, blocks := [firstBlock] })
    (hreach : Reachable ChainRun.Start (ChainStep opTrueHashers {} fun _ _ => True)
      { state := u.state, blocks := [firstBlock] })
    (hsame : u.state.index = firstState.index) (h : (9 : TxHash) ≠ 0) :
    ∃ r : ChainRun, r.blocks = [firstBlock, coinbaseBlock 9 h] ∧
      Reachable ChainRun.Start (ChainStep opTrueHashers {} fun _ _ => True) r ∧
      Reachable HashesWorld.Start (HashesStep opTrueHashers {} (fun _ _ => True) guard)
        { w with run := r } := by
  have hfits : u.state.index.txNumNext + 1 ≤ txNumMax + 1 := by
    rw [hsame]
    decide
  obtain ⟨s, hstep⟩ : ∃ s, ChainStep opTrueHashers {} (fun _ _ => True)
      { state := u.state, blocks := [firstBlock] }
      { state := s, blocks := [firstBlock] ++ [coinbaseBlock 9 h] } :=
    step_coinbaseBlock blockHeaderSize_default (sound_of_reachable hreach).wellFormed hfits h
      trivial
  refine ⟨_, rfl, hreach.next hstep, hworld.next (.chain ?_ ?_)⟩
  · rw [hrun]
    exact hstep
  · rw [hrun]
    exact List.prefix_append _ _

/-- The hashes of the second block are in the cache, until it is undone and another one comes. -/
theorem blockHashes_coherent_second : ∃ (w : HashesWorld) (hashes : List TxHash),
    Reachable HashesWorld.Start (HashesStep opTrueHashers {} (fun _ _ => True) Undisturbed) w ∧
      w.calls = [] ∧
      w.answers =
        [(1, hashes, w.run.blocks),
          (1, [reverseBytes 8, reverseBytes 2, reverseBytes 1], [firstBlock, secondBlock 0])] ∧
      w.lruHeight2Hashes 1 = some hashes ∧ hashesAt w.run.blocks 1 = some hashes := by
  obtain ⟨s, u, hread, hreach, hundo, hheight, hsame⟩ := @exists_read_second Undisturbed
  have hcached := hread.next (.insert (k := 0) rfl (inserted_self _ 1 _))
  have hundone := hcached.next (.undo hundo fun call hcall => nomatch hcall)
  have hnine : (9 : TxHash) ≠ 0 := by decide
  obtain ⟨r, hblocks, hrun, hworld⟩ := exists_other_second hundone rfl hreach hsame hnine
  have hget : r.blocks[1]? = some (coinbaseBlock 9 hnine) := by
    rw [hblocks]
    rfl
  have hagain := reachable_read hworld rfl (if_pos (by omega)) hrun hget
  have hfinal := hagain.next (.insert (k := 0) rfl (inserted_self _ 1 _))
  exact ⟨_, _, hfinal, rfl, rfl, rfl, (blockHashes_coherent hfinal).1 1 _ rfl⟩

/--
A call has read the hashes of the second block when the block is undone.  It puts
them into the cache, where they stay when another block comes at that height.
-/
theorem stale_blockHashes : ∃ (w : HashesWorld) (hashes : List TxHash),
    Reachable HashesWorld.Start
        (HashesStep opTrueHashers {} (fun _ _ => True) fun _ => True) w ∧
      w.calls = [] ∧ w.lruHeight2Hashes 1 = some hashes ∧
      hashesAt w.run.blocks 1 = some [reverseBytes 9] ∧ hashes ≠ [reverseBytes 9] := by
  obtain ⟨s, u, hread, hreach, hundo, -, hsame⟩ := @exists_read_second fun _ => True
  have hundone := hread.next (.undo hundo trivial)
  have hcached := hundone.next (.insert (k := 0) rfl (inserted_self _ 1 _))
  have hnine : (9 : TxHash) ≠ 0 := by decide
  obtain ⟨r, hblocks, -, hworld⟩ := exists_other_second hcached rfl hreach hsame hnine
  refine ⟨_, _, hworld, rfl, rfl, ?_, ?_⟩
  · simp only [hblocks]
    rfl
  · intro heq
    cases congrArg List.length heq

end SmallChain

end Storage
end Shulcrum
