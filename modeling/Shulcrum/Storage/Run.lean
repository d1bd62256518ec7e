import Shulcrum.Lib.Invariant
import Shulcrum.Storage.HeaderRejection
import Shulcrum.Storage.Records

/-!
# Runs of the storage

A run adds and undoes blocks in any order, starting from an empty database.
Blocks may be rejected for their header, and others change the mempool between
two calls.  Whatever the blocks were, the index stays well formed and the undo
records stay right, so that the next block can be added and taken back.

**Results.**
* `addBlock_eq_ok`, `undoLatestBlock_eq_ok`: what successful calls have done.
* `sound_of_reachable`: the invariant of all runs.
* `undo_connected_iff`: undoing a block that was just added restores the index,
  if its record and the rows of its ids can be read.
-/

namespace Shulcrum
namespace Storage

open Invariant TreeMap ChainIndex PreProcessedBlock

variable {H : Hashers} {opts : Options}

section Calls

variable {s s' : State} {ppb : PreProcessedBlock} {saveUndo notifySubs trackRecent : Bool}
  {notify : Option NotifyData}

/-- The undo table after a block at `height`, before an old record expires. -/
def savedRecords (s : State) (height : Nat) (undo : Option UndoInfo) :
    Std.ExtTreeMap Nat UndoInfo compare :=
  undo.elim s.undo (s.undo.insert height)

/-- The second table is the first, perhaps without the record that expires at `height`. -/
def Expired (opts : Options) (height : Nat) (table table' : Std.ExtTreeMap Nat UndoInfo compare) :
    Prop :=
  table' = table ∨ opts.maxReorg ≤ height ∧ table' = table.erase (height - opts.maxReorg)

/-- Saving a record may let an old one expire, and does not touch the index. -/
theorem saveUndoInfo_eq (s : State) (height : Nat) (undo : Option UndoInfo) :
    (saveUndoInfo opts s height undo).index = s.index ∧
      Expired opts height (savedRecords s height undo) (saveUndoInfo opts s height undo).undo := by
  cases undo with
  | none =>
      simp only [saveUndoInfo, savedRecords, Option.elim_none]
      split_ifs with hold
      · exact ⟨rfl, .inr ⟨hold.1, rfl⟩⟩
      · exact ⟨rfl, .inl rfl⟩
  | some u =>
      simp only [saveUndoInfo, savedRecords, Option.elim_some]
      split_ifs with hfirst hold hold
      · exact ⟨rfl, .inr ⟨hold.1, rfl⟩⟩
      · exact ⟨rfl, .inl rfl⟩
      · exact ⟨rfl, .inr ⟨hold.1, rfl⟩⟩
      · exact ⟨rfl, .inl rfl⟩

theorem mempool_saveUndoInfo (s : State) (height : Nat) (undo : Option UndoInfo) :
    (saveUndoInfo opts s height undo).mempool = s.mempool := by
  cases undo with
  | none =>
      simp only [saveUndoInfo]
      split_ifs <;> rfl
  | some u =>
      simp only [saveUndoInfo]
      split_ifs <;> rfl

/-- The undo table and its earliest height. -/
def State.undoWindow (s : State) : Std.ExtTreeMap Nat UndoInfo compare × Nat :=
  (s.undo, s.earliestUndoHeight)

/-- Only the undo table and its earliest height matter. -/
theorem undoWindow_saveUndoInfo {s₁ s₂ : State} (h : s₁.undoWindow = s₂.undoWindow) (height : Nat)
    (undo : Option UndoInfo) :
    (saveUndoInfo opts s₁ height undo).undoWindow =
      (saveUndoInfo opts s₂ height undo).undoWindow := by
  obtain ⟨htable, hearliest⟩ := Prod.mk.inj h
  cases undo with
  | none =>
      simp only [saveUndoInfo, htable, hearliest]
      split_ifs with hold
      · rfl
      · exact h
  | some u =>
      simp only [saveUndoInfo, htable, hearliest]
      split_ifs with hfirst hold hold
      · rfl
      · rfl
      · rfl
      · rfl

/-- What a successful call of `addBlock` has found and done. -/
theorem addBlock_inv
    (h : addBlock H opts s ppb saveUndo notifySubs trackRecent = .ok s' notify) :
    ∃ ch, blockChanges s.index ppb = .ok ch ∧ ppb.height = s.index.headers.length ∧
      ppb.header.serialize.length ≤ opts.blockHeaderSize ∧
      s'.index = nextIndex opts s.index ppb ch ∧
      s'.undoWindow = (saveUndoInfo opts s ppb.height
        (if saveUndo then some (undoOf H s.index ppb ch) else none)).undoWindow ∧
      Expired opts ppb.height (savedRecords s ppb.height
        (if saveUndo then some (undoOf H s.index ppb ch) else none)) s'.undo ∧
      s'.mempool = (confirmInMempool s ppb notifySubs trackRecent).1.mempool ∧
      notify = (confirmInMempool s ppb notifySubs trackRecent).2.map fun nd =>
        { nd with
          scriptHashesAffected :=
            ch.hashXAggregated.keys.foldl (·.insert ·) nd.scriptHashesAffected } := by
  obtain ⟨recent, hconf⟩ := confirmInMempool_eq s ppb notifySubs trackRecent
  simp only [addBlock] at h
  rw [hconf] at h
  cases hv : s.index.headerVerifier.verify H.headerPoWHash ppb.header with
  | error e =>
      simp only [hv] at h
      cases h
  | ok v =>
      simp only [hv] at h
      cases hc : s.index.connectBlock H opts v ppb with
      | error e =>
          simp only [hc] at h
          cases h
      | ok r =>
          obtain ⟨ch, hch, hheight, hlen, hix, hu⟩ := connectBlock_eq_ok hv hc
          simp only [hc, hu, hix] at h
          cases hser : ppb.serializedRpaPrefixTable with
          | none =>
              simp only [hser] at h
              cases h
              obtain ⟨hsame, hsaved⟩ := saveUndoInfo_eq _ ppb.height _
              refine ⟨ch, hch, hheight, hlen, hsame, ?_, hsaved, ?_, rfl⟩
              · simp only [State.undoWindow]
                exact undoWindow_saveUndoInfo (by rfl) _ _
              · rw [hconf]
                exact mempool_saveUndoInfo _ _ _
          | some ser =>
              simp only [hser] at h
              cases h
              obtain ⟨hsame, hsaved⟩ := saveUndoInfo_eq _ ppb.height _
              refine ⟨ch, hch, hheight, hlen, hsame, ?_, hsaved, ?_, rfl⟩
              · simp only [State.undoWindow]
                exact undoWindow_saveUndoInfo (by rfl) _ _
              · rw [hconf]
                exact mempool_saveUndoInfo _ _ _

/-- What a successful call of `addBlock` has done to the index and the undo records. -/
theorem addBlock_eq_ok
    (h : addBlock H opts s ppb saveUndo notifySubs trackRecent = .ok s' notify) :
    ∃ ch, blockChanges s.index ppb = .ok ch ∧ ppb.height = s.index.headers.length ∧
      ppb.header.serialize.length ≤ opts.blockHeaderSize ∧
      s'.index = nextIndex opts s.index ppb ch ∧
      s'.undoWindow = (saveUndoInfo opts s ppb.height
        (if saveUndo then some (undoOf H s.index ppb ch) else none)).undoWindow ∧
      Expired opts ppb.height (savedRecords s ppb.height
        (if saveUndo then some (undoOf H s.index ppb ch) else none)) s'.undo := by
  obtain ⟨ch, hch, hheight, hlen, hindex, hwindow, hundo, -, -⟩ := addBlock_inv h
  exact ⟨ch, hch, hheight, hlen, hindex, hwindow, hundo⟩

/-- What a successful call of `addBlock` leaves in the mempool and reports. -/
theorem addBlock_notify
    (h : addBlock H opts s ppb saveUndo true trackRecent = .ok s' notify) :
    ∃ ch nd, blockChanges s.index ppb = .ok ch ∧ notify = some nd ∧
      s'.mempool =
        (s.mempool.confirmedInBlock (blockTxidMap s.index.txNumNext ppb) ppb.height ∅).1 ∧
      nd.scriptHashesAffected = ch.hashXAggregated.keys.foldl (·.insert ·)
        (s.mempool.confirmedInBlock (blockTxidMap s.index.txNumNext ppb) ppb.height ∅).2.1 ∧
      nd.txidsAffected = (ppb.txInfos.drop 1).foldl (fun set info => set.insert info.hash) ∅ := by
  obtain ⟨ch, hch, -, -, -, -, -, hmempool, hnotify⟩ := addBlock_inv h
  exact ⟨ch, _, hch, hnotify, hmempool, rfl, rfl⟩

theorem undoInfoSane_iff {tip : Nat} {header : Header} {u : UndoInfo} :
    undoInfoSane H s tip header u = true ↔
      u.height = tip ∧ u.hash = H.hashRev header ∧ tip < s.index.blkInfos.length ∧
        s.index.blkInfos.getLast? = some u.blkInfo := by
  simp [undoInfoSane, and_assoc]

/-- A record is read if an `int` holds its length. -/
theorem readUndo_eq_ok {tip : Nat} {u u' : UndoInfo} :
    readUndo tip u = .ok u' ↔ (UndoCodec.serialize u).length < 2 ^ 31 ∧ u' = u := by
  rw [readUndo]
  split_ifs with hlen
  · rw [Except.ok.injEq]
    exact ⟨fun heq => ⟨hlen, heq.symm⟩, fun h => h.2.symm⟩
  · constructor
    · intro h
      cases h
    · rintro ⟨hread, -⟩
      exact absurd hread hlen

/-- What a successful call of `undoLatestBlock` has found and done. -/
theorem undoLatestBlock_inv {r : Undone} (h : undoLatestBlock H s notifySubs = .ok r) :
    ∃ (prevHeader : Header) (u : UndoInfo),
      s.index.headerVerifier.prevHeight = (r.prevHeight : Int) + 1 ∧
      s.index.headers[r.prevHeight]? = some prevHeader ∧
      s.undo[r.prevHeight + 1]? = some u ∧ (UndoCodec.serialize u).length < 2 ^ 31 ∧
      s.index.disconnectBlock r.prevHeight (BTC.trimHeaderRecord prevHeader) u =
        .ok r.state.index ∧
      r.state.earliestUndoHeight = (if s.earliestUndoHeight ≥ r.prevHeight + 1 then
        invalidUndoHeight else s.earliestUndoHeight) ∧
      r.state.undo = s.undo.erase (r.prevHeight + 1) ∧
      r.state.mempool = s.mempool.clear ∧
      r.notify = if notifySubs then some
        { notifyClearedMempool s.mempool with
          scriptHashesAffected := u.scriptHashes.foldl (·.insert ·)
            (notifyClearedMempool s.mempool).scriptHashesAffected
          txidsAffected := ((s.index.txNums.drop u.blkInfo.txNum0).take u.blkInfo.nTx).foldl
            (·.insert ·) (notifyClearedMempool s.mempool).txidsAffected } else none := by
  simp only [undoLatestBlock] at h
  by_cases hstart : s.index.headerVerifier.prevHeight ≤ 0 ∨
      s.index.headerVerifier.prev.length ≠ BTC.headerSizeFor s.index.headerVerifier.prev
  · rw [if_pos hstart] at h
    cases h
  rw [if_neg hstart] at h
  obtain ⟨tip, htip⟩ : ∃ tip : Nat, s.index.headerVerifier.prevHeight = (tip : Int) + 1 := by
    refine ⟨(s.index.headerVerifier.prevHeight - 1).toNat, ?_⟩
    have hpos := not_le.mp (not_or.mp hstart).1
    omega
  have htoNat : s.index.headerVerifier.prevHeight.toNat = tip + 1 := by omega
  simp only [htoNat, Nat.add_sub_cancel] at h
  cases hheader : s.index.headerForHeight tip with
  | none =>
      rw [hheader] at h
      cases h
  | some prevHeader =>
      rw [hheader] at h
      obtain ⟨rec, hrec, rfl⟩ := Option.map_eq_some_iff.mp hheader
      cases hundo : s.undo[tip + 1]? with
      | none =>
          simp only [hundo] at h
          cases h
      | some u =>
          simp only [hundo] at h
          cases hread : readUndo (tip + 1) u with
          | error e =>
              rw [hread] at h
              cases h
          | ok u' =>
              obtain ⟨hlen, rfl⟩ := readUndo_eq_ok.mp hread
              simp only [hread] at h
              by_cases hsane : undoInfoSane H
                  { s with mempool := s.mempool.clear, recentBlockTxHashes := ∅ } (tip + 1)
                  s.index.headerVerifier.prev u' = true
              · rw [if_neg (not_not.mpr hsane)] at h
                obtain ⟨hheight, -⟩ := undoInfoSane_iff.mp hsane
                cases hrpa : s.rpa.deleteRpaEntriesFromHeight u'.height false with
                | error e =>
                    rw [hrpa] at h
                    cases h
                | ok rpa =>
                    rw [hrpa] at h
                    cases hd : s.index.disconnectBlock tip (BTC.trimHeaderRecord rec) u' with
                    | error e =>
                        simp only [hd] at h
                        cases h
                    | ok index =>
                        simp only [hd] at h
                        cases h
                        refine ⟨rec, u', htip, hrec, hundo, hlen, hd, ?_, ?_, rfl, ?_⟩
                        · simp only [hheight]
                        · simp only [hheight]
                        · cases notifySubs <;> rfl
              · rw [if_pos hsane] at h
                cases h

/-- What a successful call of `undoLatestBlock` has done to the index and the undo records. -/
theorem undoLatestBlock_eq_ok {r : Undone} (h : undoLatestBlock H s notifySubs = .ok r) :
    ∃ (prevHeader : Header) (u : UndoInfo),
      s.index.headerVerifier.prevHeight = (r.prevHeight : Int) + 1 ∧
      s.index.headers[r.prevHeight]? = some prevHeader ∧
      s.undo[r.prevHeight + 1]? = some u ∧
      s.index.disconnectBlock r.prevHeight (BTC.trimHeaderRecord prevHeader) u =
        .ok r.state.index ∧
      r.state.earliestUndoHeight = (if s.earliestUndoHeight ≥ r.prevHeight + 1 then
        invalidUndoHeight else s.earliestUndoHeight) ∧
      r.state.undo = s.undo.erase (r.prevHeight + 1) := by
  obtain ⟨prevHeader, u, hv, hheader, hundo, -, hd, hearliest, htable, -, -⟩ :=
    undoLatestBlock_inv h
  exact ⟨prevHeader, u, hv, hheader, hundo, hd, hearliest, htable⟩

/-- A block with a good header whose changes are known is accepted. -/
theorem addBlock_ok {ch : BlockChanges} (hw : WellFormed s.index)
    (hch : blockChanges s.index ppb = .ok ch) (hheight : ppb.height = s.index.headers.length)
    (hlen : ppb.header.serialize.length ≤ opts.blockHeaderSize)
    (hnull : ppb.header.isNull = false)
    (hlinks : s.index.headerVerifier.prev = [] ∨
      H.headerPoWHash s.index.headerVerifier.prev = ppb.header.hashPrevBlock) :
    ∃ s' notify, addBlock H opts s ppb saveUndo notifySubs trackRecent = .ok s' notify := by
  obtain ⟨recent, hconf⟩ := confirmInMempool_eq s ppb notifySubs trackRecent
  obtain ⟨v, hv⟩ : ∃ v, s.index.headerVerifier.verify H.headerPoWHash ppb.header = .ok v := by
    have hcheck : ∀ height, s.index.headerVerifier.checkInner H.headerPoWHash height ppb.header =
        .ok () := by
      intro height
      rw [BTC.HeaderVerifier.checkInner, if_neg (by simp [hnull]), if_neg]
      rintro ⟨hne, hbad⟩
      rcases hlinks with hnil | heq
      · exact hne hnil
      · exact hbad heq
    rw [BTC.HeaderVerifier.verify, if_neg (not_not.mpr (BTC.length_serialize _))]
    simp only [hcheck]
    exact ⟨_, rfl⟩
  have hc := connectBlock_ok hv hch hw.txNums_length hheight hlen
  simp only [addBlock, hconf, hv, hc]
  exact ⟨_, _, rfl⟩

/-- The latest block can be undone if its record can be read and the tables can be changed. -/
theorem undoLatestBlock_ok {prevHeight : Nat} {prevHeader : Header} {u : UndoInfo}
    {index : ChainIndex}
    (hv : s.index.headerVerifier.prevHeight = (prevHeight : Int) + 1)
    (hsize : s.index.headerVerifier.prev.length =
      BTC.headerSizeFor s.index.headerVerifier.prev)
    (hheader : s.index.headers[prevHeight]? = some prevHeader)
    (hundo : s.undo[prevHeight + 1]? = some u)
    (hread : (UndoCodec.serialize u).length < 2 ^ 31)
    (hsane : undoInfoSane H s (prevHeight + 1) s.index.headerVerifier.prev u = true)
    (hmax : prevHeight + 1 ≤ intMax)
    (hd : s.index.disconnectBlock prevHeight (BTC.trimHeaderRecord prevHeader) u = .ok index) :
    ∃ r, undoLatestBlock H s notifySubs = .ok r ∧ r.state.index = index := by
  have hstart : ¬ (s.index.headerVerifier.prevHeight ≤ 0 ∨
      s.index.headerVerifier.prev.length ≠ BTC.headerSizeFor s.index.headerVerifier.prev) := by
    rw [not_or, hv]
    exact ⟨by omega, not_not.mpr hsize⟩
  have htoNat : s.index.headerVerifier.prevHeight.toNat = prevHeight + 1 := by omega
  have hrec : s.index.headerForHeight prevHeight = some (BTC.trimHeaderRecord prevHeader) :=
    Option.map_eq_some_iff.mpr ⟨prevHeader, hheader, rfl⟩
  have hsane' : undoInfoSane H { s with mempool := s.mempool.clear, recentBlockTxHashes := ∅ }
      (prevHeight + 1) s.index.headerVerifier.prev u = true := hsane
  obtain ⟨rpa, hrpa⟩ : ∃ rpa, s.rpa.deleteRpaEntriesFromHeight u.height false = .ok rpa := by
    have hle : ¬ u.height > intMax := by
      rw [(undoInfoSane_iff.mp hsane).1]
      omega
    by_cases hoff : false = false ∧ s.rpa.firstHeight ≤ -1
    · exact ⟨_, if_pos hoff⟩
    · rw [RpaIndex.deleteRpaEntriesFromHeight, if_neg hoff, if_neg hle]
      exact ⟨_, rfl⟩
  simp only [undoLatestBlock]
  rw [if_neg hstart]
  simp only [htoNat, Nat.add_sub_cancel, hrec, hundo, readUndo_eq_ok.mpr ⟨hread, rfl⟩]
  rw [if_neg (not_not.mpr hsane')]
  simp only [hrpa, hd]
  exact ⟨_, rfl, rfl⟩

end Calls

/-- A state of the storage, with the blocks that were added and not undone. -/
structure ChainRun where
  state : State
  blocks : List CBlock

/-- The run starts with an empty database. -/
def ChainRun.Start (r : ChainRun) : Prop := r = { state := {}, blocks := [] }

/--
One call in a run in which only blocks are added that are valid after the blocks
before them.  A call that throws anything but `HeaderVerificationFailure` ends
the run.
-/
inductive ChainStep (H : Hashers) (opts : Options) (valid : List CBlock → CBlock → Prop) :
    ChainRun → ChainRun → Prop
  | add {r : ChainRun} {b : CBlock} {height blockSize : Nat} {blockHash : Hash}
      {rpaTask : Option (List CTransaction → Except Exception (List UInt8))}
      {ppb : PreProcessedBlock} {saveUndo notifySubs trackRecent : Bool} {s : State}
      {notify : Option NotifyData} :
      fill H height rpaTask blockHash blockSize b = .ok ppb →
      valid r.blocks b →
      -- the transaction numbers fit their six bytes
      r.state.index.txNumNext + b.vtx.length ≤ txNumMax + 1 →
      addBlock H opts r.state ppb saveUndo notifySubs trackRecent = .ok s notify →
      ChainStep H opts valid r { state := s, blocks := r.blocks ++ [b] }
  | reject {r : ChainRun} {ppb : PreProcessedBlock} {saveUndo notifySubs trackRecent : Bool}
      {errMsg : String} {s : State} :
      addBlock H opts r.state ppb saveUndo notifySubs trackRecent =
        .headerVerificationFailure errMsg s →
      ChainStep H opts valid r { r with state := s }
  | undo {r : ChainRun} {notifySubs : Bool} {u : Undone} :
      undoLatestBlock H r.state notifySubs = .ok u →
      ChainStep H opts valid r { state := u.state, blocks := r.blocks.dropLast }
  | mempool {r : ChainRun} (mp : Mempool) :
      ChainStep H opts valid r { r with state := { r.state with mempool := mp } }

/-- The invariant of all runs. -/
structure Sound (s : State) : Prop where
  wellFormed : WellFormed s.index
  recorded : Recorded s.index s.undo

section Sound

variable {s s' : State}

theorem Sound.congr (h : Sound s) (hindex : s'.index = s.index) (hundo : s'.undo = s.undo) :
    Sound s' := by
  refine ⟨?_, ?_⟩
  · rw [hindex]
    exact h.wellFormed
  · rw [hindex, hundo]
    exact h.recorded

/-- A block that was accepted, with what `addBlock` has collected on the way. -/
theorem connected_of_addBlock {b : CBlock} {height blockSize : Nat} {blockHash : Hash}
    {rpaTask : Option (List CTransaction → Except Exception (List UInt8))}
    {ppb : PreProcessedBlock} {saveUndo notifySubs trackRecent : Bool} {notify : Option NotifyData}
    (hfill : fill H height rpaTask blockHash blockSize b = .ok ppb)
    (hfits : s.index.txNumNext + b.vtx.length ≤ txNumMax + 1)
    (h : addBlock H opts s ppb saveUndo notifySubs trackRecent = .ok s' notify) :
    ∃ ch, Connected H opts s.index b ppb ch ∧ s'.index = nextIndex opts s.index ppb ch ∧
      Expired opts ppb.height (savedRecords s ppb.height
        (if saveUndo then some (undoOf H s.index ppb ch) else none)) s'.undo := by
  obtain ⟨hp, -⟩ := prepared_of_fill hfill
  obtain ⟨ch, hch, hheight, hlen, hindex, -, hundo⟩ := addBlock_eq_ok h
  rw [hp.header] at hlen
  exact ⟨ch, ⟨hp, changes_of_blockChanges hp hch, hheight, hlen, hfits⟩, hindex, hundo⟩

theorem Sound.add {b : CBlock} {ppb : PreProcessedBlock} {ch : BlockChanges} {saveUndo : Bool}
    (hs : Sound s) (h : Connected H opts s.index b ppb ch)
    (hindex : s'.index = nextIndex opts s.index ppb ch)
    (hundo : Expired opts ppb.height (savedRecords s ppb.height
      (if saveUndo then some (undoOf H s.index ppb ch) else none)) s'.undo) : Sound s' := by
  have hr : Recorded s'.index (savedRecords s ppb.height
      (if saveUndo then some (undoOf H s.index ppb ch) else none)) := by
    rw [hindex]
    cases saveUndo with
    | false => exact hs.recorded.connect hs.wellFormed h
    | true => exact hs.recorded.connectSaved hs.wellFormed h
  refine ⟨?_, ?_⟩
  · rw [hindex]
    exact h.wellFormed hs.wellFormed
  · rcases hundo with heq | ⟨-, heq⟩
    · rw [heq]
      exact hr
    · rw [heq]
      exact hr.erase _

/-- The height of the tip, as the header verifier and the tables have it. -/
theorem WellFormed.tip_eq {ix : ChainIndex} (hw : WellFormed ix) {prevHeight : Nat}
    (h : ix.headerVerifier.prevHeight = (prevHeight : Int) + 1) :
    ix.headers.length = prevHeight + 2 ∧ ix.blkInfos.length = prevHeight + 2 := by
  rw [hw.verifier] at h
  have hlen := hw.headers_length
  simp only at h
  omega

theorem Sound.undo {notifySubs : Bool} {u : Undone} (hs : Sound s)
    (h : undoLatestBlock H s notifySubs = .ok u) : Sound u.state := by
  obtain ⟨prevHeader, info, hv, hheader, hget, hd, -, hundo⟩ := undoLatestBlock_eq_ok h
  obtain ⟨-, htip⟩ := WellFormed.tip_eq hs.wellFormed hv
  refine ⟨?_, ?_⟩
  · exact (hs.recorded.records _ _ hget).wellFormed_disconnect hs.wellFormed htip hheader hd
  · rw [hundo]
    exact hs.recorded.disconnect hs.wellFormed hget htip hd

/-- The record of the block that a successful call has undone, and what the call leaves in the
mempool and reports. -/
theorem Sound.undone {u : Undone} (hs : Sound s) (h : undoLatestBlock H s true = .ok u) :
    ∃ (prevHeader : Header) (info : UndoInfo) (nd : NotifyData),
      RecordOk s.index (u.prevHeight + 1) info ∧ s.index.blkInfos.length = u.prevHeight + 2 ∧
      s.index.disconnectBlock u.prevHeight (BTC.trimHeaderRecord prevHeader) info =
        .ok u.state.index ∧
      u.notify = some nd ∧ u.state.mempool = s.mempool.clear ∧
      nd.scriptHashesAffected = info.scriptHashes.foldl (·.insert ·)
        (s.mempool.hashXTxs.keys.foldl (·.insert ·) ∅) ∧
      nd.txidsAffected = ((s.index.txNums.drop info.blkInfo.txNum0).take info.blkInfo.nTx).foldl
        (·.insert ·) (s.mempool.txs.keys.foldl (·.insert ·) ∅) := by
  obtain ⟨prevHeader, info, hv, -, hget, -, hd, -, -, hmempool, hnotify⟩ := undoLatestBlock_inv h
  obtain ⟨-, htip⟩ := WellFormed.tip_eq hs.wellFormed hv
  exact ⟨prevHeader, info, _, hs.recorded.records _ _ hget, htip, hd, hnotify, hmempool, rfl, rfl⟩

theorem Sound.step {valid : List CBlock → CBlock → Prop} {r r' : ChainRun} (hs : Sound r.state)
    (h : ChainStep H opts valid r r') : Sound r'.state := by
  cases h with
  | add hfill _ hfits hadd =>
      obtain ⟨ch, hc, hindex, hundo⟩ := connected_of_addBlock hfill hfits hadd
      exact hs.add hc hindex hundo
  | reject hadd =>
      obtain ⟨recent, hconf⟩ := confirmInMempool_eq r.state _ _ _
      rw [state_of_rejected hadd, hconf]
      exact hs.congr rfl rfl
  | undo hundo => exact hs.undo hundo
  | mempool mp => exact hs.congr rfl rfl

theorem sound_of_reachable {valid : List CBlock → CBlock → Prop} {r : ChainRun}
    (h : Reachable ChainRun.Start (ChainStep H opts valid) r) : Sound r.state := by
  refine Reachable.invariant (I := fun r => Sound r.state) ?_ (fun _ _ => Sound.step) h
  rintro _ rfl
  exact ⟨wellFormed_empty, recorded_empty⟩

end Sound

/--
The block can come next.  Its header links to the tip, its inputs exist in the
UTXO set or anywhere in the block, its transactions are new, and everything
fits its field.
-/
structure Extends (H : Hashers) (opts : Options) (ix : ChainIndex) (b : CBlock) : Prop where
  notNull : b.header.isNull = false
  links : ∃ tip, ix.headers.getLast? = some tip ∧
    H.headerPoWHash (BTC.trimHeaderRecord tip) = b.header.hashPrevBlock
  header_le : b.header.serialize.length ≤ opts.blockHeaderSize
  height_le : ix.headers.length ≤ intMax
  inputs : ∀ (i : Nat) (tx : CTransaction), 0 < i → b.vtx[i]? = some tx → ∀ input ∈ tx.vin,
    input.prevout ∈ ix.utxos.utxoset ∨
      ∃ ptx ∈ b.vtx, ptx.hash = input.prevout.txHash ∧ input.prevout.outN < ptx.vout.length
  /-- An id names one transaction. -/
  ids : ∀ tx ∈ b.vtx, ∀ tx' ∈ b.vtx, tx.hash = tx'.hash → tx = tx'
  new : ∀ tx ∈ b.vtx, tx.hash ∉ ix.txNums
  outN_le : ∀ tx ∈ b.vtx, tx.vout.length ≤ ioNumMax + 1
  txNum_le : ix.txNumNext + b.vtx.length ≤ txNumMax + 1

namespace Extends

variable {ix : ChainIndex} {b : CBlock}

/-- An output of the UTXO set is not one of the block. -/
theorem not_mem_utxoset (hb : Extends H opts ix b) (hw : WellFormed ix) {txo : TXO}
    {tx : CTransaction} (htx : tx ∈ b.vtx) (hhash : tx.hash = txo.txHash) :
    txo ∉ ix.utxos.utxoset := by
  intro hmem
  obtain ⟨info, hinfo⟩ := mem_iff_getElem?.mp hmem
  refine hb.new tx htx ?_
  rw [hhash]
  exact List.mem_of_getElem? (hw.utxo _ _ hinfo).1

theorem outNsFit (hb : Extends H opts ix b) (hw : WellFormed ix) (i : Nat) (tx : CTransaction)
    (htx : b.vtx[i]? = some tx) : OutNsFit i tx := by
  refine ⟨hb.outN_le tx (List.mem_of_getElem? htx), fun hpos input hin => ?_⟩
  rcases hb.inputs i tx hpos htx input hin with hmem | ⟨ptx, hptx, -, hlt⟩
  · obtain ⟨info, hinfo⟩ := mem_iff_getElem?.mp hmem
    exact (hw.utxo _ _ hinfo).2.1
  · have hle := hb.outN_le ptx hptx
    omega

/-- An input that names a transaction of the block names one of its outputs. -/
theorem parent_outN (hb : Extends H opts ix b) (hw : WellFormed ix) {tx ptx : CTransaction}
    {input : CTxIn} (htx : tx ∈ b.vtx) (hin : input ∈ tx.vin) (hptx : ptx ∈ b.vtx)
    (hhash : ptx.hash = input.prevout.txHash) : input.prevout.outN < ptx.vout.length := by
  obtain ⟨i, hi⟩ := List.mem_iff_getElem?.mp htx
  rcases Nat.eq_zero_or_pos i with rfl | hpos
  · rw [coinbase_prevout hi hin] at hhash
    exact absurd hhash (b.hash_ne_null ptx hptx)
  · rcases hb.inputs i tx hpos hi input hin with hmem | ⟨ptx', hptx', hhash', hlt⟩
    · exact absurd hmem (hb.not_mem_utxoset hw hptx hhash)
    · rw [hb.ids ptx hptx ptx' hptx' (hhash.trans hhash'.symm)]
      exact hlt

/-- An input from outside the block spends an output of the UTXO set. -/
theorem external_mem (hb : Extends H opts ix b) {i : Nat} {input : CTxIn}
    (h : ExternalInput b i input) : input.prevout ∈ ix.utxos.utxoset := by
  obtain ⟨hpos, ⟨tx, htx, hin⟩, hout⟩ := h
  rcases hb.inputs i tx hpos htx input hin with hmem | ⟨ptx, hptx, hhash, -⟩
  · exact hmem
  · exact absurd (mem_lastIdx.mpr ⟨ptx, hptx, hhash⟩) hout

theorem verifier_links (hb : Extends H opts ix b) (hw : WellFormed ix) :
    H.headerPoWHash ix.headerVerifier.prev = b.header.hashPrevBlock := by
  obtain ⟨tip, htip, hlink⟩ := hb.links
  rw [hw.verifier, htip]
  exact hlink

end Extends

/-- The record that was just saved is not the one that expires. -/
theorem Expired.get_saved {s : State} {height : Nat} {u : UndoInfo}
    {table : Std.ExtTreeMap Nat UndoInfo compare}
    (h : Expired opts height (savedRecords s height (some u)) table) :
    table[height]? = some u := by
  have hsaved : (savedRecords s height (some u))[height]? = some u := by
    rw [savedRecords, Option.elim_some, get_insert, if_pos rfl]
  rcases h with rfl | ⟨hle, rfl⟩
  · exact hsaved
  · have hpos := opts.maxReorg_inRange.1
    rw [get_erase, if_neg (by omega)]
    exact hsaved

/-- The last block can be undone exactly when its record and the rows of its ids can be read, and
then the index is as before it. -/
theorem undo_nextIndex_iff (ix' : ChainIndex) (notifyUndo : Bool) {s' : State} {ix : ChainIndex}
    {b : CBlock} {ppb : PreProcessedBlock} {ch : BlockChanges} {k : Nat} (hw : WellFormed ix)
    (hnew : ∀ tx ∈ b.vtx, tx.hash ∉ ix.txNums) (hc : Connected H opts ix b ppb ch)
    (hlen : ix.headers.length = k + 1) (hmax : k + 1 ≤ intMax)
    (hindex : s'.index = nextIndex opts ix ppb ch)
    (hrecord : s'.undo[k + 1]? = some (undoOf H ix ppb ch)) :
    (∃ u, undoLatestBlock H s' notifyUndo = .ok u ∧ u.state.index = ix') ↔
      ((UndoCodec.serialize (undoOf H ix ppb ch)).length < 2 ^ 31 ∧
        RowsFit (nextIndex opts ix ppb ch) ix.txNumNext) ∧ ix' = ix := by
  obtain ⟨tip, hget⟩ : ∃ tip, ix.headers[k]? = some tip :=
    ⟨_, List.getElem?_eq_getElem (by omega)⟩
  have hheaders : (nextIndex opts ix ppb ch).headers =
      ix.headers ++ [BTC.padHeaderRecord opts.blockHeaderSize ppb.header.serialize] := rfl
  have hv : s'.index.headerVerifier =
      { prevHeight := ix.headerVerifier.prevHeight + 1, prev := ppb.header.serialize } := by
    rw [hindex]
    rfl
  have hheight : ppb.height = k + 1 := by rw [hc.height, hlen]
  have hprev : s'.index.headerVerifier.prevHeight = (k : Int) + 1 := by
    rw [hv, hw.verifier, hlen]
    simp
  have hheader : s'.index.headers[k]? = some tip := by
    rw [hindex, hheaders, List.getElem?_append_left (by omega)]
    exact hget
  have hd : ∀ ix', s'.index.disconnectBlock k (BTC.trimHeaderRecord tip) (undoOf H ix ppb ch) =
      .ok ix' ↔ RowsFit (nextIndex opts ix ppb ch) ix.txNumNext ∧ ix' = ix := by
    intro ix'
    rw [hindex, hc.disconnect_eq_ok_iff hw hnew hlen hget, hc.exists_truncate_iff hw]
  constructor
  · rintro ⟨u, hu, rfl⟩
    obtain ⟨prevHeader, info, hv', hheader', hundo, hread, hd', -⟩ := undoLatestBlock_inv hu
    obtain rfl : k = u.prevHeight := by
      rw [hprev] at hv'
      omega
    rw [hheader] at hheader'
    rw [hrecord] at hundo
    cases hheader'
    cases hundo
    obtain ⟨hrows, hsame⟩ := (hd _).mp hd'
    exact ⟨⟨hread, hrows⟩, hsame⟩
  · rintro ⟨⟨hread, hrows⟩, hsame⟩
    have hsane : undoInfoSane H s' (k + 1) s'.index.headerVerifier.prev (undoOf H ix ppb ch) =
        true := by
      have hinfos : (nextIndex opts ix ppb ch).blkInfos =
          ix.blkInfos ++ [⟨ix.txNumNext, ppb.txInfos.length⟩] := rfl
      have hblk := hw.headers_length
      rw [undoInfoSane_iff, hv, hindex, hinfos]
      refine ⟨hheight, rfl, ?_, ?_⟩
      · rw [List.length_append, List.length_singleton]
        omega
      · rw [List.getLast?_concat]
        rfl
    exact undoLatestBlock_ok hprev (by rw [hv]; exact BTC.length_serialize _) hheader hrecord
      hread hsane hmax ((hd ix').mpr ⟨hrows, hsame⟩)

/-- The block that was just added can be undone exactly when its record and the rows of its ids
can be read, and then the index is as before. -/
theorem undo_connected_iff (ix' : ChainIndex) (notifyUndo : Bool) {s s' : State} {b : CBlock}
    {ppb : PreProcessedBlock} {ch : BlockChanges} (hw : WellFormed s.index)
    (hb : Extends H opts s.index b) (hc : Connected H opts s.index b ppb ch)
    (hindex : s'.index = nextIndex opts s.index ppb ch)
    (hundo : Expired opts ppb.height
      (savedRecords s ppb.height (some (undoOf H s.index ppb ch))) s'.undo) :
    (∃ u, undoLatestBlock H s' notifyUndo = .ok u ∧ u.state.index = ix') ↔
      ((UndoCodec.serialize (undoOf H s.index ppb ch)).length < 2 ^ 31 ∧
        RowsFit (nextIndex opts s.index ppb ch) s.index.txNumNext) ∧ ix' = s.index := by
  obtain ⟨tip, htip, -⟩ := hb.links
  obtain ⟨k, hlen⟩ : ∃ k, s.index.headers.length = k + 1 := by
    refine Nat.exists_eq_succ_of_ne_zero fun hzero => ?_
    rw [List.length_eq_zero_iff.mp hzero] at htip
    cases htip
  have hheight : ppb.height = k + 1 := by rw [hc.height, hlen]
  have hrecord := hundo.get_saved
  rw [hheight] at hrecord
  have hmax := hb.height_le
  exact undo_nextIndex_iff ix' notifyUndo hw hb.new hc hlen (by omega) hindex hrecord

/-- A block that can come next is accepted in every state of a run. -/
theorem Extends.accepted {valid : List CBlock → CBlock → Prop} {r : ChainRun} {b : CBlock}
    {rpaTask : Option (List CTransaction → Except Exception (List UInt8))}
    (hr : Reachable ChainRun.Start (ChainStep H opts valid) r)
    (hb : Extends H opts r.state.index b) (hrpa : ∀ work ∈ rpaTask, ∃ ser, work b.vtx = .ok ser)
    (blockHash : Hash) (blockSize : Nat) (saveUndo notifySubs trackRecent : Bool) :
    ∃ ppb ch s' notify,
      fill H r.state.index.headers.length rpaTask blockHash blockSize b = .ok ppb ∧
        addBlock H opts r.state ppb saveUndo notifySubs trackRecent = .ok s' notify ∧
        Connected H opts r.state.index b ppb ch ∧
        s'.index = nextIndex opts r.state.index ppb ch ∧
        Expired opts ppb.height (savedRecords r.state ppb.height
          (if saveUndo then some (undoOf H r.state.index ppb ch) else none)) s'.undo := by
  have hw := (sound_of_reachable hr).wellFormed
  obtain ⟨ppb, hfill⟩ := fill_ok (H := H) (hb.outNsFit hw)
    (fun tx htx input hin ptx hptx hhash => hb.parent_outN hw htx hin hptx hhash) hrpa
  obtain ⟨hp, hheight⟩ := prepared_of_fill hfill
  obtain ⟨ch, hch⟩ := blockChanges_ok hp fun i input hext => hb.external_mem hext
  obtain ⟨s', notify, hadd⟩ := addBlock_ok hw hch hheight (by rw [hp.header]; exact hb.header_le)
    (by rw [hp.header]; exact hb.notNull) (.inr (by rw [hp.header]; exact hb.verifier_links hw))
  obtain ⟨ch, hc, hindex, hundo⟩ := connected_of_addBlock hfill hb.txNum_le hadd
  exact ⟨ppb, ch, s', notify, hfill, hadd, hc, hindex, hundo⟩

section SmallChain

open Mempool

theorem reachable_firstState (valid : List CBlock → CBlock → Prop) (h : valid [] firstBlock) :
    Reachable ChainRun.Start (ChainStep opTrueHashers {} valid)
      { state := firstState, blocks := [firstBlock] } := by
  have hstart : Reachable ChainRun.Start (ChainStep opTrueHashers {} valid)
      { state := {}, blocks := [] } := .start rfl
  have hfill : fill opTrueHashers 0 none 0 100 firstBlock = .ok (prepared 0 firstBlock) := rfl
  have hadd : addBlock opTrueHashers {} {} (prepared 0 firstBlock) true false false =
      .ok firstState none := rfl
  exact hstart.next (.add hfill h (by decide) hadd)

theorem extends_secondBlock : Extends opTrueHashers {} firstState.index (secondBlock 0) := by
  refine ⟨rfl, ⟨_, rfl, rfl⟩, by decide, by decide, ?_, ?_, by decide, by decide, by decide⟩
  · intro i tx hpos htx input hin
    match i, hpos with
    | 1, _ =>
        -- the child comes before its parent
        obtain rfl : childTx.ctx = tx := Option.some.inj htx
        rw [List.mem_singleton.mp hin]
        exact .inr ⟨parentTx.ctx, by simp [secondBlock], rfl, by decide⟩
    | 2, _ =>
        obtain rfl : parentTx.ctx = tx := Option.some.inj htx
        rw [List.mem_singleton.mp hin]
        exact .inl (mem_iff_getElem?.mpr ⟨_, rfl⟩)
    | i + 3, _ => cases htx
  · have hnodup : ((secondBlock 0).vtx.map CTransaction.hash).Nodup := by decide
    intro tx htx tx' htx' heq
    exact List.inj_on_of_nodup_map hnodup htx htx' heq

end SmallChain

end Storage
end Shulcrum
