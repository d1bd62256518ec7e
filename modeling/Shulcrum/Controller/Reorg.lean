import Shulcrum.Controller.Reassembly
import Shulcrum.Storage.Reorg
import Shulcrum.Storage.UndoSize

/-!
# Following the chain of the node

In every round the controller asks the node for its height and its best block and
compares them with the tip of the storage.  It undoes one block, or downloads the
blocks above the tip, and starts again; a download ends early if a block does not
name the tip.  For a node whose chain stays as it is, the rounds go back to a
common block and on to the tip of the node.

The handler of the reply is modelled after the checks of the genesis hash and of
the name of the chain.  The check of the RPA index has rounds of its own and finds
nothing to do here.

**Results.**
* `download_progress`: the blocks of a download reach the storage in order, whatever
  the order of their arrival.
* `round_cases`: what one round can do.
* `reorg_converges`: the rounds end with the index of the chain of the node.
-/

namespace Shulcrum
namespace Controller

open Invariant Storage TreeMap PreProcessedBlock

/-- `Storage::latestTip`: the height and the block id of the last header. -/
def latestTip (H : Hashers) (s : State) : Int × Option Hash :=
  let ret := s.index.headerVerifier
  if ret.prev = [] ∨ ret.prevHeight < 0 then (-1, none)
  else (ret.prevHeight, some (H.headerPoWHash ret.prev))

/-- `Storage::hasUndo`. -/
def hasUndo (s : State) : Bool := s.earliestUndoHeight != invalidUndoHeight

/-- The reply to `getblockchaininfo`. -/
structure ChainInfo where
  blocks : Int
  headers : Int
  bestBlockhash : Hash
  initialBlockDownload : Bool

section Handlers

variable (cfg : Config)

/-- The decision of `Controller::process` whether undo records are saved. -/
def suppressSaveUndo (c : Sync) (info : ChainInfo) : Bool :=
  if info.initialBlockDownload ∧ ¬hasUndo c.storage then
    decide (c.sm.nHeaders > 0 ∧ c.sm.ht > 0 ∧ c.sm.nHeaders ≥ c.sm.ht ∧
      c.sm.nHeaders - c.sm.ht > cfg.opts.maxReorg)
  else c.sm.suppressSaveUndo

/-- The handler in `Controller::process` of the reply of `GetChainInfoTask`. -/
def processChainInfo (c : Sync) (info : ChainInfo) : Sync :=
  if info.blocks < 1 ∧ info.initialBlockDownload then
    { c with sm := { c.sm with state := .bitcoinDIsInHeaderDL } }
  else
    let (tip, tipHash) := latestTip cfg.H c.storage
    let c := { c with sm := { c.sm with ht := info.blocks, nHeaders := info.headers } }
    if tip = c.sm.ht then
      if some info.bestBlockhash = tipHash then
        { c with sm := { c.sm with
            state := if info.initialBlockDownload then .retryInIBD else .synchMempool } }
      else processDoUndoAndRetry cfg c
    else if tip > c.sm.ht then processDoUndoAndRetry cfg c
    else
      { c with sm := { c.sm with
          state := .getBlocks
          suppressSaveUndo := suppressSaveUndo cfg c info } }

/-- `Controller::process` in the state `GetBlocks`. -/
def processGetBlocks (c : Sync) : Sync :=
  let base := ((latestTip cfg.H c.storage).1 + 1).toNat
  { c with sm := { c.sm with
      state := .downloadingBlocks
      startheight := base
      dlResultsHtNext := base
      endHeight := c.sm.ht.toNat } }

end Handlers

/-- A node whose chain stays as it is. -/
structure Node where
  blocks : List CBlock
  headers : Int
  initialBlockDownload : Bool
  /-- The blocks, as the download tasks prepare them. -/
  download : Nat → PreProcessedBlock

/-- What the node reports. -/
def Node.chainInfo (node : Node) (H : Hashers) : ChainInfo where
  blocks := (node.blocks.length : Int) - 1
  headers := node.headers
  bestBlockhash := (node.blocks.getLast?.map fun b => H.headerPoWHash b.header.serialize).getD 0
  initialBlockDownload := node.initialBlockDownload

/-- An order in which the blocks of a download arrive. -/
structure ArrivalOrder where
  heights : Nat → Nat → List Nat
  perm : ∀ base ht, (heights base ht).Perm (List.range' base (ht + 1 - base))

section Rounds

variable (cfg : Config) (node : Node)

/-- The blocks of a download arrive. -/
def receiveBlocks (heights : List Nat) (c : Sync) : Sync :=
  heights.foldl (fun c h => (onPutBlock cfg c false (node.download h)).1) c

/-- A round of the controller, with a new state machine, up to the next reset. -/
def round (order : ArrivalOrder) (s : State) : Sync :=
  let c := processChainInfo cfg { storage := s, sm := {} } (node.chainInfo cfg.H)
  if c.sm.state = .getBlocks then
    let c := processGetBlocks cfg c
    receiveBlocks cfg node (order.heights c.sm.startheight c.sm.endHeight) c
  else c

/-- Rounds until one does not ask for another; nothing if there are more than the given
number. -/
def synch (order : Nat → ArrivalOrder) : Nat → Nat → State → Option Sync
  | 0, _, _ => none
  | n + 1, i, s =>
      let c := round cfg node (order i) s
      if c.sm.state = .retry ∨ c.sm.state = .finishedDL then synch order n (i + 1) c.storage
      else some c

/-- The first blocks of the node are added to an empty storage. -/
def fromScratch : Nat → Option State
  | 0 => some {}
  | h + 1 =>
      match fromScratch h with
      | none => none
      | some s =>
          match addBlock cfg.H cfg.opts s (node.download h) false false false with
          | .ok s _ => some s
          | _ => none

/-- The download tasks prepare the blocks of the chain, which are valid and not too many. -/
structure Node.Valid : Prop where
  filled : ∀ (h : Nat) (b : CBlock), node.blocks[h]? = some b →
    ∃ rpaTask blockHash blockSize,
      fill cfg.H h rpaTask blockHash blockSize b = .ok (node.download h)
  valid : ∀ (h : Nat) (b : CBlock), node.blocks[h]? = some b → ValidBlock (node.blocks.take h) b
  fits : (chainTxs node.blocks).length ≤ txNumMax + 1

end Rounds

/-! ## One download -/

section Download

variable {cfg : Config} {download : Nat → PreProcessedBlock} {base ht : Nat} {c c' : Sync}
  {P : Nat → State → Prop} {Q : State → Prop}

/-- What is to be known about one block of a download: it is added, or undone and retried. -/
def Handles (cfg : Config) (download : Nat → PreProcessedBlock) (base ht : Nat)
    (P : Nat → State → Prop) (Q : State → Prop) : Prop :=
  ∀ (c : Sync) (h : Nat), base ≤ h → h ≤ ht → P h c.storage →
    (∃ s, processVerifyAndAddBlock cfg c (download h) = (true, { c with storage := s }) ∧
      P (h + 1) s) ∨
    ∃ s, processVerifyAndAddBlock cfg c (download h) =
      (false, { storage := s, sm := { c.sm with state := .retry } }) ∧ Q s

/-- How far a download has come. -/
inductive Progress (download : Nat → PreProcessedBlock) (base ht : Nat) (P : Nat → State → Prop)
    (Q : State → Prop) (c : Sync) : Prop
  | downloading : c.sm.state = .downloadingBlocks → c.sm.endHeight = ht →
      base ≤ c.sm.dlResultsHtNext → c.sm.dlResultsHtNext ≤ ht →
      (∀ (x : Nat) (r : VarDLTaskResult), c.sm.dlResults[x]? = some r → r = .ppb (download x)) →
      P c.sm.dlResultsHtNext c.storage → Progress download base ht P Q c
  | finished : c.sm.state = .finishedDL → P (ht + 1) c.storage → Progress download base ht P Q c
  | retry : c.sm.state = .retry → Q c.storage → Progress download base ht P Q c

/-- The loop over the results whose turn it is. -/
theorem Progress.loop (hhandles : Handles cfg download base ht P Q) {fuel : Nat}
    (h : Progress download base ht P Q c) (hstate : c.sm.state = .downloadingBlocks) :
    Progress download base ht P Q (downloadingLoop cfg fuel false c).1 := by
  induction fuel generalizing c with
  | zero => exact h
  | succ fuel ih =>
      cases h with
      | finished hfin _ => exact absurd (hstate.symm.trans hfin) (by simp)
      | retry hretry _ => exact absurd (hstate.symm.trans hretry) (by simp)
      | downloading _ hend hbase hle hresults hP =>
          rw [downloadingLoop]
          cases hget : c.sm.dlResults[c.sm.dlResultsHtNext]? with
          | none => exact .downloading hstate hend hbase hle hresults hP
          | some r =>
              obtain rfl := hresults _ _ hget
              set sm := { c.sm with
                dlResultsHtNext := c.sm.dlResultsHtNext + 1
                dlResults := c.sm.dlResults.erase c.sm.dlResultsHtNext }
              simp only [handleResult, VarDLTaskResult.isRpa, Bool.or_false]
              rcases hhandles { c with sm := sm } c.sm.dlResultsHtNext hbase hle hP with
                ⟨s, hadd, hP'⟩ | ⟨s, hadd, hQ⟩
              · rw [hadd]
                simp only [Bool.false_eq_true, if_false]
                split_ifs with hlast
                · have hall : c.sm.dlResultsHtNext = ht := by
                    have hlt : c.sm.dlResultsHtNext + 1 > c.sm.endHeight := hlast
                    omega
                  refine .finished rfl ?_
                  rw [← hall]
                  exact hP'
                · have hmore : ¬ c.sm.dlResultsHtNext + 1 > c.sm.endHeight := hlast
                  refine ih (.downloading hstate hend ?_ ?_ ?_ hP') hstate
                  · exact Nat.le_succ_of_le hbase
                  · show c.sm.dlResultsHtNext + 1 ≤ ht
                    omega
                  · intro x r hx
                    have hx' : (c.sm.dlResults.erase c.sm.dlResultsHtNext)[x]? = some r := hx
                    rw [get_erase] at hx'
                    split_ifs at hx'
                    exact hresults x r hx'
              · rw [hadd]
                exact .retry rfl hQ

/-- A block of the download arrives. -/
theorem Progress.put (hhandles : Handles cfg download base ht P Q)
    (hheight : ∀ h, base ≤ h → h ≤ ht → (download h).height = h)
    (h : Progress download base ht P Q c) {x : Nat} (hx : base ≤ x) (hx' : x ≤ ht) :
    Progress download base ht P Q (onPutBlock cfg c false (download x)).1 := by
  rw [onPutBlock, onPutCommon]
  by_cases hdead : false = true ∨ c.sm.state = .failure
  · rw [if_pos hdead]
    exact h
  · rw [if_neg hdead]
    by_cases hstate : c.sm.state = .downloadingBlocks
    · rw [if_neg (not_not.mpr hstate)]
      cases h with
      | finished hfin _ => exact absurd (hstate.symm.trans hfin) (by simp)
      | retry hretry _ => exact absurd (hstate.symm.trans hretry) (by simp)
      | downloading _ hend hbase hle hresults hP =>
          refine Progress.loop hhandles (.downloading hstate hend hbase hle ?_ hP) hstate
          intro y r hy
          have hy' : (c.sm.dlResults.insert (download x).height (.ppb (download x)))[y]? =
            some r := hy
          rw [get_insert, hheight x hx hx'] at hy'
          split_ifs at hy' with hkey
          · rw [← hkey]
            exact (Option.some.inj hy').symm
          · exact hresults y r hy'
    · rw [if_pos hstate]
      exact h

/-- The arrival of some blocks of the download. -/
theorem receiveBlocks_inv {node : Node} (hhandles : Handles cfg node.download base ht P Q)
    (hheight : ∀ h, base ≤ h → h ≤ ht → (node.download h).height = h) {heights : List Nat}
    (hin : ∀ x ∈ heights, base ≤ x ∧ x ≤ ht) {trace : List Action}
    (hprog : Progress node.download base ht P Q c) (hinv : DLInv base ht c.sm trace) :
    Progress node.download base ht P Q (receiveBlocks cfg node heights c) ∧
      ∃ trace', DLInv base ht (receiveBlocks cfg node heights c).sm trace' ∧
        ((receiveBlocks cfg node heights c).sm.state = .downloadingBlocks →
          c.sm.state = .downloadingBlocks ∧
          (∀ x, Received c.sm x → Received (receiveBlocks cfg node heights c).sm x) ∧
          ∀ x ∈ heights, Received (receiveBlocks cfg node heights c).sm x) := by
  induction heights generalizing c trace with
  | nil => exact ⟨hprog, trace, hinv, fun hst => ⟨hst, fun _ hx => hx, by simp⟩⟩
  | cons y heights ih =>
      rw [List.forall_mem_cons] at hin
      obtain ⟨⟨hy, hy'⟩, hin⟩ := hin
      obtain ⟨hinv', hkeep⟩ := hinv.put cfg c false (node.download y)
      obtain ⟨hfinal, trace', hinv'', hrest⟩ := ih hin (hprog.put hhandles hheight hy hy') hinv'
      refine ⟨hfinal, trace', hinv'', fun hst => ?_⟩
      obtain ⟨hst', hold, hnew⟩ := hrest hst
      obtain ⟨hst'', hold', hy''⟩ := hkeep hst'
      rw [hheight y hy hy'] at hy''
      refine ⟨hst'', fun x hx => hold x (hold' x hx), ?_⟩
      rw [List.forall_mem_cons]
      exact ⟨hold y (hy'' rfl), hnew⟩

/-- The blocks of a download reach the storage in order, whatever the order of their arrival. -/
theorem download_progress {node : Node} (hhandles : Handles cfg node.download base ht P Q)
    (hheight : ∀ h, base ≤ h → h ≤ ht → (node.download h).height = h)
    (hstate : c.sm.state = .downloadingBlocks) (hend : c.sm.endHeight = ht)
    (hnext : c.sm.dlResultsHtNext = base) (hempty : c.sm.dlResults = ∅) (hle : base ≤ ht)
    (hP : P base c.storage) {heights : List Nat}
    (hperm : heights.Perm (List.range' base (ht + 1 - base))) :
    ((receiveBlocks cfg node heights c).sm.state = .finishedDL ∧
        P (ht + 1) (receiveBlocks cfg node heights c).storage) ∨
      (receiveBlocks cfg node heights c).sm.state = .retry ∧
        Q (receiveBlocks cfg node heights c).storage := by
  have hnone : ∀ (x : Nat) (r : VarDLTaskResult), c.sm.dlResults[x]? ≠ some r := by
    intro x r hx
    rw [hempty] at hx
    simp at hx
  have hinv : DLInv base ht c.sm [] := by
    refine .downloading ⟨hstate, hend, by omega, by omega, ?_, ?_⟩ ?_
    · rw [hnext, Nat.sub_self]
      rfl
    · exact fun x r hx => absurd hx (hnone x r)
    · rw [hempty]
      simp
  have hprog : Progress node.download base ht P Q c := by
    refine .downloading hstate hend (by omega) (by omega) ?_ (by rw [hnext]; exact hP)
    exact fun x r hx => absurd hx (hnone x r)
  have hrange : ∀ x, x ∈ heights ↔ base ≤ x ∧ x ≤ ht := by
    intro x
    rw [hperm.mem_iff, List.mem_range'_1]
    omega
  obtain ⟨hfinal, trace, hdl, hreceived⟩ :=
    receiveBlocks_inv hhandles hheight (fun x hx => (hrange x).mp hx) hprog hinv
  cases hfinal with
  | finished hst hP' => exact .inl ⟨hst, hP'⟩
  | retry hst hQ => exact .inr ⟨hst, hQ⟩
  | downloading hst _ hbase' hle' _ _ =>
      -- the block whose turn it is has arrived
      exfalso
      obtain ⟨-, -, hnew⟩ := hreceived hst
      cases hdl with
      | finished hfin _ => exact absurd (hst.symm.trans hfin) (by simp)
      | aborted habort _ => rcases habort with h | h <;> exact absurd (hst.symm.trans h) (by simp)
      | downloading _ hwaits =>
          rcases hnew _ ((hrange _).mpr ⟨hbase', hle'⟩) with hlt | hmem
          · omega
          · obtain ⟨r, hr⟩ := mem_iff_getElem?.mp hmem
            rw [hwaits] at hr
            cases hr

end Download

/-! ## The chain of the node -/

section Scratch

variable {cfg : Config} {node : Node}

theorem Node.Valid.height (hn : node.Valid cfg) {h : Nat} (hlt : h < node.blocks.length) :
    (node.download h).height = h := by
  obtain ⟨rpaTask, blockHash, blockSize, hfill⟩ :=
    hn.filled h _ (List.getElem?_eq_getElem hlt)
  exact (prepared_of_fill hfill).2

theorem chainTxs_take_le (blocks : List CBlock) (n : Nat) :
    (chainTxs (blocks.take n)).length ≤ (chainTxs blocks).length := by
  have hsplit : chainTxs blocks = chainTxs (blocks.take n ++ blocks.drop n) := by
    rw [List.take_append_drop]
  rw [hsplit, chainTxs, chainTxs, List.zipIdx_append, List.flatMap_append, List.length_append]
  exact Nat.le_add_right _ _

/-- Adding blocks to an empty storage is a run. -/
theorem reachable_fromScratch (hn : node.Valid cfg) {h : Nat} (hle : h ≤ node.blocks.length)
    {t : State} (ht : fromScratch cfg node h = some t) :
    Reachable ChainRun.Start (ChainStep cfg.H cfg.opts ValidBlock)
      { state := t, blocks := node.blocks.take h } := by
  induction h generalizing t with
  | zero =>
      cases ht
      exact .start rfl
  | succ h ih =>
      rw [fromScratch] at ht
      cases hs : fromScratch cfg node h with
      | none =>
          rw [hs] at ht
          cases ht
      | some s =>
          simp only [hs] at ht
          cases hadd : addBlock cfg.H cfg.opts s (node.download h) false false false with
          | headerVerificationFailure e s' =>
              rw [hadd] at ht
              cases ht
          | threw e =>
              rw [hadd] at ht
              cases ht
          | ok s' notify =>
              rw [hadd] at ht
              cases ht
              have hget : node.blocks[h]? = some node.blocks[h] :=
                List.getElem?_eq_getElem (by omega)
              obtain ⟨rpaTask, blockHash, blockSize, hfill⟩ := hn.filled h _ hget
              have hr := ih (by omega) hs
              have hsnoc : node.blocks.take (h + 1) =
                  node.blocks.take h ++ [node.blocks[h]] := by
                rw [List.take_add_one, hget]
                rfl
              have hfits : s.index.txNumNext + node.blocks[h].vtx.length ≤ txNumMax + 1 := by
                have hle' := chainTxs_take_le node.blocks (h + 1)
                rw [hsnoc, chainTxs_concat, List.length_append, List.length_map,
                  ← (histories_of_reachable hr).1.numbered.txNumNext] at hle'
                exact le_trans hle' hn.fits
              rw [hsnoc]
              exact .next hr (.add hfill (hn.valid h _ hget) hfits hadd)

theorem Node.Valid.reachable (hn : node.Valid cfg) {t : State}
    (hclean : fromScratch cfg node node.blocks.length = some t) :
    Reachable ChainRun.Start (ChainStep cfg.H cfg.opts ValidBlock)
      { state := t, blocks := node.blocks } := by
  have hall := reachable_fromScratch hn le_rfl hclean
  rwa [List.take_length] at hall

theorem Node.Valid.linked (hn : node.Valid cfg) {t : State}
    (hclean : fromScratch cfg node node.blocks.length = some t) : Linked cfg.H node.blocks :=
  (linked_of_reachable (hn.reachable hclean)).2

/-- Every prefix of a chain that applies cleanly does. -/
theorem fromScratch_of_le {n h : Nat} (hle : h ≤ n) {t : State}
    (ht : fromScratch cfg node n = some t) : ∃ s, fromScratch cfg node h = some s := by
  induction hle generalizing t with
  | refl => exact ⟨t, ht⟩
  | @step n _ ih =>
      rw [fromScratch] at ht
      cases hs : fromScratch cfg node n with
      | none =>
          rw [hs] at ht
          cases ht
      | some s => exact ih hs

/-- The next block of the chain is added to a storage that has the blocks before it. -/
theorem addBlock_fromScratch {h : Nat} {t t' s : State} (ht : fromScratch cfg node h = some t)
    (ht' : fromScratch cfg node (h + 1) = some t') (hindex : s.index = t.index)
    (saveUndo notifySubs trackRecent : Bool) :
    ∃ s' notify, addBlock cfg.H cfg.opts s (node.download h) saveUndo notifySubs trackRecent =
        .ok s' notify ∧ s'.index = t'.index := by
  rw [fromScratch, ht] at ht'
  cases hadd : addBlock cfg.H cfg.opts t (node.download h) false false false with
  | headerVerificationFailure e s' =>
      simp only [hadd] at ht'
      cases ht'
  | threw e =>
      simp only [hadd] at ht'
      cases ht'
  | ok s' notify =>
      simp only [hadd] at ht'
      cases ht'
      exact addBlock_of_index hindex hadd saveUndo notifySubs trackRecent

end Scratch

/-! ## The rounds -/

/-- The storage and the node have the first blocks in common, and their blocks at one height
are the same if they have the same id. -/
structure Fork (H : Hashers) (node : Node) (k : Nat) (old : List CBlock) : Prop where
  pos : 0 < k
  le : k ≤ old.length
  common : old.take k = node.blocks.take k
  ids : ∀ (h : Nat) (b b' : CBlock), old[h]? = some b → node.blocks[h]? = some b' →
    H.headerPoWHash b.header.serialize = H.headerPoWHash b'.header.serialize → b = b'

/-- The storage has the first `j` blocks of its old chain left, and for those that are not in
common a record and what else an undo reads. -/
structure Rewound (cfg : Config) (k : Nat) (old : List CBlock) (j : Nat) (s : State) : Prop where
  chain : ChainInv cfg.H cfg.opts { state := s, blocks := old.take j }
  le : k ≤ j
  le_length : j ≤ old.length
  records : ∀ h, k ≤ h → h < j → h ∈ s.undo
  readable : ∀ h, k ≤ h → h < j → Readable { state := s, blocks := old } h

/-- The controller goes on to the mempool, or waits for the node to get more blocks. -/
def UpToDate (c : Sync) : Prop := c.sm.state = .synchMempool ∨ c.sm.state = .retryInIBD

section Fork

variable {cfg : Config} {node : Node} {k j : Nat} {old : List CBlock} {s t : State}

theorem Fork.le_blocks (hf : Fork cfg.H node k old) : k ≤ node.blocks.length := by
  have hlen := congrArg List.length hf.common
  rw [List.length_take, List.length_take, Nat.min_eq_left hf.le] at hlen
  omega

theorem Fork.get (hf : Fork cfg.H node k old) {h : Nat} (hh : h < k) :
    old[h]? = node.blocks[h]? := by
  have hget := congrArg (fun l => l[h]?) hf.common
  simpa only [List.getElem?_take_of_lt hh] using hget

/-- The tip of the storage. -/
theorem latestTip_eq {blocks : List CBlock} {b : CBlock}
    (h : ChainInv cfg.H cfg.opts { state := s, blocks := blocks })
    (hb : blocks.getLast? = some b) :
    latestTip cfg.H s =
      ((blocks.length : Int) - 1, some (cfg.H.headerPoWHash b.header.serialize)) := by
  have hpos : 0 < blocks.length := by
    rw [List.length_pos_iff]
    rintro rfl
    cases hb
  have hv := h.verifier
  simp only [hb, Option.map_some, Option.getD_some] at hv
  rw [latestTip, hv]
  simp only
  rw [if_neg]
  rintro (hnil | hneg)
  · exact BTC.serialize_ne_nil _ hnil
  · omega

theorem Rewound.last (hr : Rewound cfg k old j s) (hpos : 0 < k) :
    ∃ b, old[j - 1]? = some b ∧ (old.take j).getLast? = some b ∧ (old.take j).length = j := by
  have hle := hr.le
  have hlen := hr.le_length
  have hget : old[j - 1]? = some old[j - 1] := List.getElem?_eq_getElem (by omega)
  refine ⟨old[j - 1], hget, ?_, by rw [List.length_take]; omega⟩
  rw [List.getLast?_eq_getElem?, List.length_take, Nat.min_eq_left hlen,
    List.getElem?_take_of_lt (by omega)]
  exact hget

theorem Rewound.congr (hr : Rewound cfg k old j s) {s' : State} (hindex : s'.index = s.index)
    (hundo : s'.undo = s.undo) : Rewound cfg k old j s' := by
  refine ⟨hr.chain.congr hindex hundo, hr.le, hr.le_length, ?_, fun h hk hh => ?_⟩
  · rw [hundo]
    exact hr.records
  · refine ⟨?_, ?_⟩
    · simp only [hundo]
      exact (hr.readable h hk hh).record
    · simp only [hindex]
      exact (hr.readable h hk hh).rows

/-- A block that is not in common is undone. -/
theorem Rewound.undo (hr : Rewound cfg k old j s) (hpos : 0 < k) (hlt : k < j)
    (hmax : old.length ≤ intMax + 1) (sm : StateMachine) :
    ∃ s', processDoUndoAndRetry cfg { storage := s, sm := sm } =
        { storage := s', sm := { sm with state := .retry } } ∧
      Rewound cfg k old (j - 1) s' := by
  obtain ⟨i, rfl⟩ : ∃ i, j = i + 2 := ⟨j - 2, by omega⟩
  have hlen := hr.le_length
  have hlength : (old.take (i + 2)).length = i + 2 := by
    rw [List.length_take]
    omega
  have hread : Readable { state := s, blocks := old.take (i + 2) } (i + 1) := by
    have hall := hr.readable (i + 1) (by omega) (by omega)
    refine ⟨hall.record, fun b hb => hall.rows b ?_⟩
    rwa [List.getElem?_take_of_lt (by omega)] at hb
  obtain ⟨u, hu, htable, hchain⟩ := hr.chain.undo_ok hlength (by omega)
    (hr.records (i + 1) (by omega) (by omega)) hread cfg.masterNotifySubsFlag
  refine ⟨u.state, ?_, ?_, by omega, by omega, ?_, ?_⟩
  · rw [processDoUndoAndRetry, hu]
  · have hdrop : (old.take (i + 2)).dropLast = old.take (i + 2 - 1) := by
      rw [List.dropLast_eq_take, hlength, List.take_take, Nat.min_eq_left (by omega)]
    rw [← hdrop]
    exact hchain
  · intro h hk hh
    rw [htable, Std.ExtTreeMap.mem_erase]
    refine ⟨?_, hr.records h hk (by omega)⟩
    rw [ne_eq, Nat.compare_eq_eq]
    omega
  · exact fun h hk hh => (hr.readable h hk (by omega)).undo hu htable

/-- If the last block that is left is one of the node, the index is that of the node. -/
theorem Rewound.index_eq (hr : Rewound cfg k old j s) (hf : Fork cfg.H node k old)
    (hn : node.Valid cfg) (hlinked : Linked cfg.H old)
    (hclean : fromScratch cfg node node.blocks.length = some t) {b : CBlock}
    (hb : old[j - 1]? = some b) (hb' : node.blocks[j - 1]? = some b) :
    ∃ tj, fromScratch cfg node j = some tj ∧ s.index = tj.index := by
  have hle : j ≤ node.blocks.length := by
    have hlt := (List.getElem?_eq_some_iff.mp hb').1
    omega
  have hpos := hf.pos
  have hkj := hr.le
  obtain ⟨tj, htj⟩ := fromScratch_of_le hle hclean
  have hreach := reachable_fromScratch hn hle htj
  have hsame := take_eq_of_linked hlinked (hn.linked hclean) hf.ids hb hb'
  rw [Nat.sub_add_cancel (by omega)] at hsame
  obtain ⟨st, hchain, hst, -⟩ := hr.chain
  obtain ⟨st', hchain', hst'⟩ := chain_of_reachable hreach
  refine ⟨tj, htj, hchain.unique hchain' ?_⟩
  rw [hst, hst']
  exact hsame

/-- The blocks that the old chain does not have are handled by the storage. -/
theorem handles_new (hclean : fromScratch cfg node node.blocks.length = some t) {ht : Nat}
    (hht : ht < node.blocks.length) :
    Handles cfg node.download j ht
      (fun h s => ∃ th, fromScratch cfg node h = some th ∧ s.index = th.index)
      (fun _ => False) := by
  rintro c h - hle ⟨th, hth, hindex⟩
  obtain ⟨th', hth'⟩ := fromScratch_of_le (by omega : h + 1 ≤ node.blocks.length) hclean
  obtain ⟨s', notify, hadd, hindex'⟩ := addBlock_fromScratch hth hth' hindex
    (saveUndoFor cfg c.sm (node.download h).height) cfg.masterNotifySubsFlag cfg.zmqAllowHashTx
  refine .inl ⟨s', ?_, th', hth', hindex'⟩
  rw [processVerifyAndAddBlock, hadd]

/-- The first block of a download is rejected if the tip is not a block of the node. -/
theorem handles_rejected (hr : Rewound cfg k old j s) (hf : Fork cfg.H node k old)
    (hn : node.Valid cfg) (hclean : fromScratch cfg node node.blocks.length = some t)
    (hmax : old.length ≤ intMax + 1) (hlt : j < node.blocks.length)
    (hne : old[j - 1]? ≠ node.blocks[j - 1]?) (hkj : k < j) {ht : Nat} :
    Handles cfg node.download j ht
      (fun h s' => h = j ∧ s'.index = s.index ∧ s'.undo = s.undo)
      (Rewound cfg k old (j - 1)) := by
  rintro c h - - ⟨rfl, hindex, hundo⟩
  refine .inr ?_
  obtain ⟨b, hb, hlast, -⟩ := hr.last hf.pos
  obtain ⟨b', hb'⟩ : ∃ b', node.blocks[h - 1]? = some b' :=
    ⟨_, List.getElem?_eq_getElem (by omega)⟩
  obtain ⟨d, hd⟩ : ∃ d, node.blocks[h]? = some d := ⟨_, List.getElem?_eq_getElem hlt⟩
  obtain ⟨rpaTask, blockHash, blockSize, hfill⟩ := hn.filled h d hd
  have hheader := (prepared_of_fill hfill).1.header
  have hv := hr.chain.verifier
  simp only [hlast, Option.map_some, Option.getD_some] at hv
  have hprev : c.storage.index.headerVerifier.prev ≠ [] := by
    rw [hindex, hv]
    exact BTC.serialize_ne_nil _
  have hlink : cfg.H.headerPoWHash c.storage.index.headerVerifier.prev ≠
      (node.download h).header.hashPrevBlock := by
    have hnext : h - 1 + 1 = h := Nat.sub_add_cancel (by omega)
    have hprevBlock := hn.linked hclean (h - 1) b' d hb' (by rw [hnext]; exact hd)
    rw [hindex, hv, hheader, hprevBlock]
    intro heq
    refine hne ?_
    rw [hb, hb', hf.ids _ b b' hb hb' heq]
  obtain ⟨errMsg, s', hadd, hindex', hundo'⟩ := addBlock_rejects cfg.opts hprev hlink
    (saveUndoFor cfg c.sm (node.download h).height) cfg.masterNotifySubsFlag cfg.zmqAllowHashTx
  obtain ⟨s'', hprocess, hrewound⟩ := (hr.congr (hindex'.trans hindex)
    (hundo'.trans hundo)).undo hf.pos hkj hmax c.sm
  refine ⟨s'', ?_, hrewound⟩
  rw [processVerifyAndAddBlock, hadd]
  simp only [hprocess]

end Fork

section Round

variable {cfg : Config} {node : Node} {k j : Nat} {old : List CBlock} {s t : State} {tip : Int}
  {tipHash : Option Hash}

theorem processDoUndoAndRetry_state (c : Sync) :
    (processDoUndoAndRetry cfg c).sm.state ≠ .getBlocks := by
  rw [processDoUndoAndRetry]
  cases undoLatestBlock cfg.H c.storage cfg.masterNotifySubsFlag with
  | ok u => simp
  | error e => simp

variable (hready : ¬((node.chainInfo cfg.H).blocks < 1 ∧
    (node.chainInfo cfg.H).initialBlockDownload = true))
  (htip : latestTip cfg.H s = (tip, tipHash)) (order : ArrivalOrder)

include hready htip

/-- A round that finds the tip of the node. -/
theorem round_upToDate (heq : tip = (node.chainInfo cfg.H).blocks)
    (hhash : some (node.chainInfo cfg.H).bestBlockhash = tipHash) :
    UpToDate (round cfg node order s) ∧ (round cfg node order s).storage = s := by
  have hprocess : processChainInfo cfg { storage := s, sm := {} } (node.chainInfo cfg.H) =
      { storage := s
        sm :=
          { ht := (node.chainInfo cfg.H).blocks
            nHeaders := (node.chainInfo cfg.H).headers
            state := if node.initialBlockDownload then .retryInIBD else .synchMempool } } := by
    rw [processChainInfo, if_neg hready, htip]
    simp only
    rw [if_pos heq, if_pos hhash]
    rfl
  rw [round, hprocess]
  cases node.initialBlockDownload with
  | true => exact ⟨.inr rfl, rfl⟩
  | false => exact ⟨.inl rfl, rfl⟩

/-- A round that finds another block at the height of the tip, or a higher tip. -/
theorem round_undo (hother : tip > (node.chainInfo cfg.H).blocks ∨
      tip = (node.chainInfo cfg.H).blocks ∧ some (node.chainInfo cfg.H).bestBlockhash ≠ tipHash) :
    ∃ sm, round cfg node order s = processDoUndoAndRetry cfg { storage := s, sm := sm } := by
  have hprocess : processChainInfo cfg { storage := s, sm := {} } (node.chainInfo cfg.H) =
      processDoUndoAndRetry cfg
        { storage := s
          sm :=
            { ht := (node.chainInfo cfg.H).blocks
              nHeaders := (node.chainInfo cfg.H).headers } } := by
    rw [processChainInfo, if_neg hready, htip]
    simp only
    rcases hother with hgt | ⟨heq, hne⟩
    · rw [if_neg (by omega), if_pos hgt]
    · rw [if_pos heq, if_neg hne]
  have hround : round cfg node order s = _ := if_neg (by
    rw [hprocess]
    exact processDoUndoAndRetry_state _)
  exact ⟨_, hround.trans hprocess⟩

/-- A round that finds a lower tip. -/
theorem round_download (hlt : tip < (node.chainInfo cfg.H).blocks) :
    ∃ c : Sync, c.storage = s ∧ c.sm.state = .downloadingBlocks ∧
      c.sm.endHeight = (node.chainInfo cfg.H).blocks.toNat ∧
      c.sm.dlResultsHtNext = (tip + 1).toNat ∧ c.sm.dlResults = ∅ ∧
      round cfg node order s = receiveBlocks cfg node
        (order.heights (tip + 1).toNat (node.chainInfo cfg.H).blocks.toNat) c := by
  have hprocess : ∃ suppress,
      processChainInfo cfg { storage := s, sm := {} } (node.chainInfo cfg.H) =
        { storage := s
          sm :=
            { ht := (node.chainInfo cfg.H).blocks
              nHeaders := (node.chainInfo cfg.H).headers
              state := .getBlocks
              suppressSaveUndo := suppress } } := by
    rw [processChainInfo, if_neg hready, htip]
    simp only
    rw [if_neg (by omega), if_neg (by omega)]
    exact ⟨_, rfl⟩
  obtain ⟨suppress, hprocess⟩ := hprocess
  refine ⟨processGetBlocks cfg (processChainInfo cfg { storage := s, sm := {} }
    (node.chainInfo cfg.H)), ?_, rfl, ?_, ?_, ?_, ?_⟩
  · rw [hprocess]
    rfl
  · rw [hprocess]
    rfl
  · rw [hprocess]
    simp only [processGetBlocks, htip]
  · rw [hprocess]
    rfl
  · rw [round, hprocess]
    simp only [if_true, processGetBlocks, htip]

end Round

section Fork

variable {cfg : Config} {node : Node} {k j : Nat} {old : List CBlock} {s t : State}

theorem not_in_header_download (H : Hashers)
    (hready : 2 ≤ node.blocks.length ∨ node.initialBlockDownload = false) :
    ¬((node.chainInfo H).blocks < 1 ∧ (node.chainInfo H).initialBlockDownload = true) := by
  rintro ⟨hlow, hibd⟩
  simp only [Node.chainInfo] at hlow hibd
  rcases hready with hlen | hno
  · omega
  · rw [hno] at hibd
    cases hibd

/-- A storage with the index of the node is up to date. -/
theorem round_of_index (hn : node.Valid cfg)
    (hclean : fromScratch cfg node node.blocks.length = some t) (hne : node.blocks ≠ [])
    (hready : 2 ≤ node.blocks.length ∨ node.initialBlockDownload = false)
    (hindex : s.index = t.index) (order : ArrivalOrder) :
    UpToDate (round cfg node order s) ∧ (round cfg node order s).storage = s := by
  have hinv := (linked_of_reachable (hn.reachable hclean)).1
  obtain ⟨b, hb⟩ : ∃ b, node.blocks.getLast? = some b :=
    ⟨_, List.getLast?_eq_some_getLast hne⟩
  have htip : latestTip cfg.H s = ((node.blocks.length : Int) - 1,
      some (cfg.H.headerPoWHash b.header.serialize)) := by
    rw [latestTip, hindex]
    exact latestTip_eq hinv hb
  refine round_upToDate (not_in_header_download cfg.H hready) htip order rfl ?_
  rw [Node.chainInfo, hb]
  rfl

/-- What one round can do: the storage is up to date, a block is undone, or the blocks of the
node are added. -/
theorem round_cases (hr : Rewound cfg k old j s) (hf : Fork cfg.H node k old)
    (hn : node.Valid cfg) (hlinked : Linked cfg.H old)
    (hclean : fromScratch cfg node node.blocks.length = some t)
    (hmax : old.length ≤ intMax + 1)
    (hready : 2 ≤ node.blocks.length ∨ node.initialBlockDownload = false)
    (order : ArrivalOrder) :
    s.index = t.index ∨
      ((round cfg node order s).sm.state = .retry ∧ k < j ∧
        Rewound cfg k old (j - 1) (round cfg node order s).storage) ∨
      (round cfg node order s).sm.state = .finishedDL ∧
        (round cfg node order s).storage.index = t.index := by
  have hpos := hf.pos
  have hkj := hr.le
  have hkN := hf.le_blocks
  obtain ⟨b, hb, hlast, hlen⟩ := hr.last hf.pos
  have htip := latestTip_eq hr.chain hlast
  rw [hlen] at htip
  have hready' := not_in_header_download cfg.H hready
  have hblocks : (node.chainInfo cfg.H).blocks = (node.blocks.length : Int) - 1 := rfl
  -- a tip that is not one of the node is above the common blocks
  have habove : old[j - 1]? ≠ node.blocks[j - 1]? → k < j := by
    intro hne
    by_contra hnot
    exact hne (hf.get (by omega))
  have hundo : k < j → (∃ sm, round cfg node order s =
        processDoUndoAndRetry cfg { storage := s, sm := sm }) →
      (round cfg node order s).sm.state = .retry ∧ k < j ∧
        Rewound cfg k old (j - 1) (round cfg node order s).storage := by
    rintro hlt ⟨sm, hround⟩
    obtain ⟨s', hprocess, hrewound⟩ := hr.undo hpos hlt hmax sm
    rw [hround, hprocess]
    exact ⟨rfl, hlt, hrewound⟩
  rcases Nat.lt_trichotomy j node.blocks.length with hlow | heq | hhigh
  · -- the blocks above the tip are downloaded
    obtain ⟨c, hstorage, hstate, hend, hnext, hempty, hround⟩ :=
      round_download hready' htip order (by rw [hblocks]; omega)
    have hbase : ((j : Int) - 1 + 1).toNat = j := by omega
    have hht : ((node.blocks.length : Int) - 1).toNat = node.blocks.length - 1 := by omega
    rw [hblocks, hht] at hend hround
    rw [hbase] at hnext hround
    have hheight : ∀ h, j ≤ h → h ≤ node.blocks.length - 1 → (node.download h).height = h :=
      fun h _ hle => hn.height (by omega)
    by_cases hsame : old[j - 1]? = node.blocks[j - 1]?
    · obtain ⟨tj, htj, hindex⟩ := hr.index_eq hf hn hlinked hclean hb (hsame ▸ hb)
      rw [← hstorage] at hindex
      rcases download_progress (handles_new hclean (by omega)) hheight hstate hend hnext hempty
        (by omega) ⟨tj, htj, hindex⟩ (order.perm _ _) with ⟨hfin, t', ht', hindex'⟩ | ⟨-, hfalse⟩
      · rw [Nat.sub_add_cancel (by omega), hclean] at ht'
        cases ht'
        rw [hround]
        exact .inr (.inr ⟨hfin, hindex'⟩)
      · exact hfalse.elim
    · have hlt := habove hsame
      have hP : j = j ∧ c.storage.index = s.index ∧ c.storage.undo = s.undo := by
        rw [hstorage]
        exact ⟨rfl, rfl, rfl⟩
      rcases download_progress (handles_rejected hr hf hn hclean hmax hlow hsame hlt) hheight hstate
        hend hnext hempty (by omega) hP (order.perm _ _) with ⟨-, hfin, -⟩ | ⟨hretry, hrewound⟩
      · omega
      · rw [hround]
        exact .inr (.inl ⟨hretry, hlt, hrewound⟩)
  · -- the same height
    obtain ⟨b', hb'⟩ : ∃ b', node.blocks[j - 1]? = some b' :=
      ⟨_, List.getElem?_eq_getElem (by omega)⟩
    have hbest : (node.chainInfo cfg.H).bestBlockhash =
        cfg.H.headerPoWHash b'.header.serialize := by
      rw [Node.chainInfo, List.getLast?_eq_getElem?, ← heq, hb']
      rfl
    by_cases hsame : b = b'
    · subst hsame
      obtain ⟨tj, htj, hindex⟩ := hr.index_eq hf hn hlinked hclean hb hb'
      rw [heq, hclean] at htj
      cases htj
      exact .inl hindex
    · refine .inr (.inl (hundo (habove ?_) (round_undo hready' htip order (.inr ⟨?_, ?_⟩))))
      · rw [hb, hb']
        exact fun h => hsame (Option.some.inj h)
      · rw [hblocks, heq]
      · rw [hbest]
        intro hhash
        exact hsame (hf.ids _ b b' hb hb' (Option.some.inj hhash).symm)
  · exact .inr (.inl (hundo (by omega)
      (round_undo hready' htip order (.inl (by rw [hblocks]; omega)))))

/-- Rounds that go back to a common block and on to the tip of the node. -/
theorem synch_reaches (hf : Fork cfg.H node k old) (hn : node.Valid cfg)
    (hlinked : Linked cfg.H old)
    (hclean : fromScratch cfg node node.blocks.length = some t)
    (hmax : old.length ≤ intMax + 1)
    (hready : 2 ≤ node.blocks.length ∨ node.initialBlockDownload = false)
    (order : Nat → ArrivalOrder) (hr : Rewound cfg k old j s) (i : Nat) :
    ∃ n c, n ≤ j - k + 2 ∧ synch cfg node order n i s = some c ∧ UpToDate c ∧
      c.storage.index = t.index := by
  have hne : node.blocks ≠ [] := by
    rw [← List.length_pos_iff]
    have hle := hf.le_blocks
    have hpos := hf.pos
    omega
  -- one more round finds nothing to do
  have hlast : ∀ (i : Nat) (s : State), s.index = t.index →
      ∃ c, synch cfg node order 1 i s = some c ∧ UpToDate c ∧ c.storage.index = t.index := by
    intro i s hindex
    obtain ⟨hup, hstorage⟩ := round_of_index hn hclean hne hready hindex (order i)
    refine ⟨round cfg node (order i) s, ?_, hup, by rw [hstorage]; exact hindex⟩
    rw [synch]
    refine if_neg ?_
    rcases hup with hst | hst
    · rw [hst]
      simp
    · rw [hst]
      simp
  generalize hm : j - k = m
  induction m generalizing j s i with
  | zero =>
      rcases round_cases hr hf hn hlinked hclean hmax hready (order i) with
        hindex | ⟨-, hlt, -⟩ | ⟨hfin, hindex⟩
      · obtain ⟨c, hc, hup, hsame⟩ := hlast i s hindex
        exact ⟨1, c, by omega, hc, hup, hsame⟩
      · omega
      · obtain ⟨c, hc, hup, hsame⟩ := hlast (i + 1) _ hindex
        refine ⟨2, c, by omega, ?_, hup, hsame⟩
        rw [synch]
        exact (if_pos (.inr hfin)).trans hc
  | succ m ih =>
      rcases round_cases hr hf hn hlinked hclean hmax hready (order i) with
        hindex | ⟨hretry, hlt, hrewound⟩ | ⟨hfin, hindex⟩
      · obtain ⟨c, hc, hup, hsame⟩ := hlast i s hindex
        exact ⟨1, c, by omega, hc, hup, hsame⟩
      · obtain ⟨n, c, hn', hc, hup, hsame⟩ := ih hrewound (i + 1) (by omega)
        refine ⟨n + 1, c, by omega, ?_, hup, hsame⟩
        rw [synch]
        exact (if_pos (.inl hretry)).trans hc
      · obtain ⟨c, hc, hup, hsame⟩ := hlast (i + 1) _ hindex
        refine ⟨2, c, by omega, ?_, hup, hsame⟩
        rw [synch]
        exact (if_pos (.inr hfin)).trans hc

/-- From every state of the storage that shares its first blocks with the chain of the node and
has for the others records and rows of less than two gibibytes, at most two rounds more than
there are blocks to be undone end with the index that the blocks of the node give from scratch,
in whatever order the blocks arrive.  No undo fails, since a failure would be the last round. -/
theorem reorg_converges {r : ChainRun}
    (hr : Reachable ChainRun.Start (ChainStep cfg.H cfg.opts ValidBlock) r)
    (hf : Fork cfg.H node k r.blocks) (hundo : ∀ h, k ≤ h → h < r.blocks.length → h ∈ r.state.undo)
    (hread : ∀ h, k ≤ h → h < r.blocks.length → Readable r h)
    (hmax : r.blocks.length ≤ intMax + 1) (hn : node.Valid cfg)
    (hclean : fromScratch cfg node node.blocks.length = some t)
    (hready : 2 ≤ node.blocks.length ∨ node.initialBlockDownload = false)
    (order : Nat → ArrivalOrder) :
    ∃ n c, n ≤ r.blocks.length - k + 2 ∧ synch cfg node order n 0 r.state = some c ∧
      UpToDate c ∧ c.storage.index = t.index := by
  obtain ⟨hinv, hlinked⟩ := linked_of_reachable hr
  have hrewound : Rewound cfg k r.blocks r.blocks.length r.state := by
    refine ⟨?_, hf.le, le_rfl, hundo, hread⟩
    rw [List.take_length]
    exact hinv
  exact synch_reaches hf hn hlinked hclean hmax hready order hrewound 0

end Fork

section SmallFork

open Mempool

/-- The id of a header is the first byte of its nonce. -/
def nonceHashers : Hashers :=
  { opTrueHashers with headerPoWHash := fun hdr => BitVec.ofNat 256 (hdr.getD 76 0).toNat }

/-- A block with nothing but a coinbase, which has the nonce as its id. -/
def nonceBlock (prev nonce : Nat) (h : BitVec.ofNat 256 nonce ≠ 0) : CBlock where
  header := { plainHeader (BitVec.ofNat 256 prev) with nNonce := BitVec.ofNat 32 nonce }
  vtx := [coinbaseTx (BitVec.ofNat 256 nonce)]
  coinbase := rfl
  hash_ne_null := by simpa [coinbaseTx] using h

def genesis : CBlock := nonceBlock 0 1 (by decide)

/-- A block that the node does not have. -/
def staleBlock : CBlock := nonceBlock 1 2 (by decide)

def nodeBlocks : List CBlock :=
  [genesis, nonceBlock 1 3 (by decide), nonceBlock 3 4 (by decide)]

def preparedNonce (height : Nat) (b : CBlock) : PreProcessedBlock :=
  match fill nonceHashers height none 0 100 b with
  | .ok ppb => ppb
  | .error _ => { height := height, hash := 0, sizeBytes := 0, header := b.header }

def smallNode : Node where
  blocks := nodeBlocks
  headers := 2
  initialBlockDownload := false
  download h := preparedNonce h (nodeBlocks.getD h genesis)

def smallConfig : Config where
  H := nonceHashers
  opts := {}
  masterNotifySubsFlag := true
  zmqAllowHashTx := false

/-- The blocks arrive from the last to the first. -/
def lastFirst : ArrivalOrder where
  heights base ht := (List.range' base (ht + 1 - base)).reverse
  perm _ _ := List.reverse_perm _

/-- The storage after the first block. -/
def genesisState : State :=
  match addBlock nonceHashers {} {} (preparedNonce 0 genesis) true false false with
  | .ok s _ => s
  | _ => {}

theorem reachable_genesisState :
    Reachable ChainRun.Start (ChainStep nonceHashers {} ValidBlock)
      { state := genesisState, blocks := [genesis] } := by
  have hfill : fill nonceHashers 0 none 0 100 genesis = .ok (preparedNonce 0 genesis) := rfl
  have hadd : ∃ notify, addBlock nonceHashers {} {} (preparedNonce 0 genesis) true false false =
      .ok genesisState notify := ⟨_, rfl⟩
  obtain ⟨_, hadd⟩ := hadd
  exact .next (.start rfl) (.add hfill ⟨by decide, by simp [chainTxs], by decide⟩ (by decide) hadd)

/-- A storage with the block that the node does not have, and its record. -/
theorem exists_staleState : ∃ s : State,
    Reachable ChainRun.Start (ChainStep nonceHashers {} ValidBlock)
      { state := s, blocks := [genesis, staleBlock] } ∧ 1 ∈ s.undo ∧
      Readable { state := s, blocks := [genesis, staleBlock] } 1 := by
  have hfill : fill nonceHashers 1 none 0 100 staleBlock = .ok (preparedNonce 1 staleBlock) := rfl
  obtain ⟨s, notify, hadd⟩ : ∃ s notify, addBlock nonceHashers {} genesisState
      (preparedNonce 1 staleBlock) true false false = .ok s notify := ⟨_, _, rfl⟩
  have hw := (sound_of_reachable reachable_genesisState).wellFormed
  obtain ⟨ch, hc, hindex, hexpired⟩ := connected_of_addBlock hfill (by decide) hadd
  have hrecord := hexpired.get_saved
  refine ⟨s, reachable_genesisState.next
    (.add hfill ⟨by decide, by decide, by decide⟩ (by decide) hadd),
    mem_iff_getElem?.mpr ⟨_, hrecord⟩, ?_⟩
  have hlen : [genesis].length = (preparedNonce 1 staleBlock).height := rfl
  exact (hc.readable_concat_iff hw hindex hlen hrecord).mpr ⟨by decide, by decide⟩

theorem fromScratch_smallNode : ∃ t, fromScratch smallConfig smallNode 3 = some t := ⟨_, rfl⟩

theorem valid_smallNode : smallNode.Valid smallConfig where
  filled h b hb := by
    match h, hb with
    | 0, hb => cases hb; exact ⟨none, 0, 100, rfl⟩
    | 1, hb => cases hb; exact ⟨none, 0, 100, rfl⟩
    | 2, hb => cases hb; exact ⟨none, 0, 100, rfl⟩
  valid h b hb := by
    match h, hb with
    | 0, hb => cases hb; exact ⟨by decide, by decide, by decide⟩
    | 1, hb => cases hb; exact ⟨by decide, by decide, by decide⟩
    | 2, hb => cases hb; exact ⟨by decide, by decide, by decide⟩
  fits := by decide

theorem fork_smallNode : Fork nonceHashers smallNode 1 [genesis, staleBlock] where
  pos := by decide
  le := by decide
  common := rfl
  ids h b b' hb hb' heq := by
    match h, hb, hb' with
    | 0, hb, hb' =>
        cases hb
        cases hb'
        rfl
    | 1, hb, hb' =>
        cases hb
        cases hb'
        exact absurd heq (by decide)

/-- One block is undone and two are added. -/
theorem reorg_converges_small : ∃ s t,
    Reachable ChainRun.Start (ChainStep nonceHashers {} ValidBlock)
        { state := s, blocks := [genesis, staleBlock] } ∧
      fromScratch smallConfig smallNode 3 = some t ∧
      ∃ n c, n ≤ 3 ∧ synch smallConfig smallNode (fun _ => lastFirst) n 0 s = some c ∧
        UpToDate c ∧ c.storage.index = t.index := by
  obtain ⟨s, hs, hundo, hread⟩ := exists_staleState
  obtain ⟨t, ht⟩ := fromScratch_smallNode
  have hmax : [genesis, staleBlock].length ≤ intMax + 1 := by decide
  have hs' : Reachable ChainRun.Start (ChainStep smallConfig.H smallConfig.opts ValidBlock)
    { state := s, blocks := [genesis, staleBlock] } := hs
  have hone : ∀ h, 1 ≤ h → h < [genesis, staleBlock].length → h = 1 := by
    intro h hk hlt
    have hlt' : h < 2 := hlt
    omega
  refine ⟨s, t, hs, ht, reorg_converges hs' fork_smallNode ?_ ?_ hmax valid_smallNode ht
    (.inl (by decide)) _⟩
  · intro h hk hlt
    rw [hone h hk hlt]
    exact hundo
  · intro h hk hlt
    rw [hone h hk hlt]
    exact hread

/-- A block that the node does not have, of about 256 megabytes. -/
def wideStale : CBlock :=
  wideBlock { plainHeader 1 with nNonce := 2 } 2 5 1 14200000 (by decide)

/-- The first two blocks of the node. -/
def shortNode : Node :=
  { smallNode with blocks := nodeBlocks.take 2, headers := 1 }

theorem valid_shortNode : shortNode.Valid smallConfig where
  filled h b hb := by
    match h, hb with
    | 0, hb => cases hb; exact ⟨none, 0, 100, rfl⟩
    | 1, hb => cases hb; exact ⟨none, 0, 100, rfl⟩
  valid h b hb := by
    match h, hb with
    | 0, hb => cases hb; exact ⟨by decide, by decide, by decide⟩
    | 1, hb => cases hb; exact ⟨by decide, by decide, by decide⟩
  fits := by decide

theorem fork_shortNode : Fork nonceHashers shortNode 1 [genesis, wideStale] where
  pos := by decide
  le := by decide
  common := rfl
  ids h b b' hb hb' heq := by
    match h, hb, hb' with
    | 0, hb, hb' =>
        cases hb
        cases hb'
        rfl
    | 1, hb, hb' =>
        cases hb
        cases hb'
        exact absurd heq (by decide)

/-- A storage whose last block has a record of two gibibytes. -/
theorem exists_wideState : ∃ s : State,
    Reachable ChainRun.Start (ChainStep nonceHashers {} ValidBlock)
      { state := s, blocks := [genesis, wideStale] } ∧ 1 ∈ s.undo ∧
      ¬ Readable { state := s, blocks := [genesis, wideStale] } 1 := by
  have hb : Extends nonceHashers {} genesisState.index wideStale :=
    extends_wideBlock rfl ⟨_, rfl, by decide⟩ (by decide) (by decide)
      (mem_iff_getElem?.mpr ⟨_, rfl⟩) (by decide) (by decide) (by decide) (by decide)
  have hrpa : ∀ work ∈ (none : Option (List CTransaction → Except Exception (List UInt8))),
      ∃ ser, work wideStale.vtx = .ok ser := by simp
  have hw := (sound_of_reachable reachable_genesisState).wellFormed
  obtain ⟨ppb, ch, s, notify, hfill, hadd, hc, hindex, hexpired⟩ :=
    hb.accepted reachable_genesisState hrpa 0 100 true false false
  have hheight : ppb.height = 1 := hc.height
  have hrecord := hexpired.get_saved
  refine ⟨s, reachable_genesisState.next
    (.add hfill ⟨by decide, by decide, by decide⟩ hb.txNum_le hadd), ?_, fun hread => ?_⟩
  · rw [← hheight]
    exact mem_iff_getElem?.mpr ⟨_, hrecord⟩
  · have hlen : [genesis].length = ppb.height := hheight.symm
    rw [← hheight] at hread
    have hsize := ((hc.readable_concat_iff hw hindex hlen hrecord).mp hread).1
    have hle : 2 ^ 31 ≤ undoSize nonceHashers genesisState.index wideStale :=
      le_undoSize_wideBlock _ _ (by decide)
    exact absurd hsize (not_lt.mpr hle)

theorem ready_shortNode : ¬((shortNode.chainInfo smallConfig.H).blocks < 1 ∧
    (shortNode.chainInfo smallConfig.H).initialBlockDownload = true) :=
  not_in_header_download smallConfig.H (.inr rfl)

theorem best_shortNode : some (shortNode.chainInfo smallConfig.H).bestBlockhash ≠
    some (nonceHashers.headerPoWHash wideStale.header.serialize) := by
  have hbest : (shortNode.chainInfo smallConfig.H).bestBlockhash = 3 := rfl
  have hstale : nonceHashers.headerPoWHash wideStale.header.serialize = 2 := rfl
  rw [hbest, hstale]
  decide

/-- The record of the block to be undone has two gibibytes: the first round fails. -/
theorem reorg_fails_wide : ∃ s t,
    Reachable ChainRun.Start (ChainStep nonceHashers {} ValidBlock)
        { state := s, blocks := [genesis, wideStale] } ∧
      Fork nonceHashers shortNode 1 [genesis, wideStale] ∧
      (∀ h, 1 ≤ h → h < 2 → h ∈ s.undo) ∧ shortNode.Valid smallConfig ∧
      fromScratch smallConfig shortNode 2 = some t ∧
      ∀ n c, synch smallConfig shortNode (fun _ => lastFirst) n 0 s = some c →
        c.sm.state = .failure := by
  obtain ⟨s, hs, hundo, hread⟩ := exists_wideState
  obtain ⟨t, ht⟩ : ∃ t, fromScratch smallConfig shortNode 2 = some t := ⟨_, rfl⟩
  have hinv : ChainInv smallConfig.H smallConfig.opts
      { state := s, blocks := [genesis, wideStale] } := (linked_of_reachable hs).1
  have herror : ∀ u, undoLatestBlock nonceHashers s true ≠ .ok u := fun u hu =>
    hread ((hinv.undo_ok_iff rfl (by decide) hundo true).mp ⟨u, hu⟩)
  have htip : latestTip smallConfig.H s =
      (1, some (nonceHashers.headerPoWHash wideStale.header.serialize)) :=
    latestTip_eq hinv rfl
  obtain ⟨sm, hround⟩ := round_undo ready_shortNode htip lastFirst (.inr ⟨rfl, best_shortNode⟩)
  have hfailure : (round smallConfig shortNode lastFirst s).sm.state = .failure := by
    rw [hround, processDoUndoAndRetry]
    cases hu : undoLatestBlock smallConfig.H s smallConfig.masterNotifySubsFlag with
    | ok u => exact absurd hu (herror u)
    | error e => rfl
  refine ⟨s, t, hs, fork_shortNode, ?_, valid_shortNode, ht, fun n c hsynch => ?_⟩
  · intro h hk hlt
    obtain rfl : h = 1 := by omega
    exact hundo
  · cases n with
    | zero => cases hsynch
    | succ n =>
        rw [synch, if_neg (by simp [hfailure])] at hsynch
        cases hsynch
        exact hfailure

end SmallFork

end Controller
end Shulcrum
