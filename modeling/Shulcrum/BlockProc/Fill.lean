import Shulcrum.BlockProc.Aggregates
import Shulcrum.Lib.Flatten

/-!
# What preprocessing yields

The lists of outputs and inputs are the flattened lists of the block, and the
entry of a script hash names the transactions that fund it or spend one of its
outputs inside the block.

**Results.**
* `prepared_of_fill`: everything a caller of `fill` can rely on.
* `fill_ok`: blocks whose output indices fit and whose in-block inputs exist are
  accepted.
-/

namespace Shulcrum
namespace PreProcessedBlock

open TreeMap Flatten

variable {H : Hashers} {height : Nat}

/-- The outputs of a block: transaction index, output index and output. -/
def flatOuts (vtx : List CTransaction) : List (Nat × Nat × CTxOut) := flat CTransaction.vout vtx

/-- The inputs of a block: transaction index, input index and input. -/
def flatIns (vtx : List CTransaction) : List (Nat × Nat × CTxIn) := flat CTransaction.vin vtx

def outPt (e : Nat × Nat × CTxOut) : OutPt :=
  { txIdx := e.1, outN := e.2.1, amount := e.2.2.nValue, tokenDataPtr := e.2.2.tokenDataPtr }

def inputPt (e : Nat × Nat × CTxIn) : InputPt :=
  { txIdx := e.1, prevoutHash := e.2.2.prevout.txHash, prevoutN := e.2.2.prevout.outN }

/-- The index of the last transaction with a given id. -/
def lastIdx (vtx : List CTransaction) : Std.ExtTreeMap TxHash Nat compare :=
  vtx.zipIdx.foldl (fun m e => m.insert e.1.hash e.2) ∅

/-- Transaction `i` has an output to the script hash. -/
def OutTouch (H : Hashers) (vtx : List CTransaction) (hx : HashX) (i : Nat) : Prop :=
  ∃ tx, vtx[i]? = some tx ∧ ∃ out ∈ tx.vout, out.LockedTo H hx

/-- The output at position `p` of the block pays to the script hash. -/
def OutAt (H : Hashers) (vtx : List CTransaction) (hx : HashX) (p : Nat) : Prop :=
  ∃ e, (flatOuts vtx)[p]? = some e ∧ e.2.2.LockedTo H hx

theorem lastIdx_concat (vtx : List CTransaction) (tx : CTransaction) :
    lastIdx (vtx ++ [tx]) = (lastIdx vtx).insert tx.hash vtx.length := by
  simp [lastIdx, List.zipIdx_append]

theorem get_of_lastIdx {vtx : List CTransaction} {h : TxHash} {k : Nat}
    (hk : (lastIdx vtx)[h]? = some k) : ∃ tx, vtx[k]? = some tx ∧ tx.hash = h := by
  induction vtx using List.reverseRecOn with
  | nil => simp [lastIdx] at hk
  | append_singleton vtx tx ih =>
      rw [lastIdx_concat, get_insert] at hk
      split_ifs at hk with hh
      · cases hk
        exact ⟨tx, by simp, hh⟩
      · obtain ⟨tx', hget, hhash⟩ := ih hk
        obtain ⟨hlt, -⟩ := List.getElem?_eq_some_iff.mp hget
        exact ⟨tx', by rw [List.getElem?_append_left hlt, hget], hhash⟩

theorem mem_lastIdx {vtx : List CTransaction} {h : TxHash} :
    h ∈ lastIdx vtx ↔ ∃ tx ∈ vtx, tx.hash = h := by
  induction vtx using List.reverseRecOn with
  | nil => simp [lastIdx]
  | append_singleton vtx tx ih =>
      rw [lastIdx_concat, Std.ExtTreeMap.mem_insert, Std.LawfulEqCmp.compare_eq_iff_eq, ih]
      simp only [List.mem_append, List.mem_singleton]
      constructor
      · rintro (hh | ⟨tx', htx', hh⟩)
        · exact ⟨tx, .inr rfl, hh⟩
        · exact ⟨tx', .inl htx', hh⟩
      · rintro ⟨tx', htx' | rfl, hh⟩
        · exact .inr ⟨tx', htx', hh⟩
        · exact .inl hh

/-- With distinct ids the index of an id is the position of its transaction. -/
theorem lastIdx_eq_some {vtx : List CTransaction} (hnodup : (vtx.map CTransaction.hash).Nodup)
    {h : TxHash} {k : Nat} :
    (lastIdx vtx)[h]? = some k ↔ ∃ tx, vtx[k]? = some tx ∧ tx.hash = h := by
  refine ⟨get_of_lastIdx, ?_⟩
  rintro ⟨tx, hget, rfl⟩
  have hmem : tx.hash ∈ lastIdx vtx := mem_lastIdx.mpr ⟨tx, List.mem_of_getElem? hget, rfl⟩
  obtain ⟨k', hk'⟩ := mem_iff_getElem?.mp hmem
  obtain ⟨tx', hget', hhash⟩ := get_of_lastIdx hk'
  have hkk : k' = k := by
    obtain ⟨hlt, -⟩ := List.getElem?_eq_some_iff.mp hget'
    refine (List.getElem?_inj (by rwa [List.length_map]) hnodup).mp ?_
    rw [List.getElem?_map, List.getElem?_map, hget, hget', Option.map_some, Option.map_some, hhash]
  rw [hk', hkk]

section Loops

/-- What the loop over the transactions has collected after `pre`. -/
structure Filled (H : Hashers) (pre : List CTransaction) (f : FillState) : Prop where
  hashes : f.txInfos.map TxInfo.hash = pre.map CTransaction.hash
  output0 : ∀ i tx, pre[i]? = some tx → f.txInfos[i]?.bind TxInfo.output0Index =
    if tx.vout.isEmpty then none else some (offset CTransaction.vout pre i)
  outputs : f.outputs = (flatOuts pre).map outPt
  inputs : f.inputs = (flatIns pre).map inputPt
  index : f.txHashToIndex = lastIdx pre
  outN : ∀ tx ∈ pre, tx.vout.length ≤ ioNumMax + 1
  prevoutN : ∀ i tx, 0 < i → pre[i]? = some tx → ∀ input ∈ tx.vin, input.prevout.outN ≤ ioNumMax
  agg : Aggregates f.hashXAggregated (OutTouch H pre) (OutAt H pre)

theorem filled_nil : Filled H [] {} := by
  refine ⟨rfl, ?_, rfl, rfl, rfl, ?_, ?_, ?_⟩
  · intro i tx h
    simp at h
  · simp
  · intro i tx _ h
    simp at h
  · refine Aggregates.empty.congr ?_ ?_
    · simp [OutTouch]
    · simp [OutAt, flatOuts]

/-- The loop over the outputs of one transaction, starting at position `k`. -/
theorem aggregates_outputs {m : HashXAggregated} {T O : HashX → Nat → Prop}
    (h : Aggregates m T O) (txIdx : Nat) (outs : List CTxOut) {k : Nat}
    (hlt : ∀ hx p, O hx p → p < k) :
    Aggregates ((outs.zipIdx k).foldl (aggregateOutput H txIdx) m)
      (fun hx j => T hx j ∨ (j = txIdx ∧ ∃ out ∈ outs, out.LockedTo H hx))
      fun hx p => O hx p ∨ ∃ n out, outs[n]? = some out ∧ p = k + n ∧ out.LockedTo H hx := by
  induction outs generalizing m T O k with
  | nil =>
      refine h.congr ?_ ?_ <;> simp
  | cons out outs ih =>
      rw [List.zipIdx_cons, List.foldl_cons]
      have hshift : ∀ hx p, (∃ n o, (out :: outs)[n]? = some o ∧ p = k + n ∧ o.LockedTo H hx) ↔
          (p = k ∧ out.LockedTo H hx) ∨
            ∃ n o, outs[n]? = some o ∧ p = k + 1 + n ∧ o.LockedTo H hx := by
        intro hx p
        constructor
        · rintro ⟨n, o, hget, rfl, hlock⟩
          cases n with
          | zero =>
              cases hget
              exact .inl ⟨rfl, hlock⟩
          | succ n => exact .inr ⟨n, o, hget, by omega, hlock⟩
        · rintro (⟨rfl, hlock⟩ | ⟨n, o, hget, rfl, hlock⟩)
          · exact ⟨0, out, rfl, rfl, hlock⟩
          · exact ⟨n + 1, o, hget, by omega, hlock⟩
      by_cases hop : BTC.isOpReturn out.scriptPubKey = true
      · have hnot : ∀ hx, ¬ out.LockedTo H hx := by
          intro hx hlock
          rw [hlock.1] at hop
          cases hop
        rw [aggregateOutput, if_pos hop]
        refine (ih h fun hx p hp => Nat.lt_succ_of_lt (hlt hx p hp)).congr ?_ ?_
        · intro hx j
          simp [hnot]
        · intro hx p
          rw [hshift]
          simp [hnot]
      · have hlock : ∀ hx, out.LockedTo H hx ↔ H.hashXFromCScript out.scriptPubKey = hx := by
          intro hx
          rw [CTxOut.LockedTo, eq_false_of_ne_true hop]
          simp
        rw [aggregateOutput, if_neg hop]
        have hnew := h.addOut (H.hashXFromCScript out.scriptPubKey) (o := k) txIdx
          fun hx hp => absurd (hlt hx k hp) (lt_irrefl k)
        refine (ih hnew ?_).congr ?_ ?_
        · rintro hx p (hp | ⟨-, rfl⟩)
          · exact Nat.lt_succ_of_lt (hlt hx p hp)
          · exact Nat.lt_succ_self _
        · intro hx j
          simp only [List.mem_cons, exists_eq_or_imp, hlock]
          tauto
        · intro hx p
          rw [hshift, hlock]
          tauto

theorem le_foldl_max {l : List CTxIn} {n : Nat} :
    n ≤ l.foldl (fun n input => max n input.prevout.outN) n ∧
      ∀ input ∈ l, input.prevout.outN ≤ l.foldl (fun n input => max n input.prevout.outN) n := by
  induction l generalizing n with
  | nil => simp
  | cons a l ih =>
      obtain ⟨hn, hl⟩ := ih (n := max n a.prevout.outN)
      rw [List.foldl_cons]
      refine ⟨le_trans (le_max_left _ _) hn, ?_⟩
      intro input hin
      rcases List.mem_cons.mp hin with rfl | hin
      · exact le_trans (le_max_right _ _) hn
      · exact hl input hin

theorem outTouch_concat {pre : List CTransaction} {tx : CTransaction} {hx : HashX} {i : Nat} :
    OutTouch H (pre ++ [tx]) hx i ↔
      OutTouch H pre hx i ∨ (i = pre.length ∧ ∃ out ∈ tx.vout, out.LockedTo H hx) := by
  simp only [OutTouch, get_concat]
  split_ifs with hi
  · subst hi
    simp
  · simp [hi]

theorem outAt_concat {pre : List CTransaction} {tx : CTransaction} {hx : HashX} {p : Nat} :
    OutAt H (pre ++ [tx]) hx p ↔
      OutAt H pre hx p ∨ ∃ n out, tx.vout[n]? = some out ∧ p = (flatOuts pre).length + n ∧
        out.LockedTo H hx := by
  simp only [OutAt, flatOuts, flat_concat]
  rcases Nat.lt_or_ge p (flat CTransaction.vout pre).length with hp | hp
  · rw [List.getElem?_append_left hp]
    constructor
    · exact .inl
    · rintro (h | ⟨n, out, -, rfl, -⟩)
      · exact h
      · omega
  · have hnone : (flat CTransaction.vout pre)[p]? = none := List.getElem?_eq_none hp
    rw [List.getElem?_append_right hp, hnone]
    simp only [reduceCtorEq, false_and, exists_false, false_or, List.getElem?_map,
      Option.map_eq_some_iff]
    constructor
    · rintro ⟨e, ⟨⟨out, n⟩, hget, rfl⟩, hlock⟩
      rw [List.getElem?_zipIdx, Option.map_eq_some_iff] at hget
      obtain ⟨out', hget, heq⟩ := hget
      obtain ⟨rfl, rfl⟩ := Prod.mk.inj heq
      exact ⟨_, _, hget, by omega, hlock⟩
    · rintro ⟨n, out, hget, rfl, hlock⟩
      refine ⟨_, ⟨(out, n), ?_, rfl⟩, hlock⟩
      rw [Nat.add_sub_cancel_left, List.getElem?_zipIdx, hget]
      simp

theorem Filled.length {pre : List CTransaction} {f : FillState} (h : Filled H pre f) :
    f.txInfos.length = pre.length := by
  have hlen := congrArg List.length h.hashes
  simpa using hlen

theorem Filled.step {pre : List CTransaction} {f f' : FillState} {tx : CTransaction}
    (h : Filled H pre f) (hstep : fillTx H height f tx = .ok f') : Filled H (pre ++ [tx]) f' := by
  have hlen := h.length
  have houts : f.outputs.length = (flatOuts pre).length := by simp [h.outputs]
  simp only [fillTx, hlen, houts] at hstep
  by_cases hout : maxOutNSeen tx > ioNumMax
  · rw [if_pos hout] at hstep
    cases hstep
  by_cases hprev : maxIONumSeen pre.length tx > ioNumMax
  · rw [if_neg hout, if_pos hprev] at hstep
    cases hstep
  rw [if_neg hout, if_neg hprev] at hstep
  cases hstep
  refine ⟨?_, ?_, ?_, ?_, ?_, ?_, ?_, ?_⟩
  · simp [h.hashes]
  · intro i tx' hget
    rw [get_concat] at hget
    simp only [get_concat, hlen]
    split_ifs at hget with hi
    · cases hget
      rw [if_pos hi, hi, offset_concat tx le_rfl, offset_length]
      rfl
    · obtain ⟨hlt, -⟩ := List.getElem?_eq_some_iff.mp hget
      rw [if_neg hi, h.output0 i tx' hget, offset_concat tx hlt.le]
  · simp [h.outputs, flatOuts, flat_concat, txOutputs, Function.comp_def, outPt]
  · simp only [h.inputs, flatIns, flat_concat, txInputs, List.map_append, List.map_map]
    congr 1
    refine List.ext_getElem? fun i => ?_
    simp [List.getElem?_map, List.getElem?_zipIdx, Option.map_map, Function.comp_def, inputPt]
  · rw [h.index, lastIdx_concat]
  · intro tx' htx'
    rcases List.mem_append.mp htx' with hin | hin
    · exact h.outN tx' hin
    · rw [List.mem_singleton] at hin
      subst hin
      simp only [maxOutNSeen] at hout
      omega
  · intro i tx' hi hget input hin
    rw [get_concat] at hget
    split_ifs at hget with hlast
    · cases hget
      rw [maxIONumSeen, if_pos (by omega)] at hprev
      have hle := (le_foldl_max (l := tx.vin) (n := 0)).2 input hin
      omega
    · exact h.prevoutN i tx' hi hget input hin
  · refine (aggregates_outputs h.agg pre.length tx.vout ?_).congr ?_ ?_
    · rintro hx p ⟨e, he, -⟩
      exact (List.getElem?_eq_some_iff.mp he).1
    · intro hx i
      rw [outTouch_concat]
    · intro hx p
      rw [outAt_concat]

theorem Filled.run {pre vtx : List CTransaction} {f f' : FillState} (h : Filled H pre f)
    (hrun : fillTxs H height f vtx = .ok f') : Filled H (pre ++ vtx) f' := by
  induction vtx generalizing pre f with
  | nil =>
      cases hrun
      simpa using h
  | cons tx vtx ih =>
      rw [fillTxs] at hrun
      cases hs : fillTx H height f tx with
      | error e =>
          rw [hs] at hrun
          cases hrun
      | ok g =>
          rw [hs] at hrun
          have hrest := ih (h.step hs) hrun
          rwa [List.append_assoc] at hrest

/-- The position of the output that an input spends inside the block. -/
def parentIdx (vtx : List CTransaction) (input : CTxIn) : Option Nat :=
  (lastIdx vtx)[input.prevout.txHash]?.map fun k =>
    offset CTransaction.vout vtx k + input.prevout.outN

/-- The output of this block that an input spends. -/
def SpendsInBlock (vtx : List CTransaction) (input : CTxIn) (out : CTxOut) : Prop :=
  ∃ k ptx, (lastIdx vtx)[input.prevout.txHash]? = some k ∧ vtx[k]? = some ptx ∧
    ptx.vout[input.prevout.outN]? = some out

/-- Transaction `i` has an input among `done` that spends from the script hash in the block. -/
def InTouch (H : Hashers) (vtx : List CTransaction) (done : List (Nat × Nat × CTxIn))
    (hx : HashX) (i : Nat) : Prop :=
  ∃ d ∈ done, d.1 = i ∧ ∃ out, SpendsInBlock vtx d.2.2 out ∧ out.LockedTo H hx

/-- What the loop over the inputs has done after the inputs `done`. -/
structure Resolved (H : Hashers) (vtx : List CTransaction) (done : List (Nat × Nat × CTxIn))
    (s : ResolveState) : Prop where
  inputs : s.inputs = done.map fun d =>
    { inputPt d with parentTxOutIdx := parentIdx vtx d.2.2 }
  length : s.outputs.length = (flatOuts vtx).length
  outputs : ∀ p out, s.outputs[p]? = some out → ∃ e, (flatOuts vtx)[p]? = some e ∧
    out = { outPt e with spentInInputIndex := out.spentInInputIndex } ∧
    (out.spentInInputIndex.isSome = true ↔ ∃ d ∈ done, parentIdx vtx d.2.2 = some p)
  valid : ∀ d ∈ done, d.2.2.prevout.txHash ∈ lastIdx vtx → ∃ out, SpendsInBlock vtx d.2.2 out
  agg : Aggregates s.hashXAggregated
    (fun hx i => OutTouch H vtx hx i ∨ InTouch H vtx done hx i) (OutAt H vtx)

theorem Filled.resolved_nil {vtx : List CTransaction} {f : FillState} (h : Filled H vtx f) :
    Resolved H vtx [] { outputs := f.outputs, hashXAggregated := f.hashXAggregated } := by
  refine ⟨rfl, by simp [h.outputs], ?_, by simp, ?_⟩
  · intro p out hget
    rw [h.outputs, List.getElem?_map, Option.map_eq_some_iff] at hget
    obtain ⟨e, he, rfl⟩ := hget
    exact ⟨e, he, rfl, by simp [outPt]⟩
  · refine h.agg.congr ?_ fun _ _ => Iff.rfl
    simp [InTouch]

theorem inTouch_concat {vtx : List CTransaction} {done : List (Nat × Nat × CTxIn)}
    {d : Nat × Nat × CTxIn} {hx : HashX} {i : Nat} :
    InTouch H vtx (done ++ [d]) hx i ↔ InTouch H vtx done hx i ∨
      (d.1 = i ∧ ∃ out, SpendsInBlock vtx d.2.2 out ∧ out.LockedTo H hx) := by
  simp only [InTouch, List.mem_append, List.mem_singleton]
  constructor
  · rintro ⟨d', hd' | rfl, hrest⟩
    · exact .inl ⟨d', hd', hrest⟩
    · exact .inr hrest
  · rintro (⟨d', hd', hrest⟩ | hrest)
    · exact ⟨d', .inl hd', hrest⟩
    · exact ⟨d, .inr rfl, hrest⟩

/-- An input that spends an output of an earlier block is passed over. -/
theorem Resolved.skip {vtx : List CTransaction} {done : List (Nat × Nat × CTxIn)}
    {s : ResolveState} {d : Nat × Nat × CTxIn} (h : Resolved H vtx done s)
    (hnone : (lastIdx vtx)[d.2.2.prevout.txHash]? = none) :
    Resolved H vtx (done ++ [d]) { s with inputs := s.inputs ++ [inputPt d] } := by
  have hparent : parentIdx vtx d.2.2 = none := by simp [parentIdx, hnone]
  refine ⟨?_, h.length, ?_, ?_, ?_⟩
  · simp only [h.inputs, List.map_append, List.map_singleton, hparent]
    rfl
  · intro p out hget
    obtain ⟨e, he, hout, hspent⟩ := h.outputs p out hget
    refine ⟨e, he, hout, ?_⟩
    rw [hspent]
    simp [or_and_right, exists_or, hparent]
  · intro d' hd' hmem
    rcases List.mem_append.mp hd' with hd' | hd'
    · exact h.valid d' hd' hmem
    · rw [List.mem_singleton] at hd'
      subst hd'
      exact absurd hmem (not_mem_iff_getElem?.mpr hnone)
  · refine h.agg.congr (fun hx i => ?_) fun _ _ => Iff.rfl
    have hno : ¬ ∃ out, SpendsInBlock vtx d.2.2 out ∧ out.LockedTo H hx := by
      rintro ⟨out, ⟨k, ptx, hk, -⟩, -⟩
      rw [hnone] at hk
      cases hk
    rw [inTouch_concat]
    simp only [hno, and_false, or_false]

/-- An input that spends an output of this block marks it. -/
theorem Resolved.mark {vtx : List CTransaction} {done : List (Nat × Nat × CTxIn)}
    {s : ResolveState} {d : Nat × Nat × CTxIn} (h : Resolved H vtx done s) {k : Nat}
    {ptx : CTransaction} {prevOut : CTxOut}
    (hk : (lastIdx vtx)[d.2.2.prevout.txHash]? = some k) (hptx : vtx[k]? = some ptx)
    (hout : ptx.vout[d.2.2.prevout.outN]? = some prevOut) (inIdx : Nat) :
    Resolved H vtx (done ++ [d])
      { inputs := s.inputs ++ [{ inputPt d with
          parentTxOutIdx := some (offset CTransaction.vout vtx k + d.2.2.prevout.outN) }]
        outputs := s.outputs.modify (offset CTransaction.vout vtx k + d.2.2.prevout.outN)
          fun outp => { outp with spentInInputIndex := some inIdx }
        hashXAggregated :=
          if BTC.isOpReturn prevOut.scriptPubKey then s.hashXAggregated
          else
            s.hashXAggregated.upd (H.hashXFromCScript prevOut.scriptPubKey)
              (AggregatedOutsIns.addIn inIdx d.1) } := by
  have hparent : parentIdx vtx d.2.2 =
      some (offset CTransaction.vout vtx k + d.2.2.prevout.outN) := by
    simp [parentIdx, hk]
  have hspends : ∀ out, SpendsInBlock vtx d.2.2 out ↔ out = prevOut := by
    intro out
    constructor
    · rintro ⟨k', ptx', hk', hptx', hout'⟩
      rw [hk] at hk'
      cases hk'
      rw [hptx] at hptx'
      cases hptx'
      rw [hout] at hout'
      exact (Option.some.inj hout').symm
    · rintro rfl
      exact ⟨k, ptx, hk, hptx, hout⟩
  refine ⟨?_, ?_, ?_, ?_, ?_⟩
  · simp [h.inputs, hparent]
  · rw [List.length_modify, h.length]
  · intro p out hget
    rw [List.getElem?_modify] at hget
    obtain ⟨out0, hget0, rfl⟩ := Option.map_eq_some_iff.mp hget
    obtain ⟨e, he, hout0, hspent⟩ := h.outputs p out0 hget0
    refine ⟨e, he, ?_, ?_⟩
    · split_ifs with hp
      · rw [hout0]
      · exact hout0
    · split_ifs with hp
      · simp [hparent, hp]
      · have hne : ¬ parentIdx vtx d.2.2 = some p := by
          rw [hparent]
          simpa using hp
        simp [hspent, or_and_right, exists_or, hne]
  · intro d' hd' hmem
    rcases List.mem_append.mp hd' with hd' | hd'
    · exact h.valid d' hd' hmem
    · rw [List.mem_singleton] at hd'
      subst hd'
      exact ⟨prevOut, (hspends prevOut).mpr rfl⟩
  · simp only [inTouch_concat, hspends, exists_eq_left]
    split_ifs with hop
    · refine h.agg.congr (fun hx i => ?_) fun _ _ => Iff.rfl
      have hnot : ¬ prevOut.LockedTo H hx := by
        intro hlock
        rw [hlock.1] at hop
        cases hop
      simp [hnot]
    · refine (h.agg.addIn _ inIdx d.1).congr (fun hx i => ?_) fun _ _ => Iff.rfl
      rw [CTxOut.LockedTo, eq_false_of_ne_true hop]
      simp only [true_and]
      tauto

theorem Resolved.step {vtx : List CTransaction} {f : FillState} (hf : Filled H vtx f)
    {done : List (Nat × Nat × CTxIn)} {s s' : ResolveState} {d : Nat × Nat × CTxIn}
    (h : Resolved H vtx done s)
    (hstep : resolveInput H height vtx f s (inputPt d) = .ok s') :
    Resolved H vtx (done ++ [d]) s' := by
  simp only [resolveInput, hf.index] at hstep
  have hhash : (inputPt d).prevoutHash = d.2.2.prevout.txHash := rfl
  rw [hhash] at hstep
  cases hk : (lastIdx vtx)[d.2.2.prevout.txHash]? with
  | none =>
      rw [hk] at hstep
      cases hstep
      exact h.skip hk
  | some k =>
      rw [hk] at hstep
      obtain ⟨ptx, hptx, -⟩ := get_of_lastIdx hk
      simp only [hf.output0 k ptx hptx, hptx, Option.bind_some] at hstep
      have hprevN : (inputPt d).prevoutN = d.2.2.prevout.outN := rfl
      rw [hprevN] at hstep
      cases hout : ptx.vout[d.2.2.prevout.outN]? with
      | none =>
          rw [hout] at hstep
          split at hstep <;> cases hstep
      | some prevOut =>
          have hne : ptx.vout.isEmpty = false := by
            rw [List.isEmpty_eq_false_iff]
            rintro hnil
            simp [hnil] at hout
          rw [hout, hne] at hstep
          cases hstep
          exact h.mark hk hptx hout _

theorem Resolved.run {vtx : List CTransaction} {f : FillState} (hf : Filled H vtx f)
    {done ds : List (Nat × Nat × CTxIn)} {s s' : ResolveState} (h : Resolved H vtx done s)
    (hrun : resolveInputs H height vtx f s (ds.map inputPt) = .ok s') :
    Resolved H vtx (done ++ ds) s' := by
  induction ds generalizing done s with
  | nil =>
      cases hrun
      simpa using h
  | cons d ds ih =>
      rw [List.map_cons, resolveInputs] at hrun
      cases hs : resolveInput H height vtx f s (inputPt d) with
      | error e =>
          rw [hs] at hrun
          cases hrun
      | ok t =>
          rw [hs] at hrun
          have hrest := ih (h.step hf hs) hrun
          rwa [List.append_assoc] at hrest

end Loops

/-- Some input of the block spends output `n` of the block's transaction `i`. -/
def SpentInBlock (vtx : List CTransaction) (i n : Nat) : Prop :=
  ∃ tx ∈ vtx, ∃ input ∈ tx.vin, (lastIdx vtx)[input.prevout.txHash]? = some i ∧
    input.prevout.outN = n

/-- Transaction `i` funds the script hash, or spends one of its outputs inside the block. -/
def Touches (H : Hashers) (vtx : List CTransaction) (hx : HashX) (i : Nat) : Prop :=
  ∃ tx, vtx[i]? = some tx ∧ ((∃ out ∈ tx.vout, out.LockedTo H hx) ∨
    ∃ input ∈ tx.vin, ∃ out, SpendsInBlock vtx input out ∧ out.LockedTo H hx)

/-- What a preprocessed block contains. -/
structure Prepared (H : Hashers) (b : CBlock) (ppb : PreProcessedBlock) : Prop where
  header : ppb.header = b.header
  hashes : ppb.txInfos.map TxInfo.hash = b.vtx.map CTransaction.hash
  inputs : ppb.inputs = (flatIns b.vtx).map fun d =>
    { inputPt d with parentTxOutIdx := parentIdx b.vtx d.2.2 }
  outputs_length : ppb.outputs.length = (flatOuts b.vtx).length
  outputs : ∀ (p : Nat) (out : OutPt), ppb.outputs[p]? = some out →
    ∃ e, (flatOuts b.vtx)[p]? = some e ∧
    out = { outPt e with spentInInputIndex := out.spentInInputIndex } ∧
    (out.spentInInputIndex.isSome = true ↔ SpentInBlock b.vtx e.1 e.2.1)
  outN : ∀ tx ∈ b.vtx, tx.vout.length ≤ ioNumMax + 1
  prevoutN : ∀ i tx, 0 < i → b.vtx[i]? = some tx → ∀ input ∈ tx.vin,
    input.prevout.outN ≤ ioNumMax
  valid : ∀ tx ∈ b.vtx, ∀ input ∈ tx.vin, input.prevout.txHash ∈ lastIdx b.vtx →
    ∃ out, SpendsInBlock b.vtx input out
  agg : Aggregates ppb.hashXAggregated (Touches H b.vtx) (OutAt H b.vtx)
  sorted : ∀ hx, (ppb.hashXAggregated.agg hx).txNumsInvolvingHashX.Pairwise (· < ·)

theorem mem_flatIns {vtx : List CTransaction} {d : Nat × Nat × CTxIn} (h : d ∈ flatIns vtx) :
    ∃ tx, vtx[d.1]? = some tx ∧ d.2.2 ∈ tx.vin := by
  obtain ⟨i, n, input⟩ := d
  obtain ⟨tx, htx, hin⟩ := mem_flat.mp h
  exact ⟨tx, htx, List.mem_of_getElem? hin⟩

theorem flatIns_of_mem {vtx : List CTransaction} {i : Nat} {tx : CTransaction} {input : CTxIn}
    (htx : vtx[i]? = some tx) (hin : input ∈ tx.vin) : ∃ n, (i, n, input) ∈ flatIns vtx := by
  obtain ⟨n, hn⟩ := List.mem_iff_getElem?.mp hin
  exact ⟨n, mem_flat.mpr ⟨tx, htx, hn⟩⟩

theorem parentIdx_iff {vtx : List CTransaction} {input : CTxIn} {p : Nat}
    {e : Nat × Nat × CTxOut} (he : (flatOuts vtx)[p]? = some e)
    (hvalid : input.prevout.txHash ∈ lastIdx vtx → ∃ out, SpendsInBlock vtx input out) :
    parentIdx vtx input = some p ↔
      (lastIdx vtx)[input.prevout.txHash]? = some e.1 ∧ input.prevout.outN = e.2.1 := by
  obtain ⟨i, n, o⟩ := e
  obtain ⟨hp, tx, htx, hn⟩ := get_flat_iff.mp he
  simp only [parentIdx, Option.map_eq_some_iff]
  constructor
  · rintro ⟨k, hk, hpk⟩
    obtain ⟨out, k', ptx, hk', hptx, hout⟩ := hvalid (mem_iff_getElem?.mpr ⟨k, hk⟩)
    rw [hk] at hk'
    cases hk'
    have hget : (flatOuts vtx)[p]? = some (k, input.prevout.outN, out) :=
      get_flat_iff.mpr ⟨hpk.symm, ptx, hptx, hout⟩
    rw [he] at hget
    cases hget
    exact ⟨hk, rfl⟩
  · rintro ⟨hk, hN⟩
    exact ⟨i, hk, by rw [hN, hp]⟩

theorem touches_iff {vtx : List CTransaction} {hx : HashX} {i : Nat} :
    OutTouch H vtx hx i ∨ InTouch H vtx (flatIns vtx) hx i ↔ Touches H vtx hx i := by
  constructor
  · rintro (⟨tx, htx, hout⟩ | ⟨d, hd, rfl, hspend⟩)
    · exact ⟨tx, htx, .inl hout⟩
    · obtain ⟨tx, htx, hin⟩ := mem_flatIns hd
      exact ⟨tx, htx, .inr ⟨d.2.2, hin, hspend⟩⟩
  · rintro ⟨tx, htx, hout | ⟨input, hin, hspend⟩⟩
    · exact .inl ⟨tx, htx, hout⟩
    · obtain ⟨n, hn⟩ := flatIns_of_mem htx hin
      exact .inr ⟨_, hn, rfl, hspend⟩

theorem prepared_of_loops {b : CBlock} {f : FillState} {r : ResolveState} (hf : Filled H b.vtx f)
    (hr : Resolved H b.vtx (flatIns b.vtx) r) (blockHash : Hash) (blockSize : Nat)
    (ser : Option (List UInt8)) :
    Prepared H b
      { height := height
        hash := blockHash
        sizeBytes := blockSize
        header := b.header
        txInfos := f.txInfos
        outputs := r.outputs
        inputs := r.inputs
        hashXAggregated := r.hashXAggregated.map fun _ ag => ag.sorted
        nOpReturns := f.nOpReturns
        serializedRpaPrefixTable := ser } := by
  have hvalid : ∀ tx ∈ b.vtx, ∀ input ∈ tx.vin, input.prevout.txHash ∈ lastIdx b.vtx →
      ∃ out, SpendsInBlock b.vtx input out := by
    intro tx htx input hin hmem
    obtain ⟨i, hi⟩ := List.mem_iff_getElem?.mp htx
    obtain ⟨n, hn⟩ := flatIns_of_mem hi hin
    exact hr.valid _ hn hmem
  refine ⟨rfl, hf.hashes, hr.inputs, hr.length, ?_, hf.outN, hf.prevoutN, hvalid, ?_, ?_⟩
  · intro p out hget
    obtain ⟨e, he, hout, hspent⟩ := hr.outputs p out hget
    refine ⟨e, he, hout, hspent.trans ?_⟩
    constructor
    · rintro ⟨d, hd, hp⟩
      obtain ⟨tx, htx, hin⟩ := mem_flatIns hd
      have hmem := List.mem_of_getElem? htx
      exact ⟨tx, hmem, d.2.2, hin, (parentIdx_iff he (hvalid tx hmem _ hin)).mp hp⟩
    · rintro ⟨tx, htx, input, hin, hk, hN⟩
      obtain ⟨i, hi⟩ := List.mem_iff_getElem?.mp htx
      obtain ⟨n, hn⟩ := flatIns_of_mem hi hin
      exact ⟨_, hn, (parentIdx_iff he (hvalid tx htx input hin)).mpr ⟨hk, hN⟩⟩
  · exact (hr.agg.congr (fun _ _ => touches_iff) fun _ _ => Iff.rfl).sorted
  · intro hx
    rw [HashXAggregated.agg_map rfl]
    exact pairwise_lt_sortUnique _

/-- Everything a caller of `fill` can rely on. -/
theorem prepared_of_fill {rpaTask : Option (List CTransaction → Except Exception (List UInt8))}
    {blockHash : Hash} {blockSize : Nat} {b : CBlock} {ppb : PreProcessedBlock}
    (h : fill H height rpaTask blockHash blockSize b = .ok ppb) :
    Prepared H b ppb ∧ ppb.height = height := by
  unfold fill at h
  cases hf : fillTxs H height {} b.vtx with
  | error e =>
      rw [hf] at h
      cases h
  | ok f =>
      rw [hf] at h
      have hfilled : Filled H b.vtx f := filled_nil.run hf
      simp only [hfilled.inputs] at h
      cases hr : resolveInputs H height b.vtx f
          { outputs := f.outputs, hashXAggregated := f.hashXAggregated }
          ((flatIns b.vtx).map inputPt) with
      | error e =>
          rw [hr] at h
          cases h
      | ok r =>
          rw [hr] at h
          have hres : Resolved H b.vtx (flatIns b.vtx) r := hfilled.resolved_nil.run hfilled hr
          cases rpaTask with
          | none =>
              cases h
              exact ⟨prepared_of_loops hfilled hres _ _ _, rfl⟩
          | some work =>
              simp only at h
              cases hw : work b.vtx with
              | error e =>
                  rw [hw] at h
                  cases h
              | ok ser =>
                  rw [hw] at h
                  cases h
                  exact ⟨prepared_of_loops hfilled hres _ _ _, rfl⟩

section Success

theorem foldl_max_le {l : List CTxIn} {n bound : Nat} (hn : n ≤ bound)
    (hl : ∀ input ∈ l, input.prevout.outN ≤ bound) :
    l.foldl (fun n input => max n input.prevout.outN) n ≤ bound := by
  induction l generalizing n with
  | nil => exact hn
  | cons a l ih =>
      exact ih (max_le hn (hl a (by simp))) fun input hin => hl input (by simp [hin])

/-- The output indices of a transaction fit, as `fill` checks them. -/
def OutNsFit (txIdx : Nat) (tx : CTransaction) : Prop :=
  tx.vout.length ≤ ioNumMax + 1 ∧
    (0 < txIdx → ∀ input ∈ tx.vin, input.prevout.outN ≤ ioNumMax)

theorem fillTx_ok {f : FillState} {tx : CTransaction} (h : OutNsFit f.txInfos.length tx) :
    ∃ f', fillTx H height f tx = .ok f' ∧ f'.txInfos.length = f.txInfos.length + 1 := by
  obtain ⟨hout, hprev⟩ := h
  have h1 : ¬ maxOutNSeen tx > ioNumMax := by
    simp only [maxOutNSeen]
    omega
  have h2 : ¬ maxIONumSeen f.txInfos.length tx > ioNumMax := by
    unfold maxIONumSeen
    split_ifs with hpos
    · exact not_lt.mpr (foldl_max_le (Nat.zero_le _) (hprev hpos))
    · omega
  simp only [fillTx, if_neg h1, if_neg h2]
  exact ⟨_, rfl, by simp⟩

theorem fillTxs_ok {f : FillState} {vtx : List CTransaction}
    (h : ∀ i tx, vtx[i]? = some tx → OutNsFit (f.txInfos.length + i) tx) :
    ∃ f', fillTxs H height f vtx = .ok f' := by
  induction vtx generalizing f with
  | nil => exact ⟨f, rfl⟩
  | cons tx vtx ih =>
      obtain ⟨f', hf', hlen⟩ : ∃ f', fillTx H height f tx = .ok f' ∧
          f'.txInfos.length = f.txInfos.length + 1 := fillTx_ok (h 0 tx rfl)
      obtain ⟨g, hg⟩ := ih (f := f') fun i tx' hi => by
        rw [hlen, Nat.add_assoc, Nat.add_comm 1 i]
        exact h (i + 1) tx' hi
      exact ⟨g, by rw [fillTxs, hf']; exact hg⟩

theorem resolveInputs_ok {vtx : List CTransaction} {f : FillState} (hf : Filled H vtx f)
    {ds : List (Nat × Nat × CTxIn)} {s : ResolveState}
    (h : ∀ d ∈ ds, ∀ tx ∈ vtx, tx.hash = d.2.2.prevout.txHash →
      d.2.2.prevout.outN < tx.vout.length) :
    ∃ s', resolveInputs H height vtx f s (ds.map inputPt) = .ok s' := by
  induction ds generalizing s with
  | nil => exact ⟨s, rfl⟩
  | cons d ds ih =>
      have hstep : ∃ t, resolveInput H height vtx f s (inputPt d) = .ok t := by
        simp only [resolveInput, hf.index]
        have hhash : (inputPt d).prevoutHash = d.2.2.prevout.txHash := rfl
        have hprevN : (inputPt d).prevoutN = d.2.2.prevout.outN := rfl
        rw [hhash, hprevN]
        cases hk : (lastIdx vtx)[d.2.2.prevout.txHash]? with
        | none => exact ⟨_, rfl⟩
        | some k =>
            obtain ⟨ptx, hptx, hph⟩ := get_of_lastIdx hk
            have hlt := h d (by simp) ptx (List.mem_of_getElem? hptx) hph
            have hne : ptx.vout.isEmpty = false := by
              rw [List.isEmpty_eq_false_iff]
              rintro hnil
              simp [hnil] at hlt
            simp only [hf.output0 k ptx hptx, hptx, Option.bind_some, hne,
              List.getElem?_eq_getElem hlt]
            exact ⟨_, rfl⟩
      obtain ⟨t, ht⟩ := hstep
      obtain ⟨s', hs'⟩ := ih (s := t) fun d' hd' => h d' (by simp [hd'])
      exact ⟨s', by rw [List.map_cons, resolveInputs, ht]; exact hs'⟩

/-- Blocks whose output indices fit and whose in-block inputs exist are accepted. -/
theorem fill_ok {rpaTask : Option (List CTransaction → Except Exception (List UInt8))}
    {blockHash : Hash} {blockSize : Nat} {b : CBlock}
    (hfit : ∀ i tx, b.vtx[i]? = some tx → OutNsFit i tx)
    (hparent : ∀ tx ∈ b.vtx, ∀ input ∈ tx.vin, ∀ ptx ∈ b.vtx,
      ptx.hash = input.prevout.txHash → input.prevout.outN < ptx.vout.length)
    (hrpa : ∀ work ∈ rpaTask, ∃ ser, work b.vtx = .ok ser) :
    ∃ ppb, fill H height rpaTask blockHash blockSize b = .ok ppb := by
  obtain ⟨f, hf⟩ : ∃ f, fillTxs H height {} b.vtx = .ok f := by
    refine fillTxs_ok fun i tx hi => ?_
    simpa using hfit i tx hi
  have hfilled : Filled H b.vtx f := filled_nil.run hf
  obtain ⟨r, hr⟩ : ∃ r, resolveInputs H height b.vtx f
      { outputs := f.outputs, hashXAggregated := f.hashXAggregated }
      ((flatIns b.vtx).map inputPt) = .ok r := by
    refine resolveInputs_ok hfilled fun d hd ptx hptx hhash => ?_
    obtain ⟨tx, htx, hin⟩ := mem_flatIns hd
    exact hparent tx (List.mem_of_getElem? htx) _ hin ptx hptx hhash
  rw [← hfilled.inputs] at hr
  simp only [fill, hf, hr]
  cases rpaTask with
  | none => exact ⟨_, rfl⟩
  | some work =>
      obtain ⟨ser, hser⟩ := hrpa work rfl
      simp only [hser]
      exact ⟨_, rfl⟩

end Success

end PreProcessedBlock
end Shulcrum
