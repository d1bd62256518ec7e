import Shulcrum.Wire.Token

/-!
# Transactions on the wire

`UnserializeTransaction` and `SerializeTransaction`.  A transaction with
witnesses or with a MimbleWimble part has a dummy and a byte of flags in front
of its inputs.  The version of the stream says which of the two extensions and
whether token data is read.

**Results.**
* `exact_unserializeTransaction`: a transaction is accepted in one form, and
  only if it is valid.
* `serialize_of_valid`: this form is what the program writes.
* `transaction_exact`: reading accepts what writing gives for a valid transaction.
-/

namespace Shulcrum
namespace Wire

open BTC Codec Token
open LitecoinBits (maxSize eatTxMimbleBlob)
open Streams (writeCompactSize)

/-- The flags in the version of a stream. -/
structure Version where
  useWitness : Bool := false
  useMweb : Bool := false
  useCashTokens : Bool := false
  deriving DecidableEq, Repr

structure COutPoint where
  txid : Hash
  n : BitVec 32
  deriving DecidableEq

structure CTxIn where
  prevout : COutPoint
  scriptSig : Bytes
  nSequence : BitVec 32
  /-- `scriptWitness.stack`. -/
  scriptWitness : List Bytes := []
  deriving DecidableEq

structure CTxOut where
  nValue : BitVec 64
  scriptPubKey : Bytes
  tokenDataPtr : Option OutputData := none
  deriving DecidableEq

structure CMutableTransaction where
  nVersion : BitVec 32
  vin : List CTxIn
  vout : List CTxOut
  nLockTime : BitVec 32
  mwBlob : Option Bytes := none
  deriving DecidableEq

/-- The first bit of the flags: witnesses. -/
def witnessFlag : UInt8 := 1

/-- The bit of the flags for the MimbleWimble part. -/
def mwebFlag : UInt8 := 8

namespace CMutableTransaction

/-- `HasWitness`. -/
def hasWitness (tx : CMutableTransaction) : Bool :=
  tx.vin.any fun txin => ! txin.scriptWitness.isEmpty

/-- `IsNull`. -/
def isNull (tx : CMutableTransaction) : Bool := tx.vin.isEmpty && tx.vout.isEmpty

/-- `IsHogEx`. -/
def isHogEx (tx : CMutableTransaction) : Bool := tx.mwBlob == some [0]

end CMutableTransaction

/-! ## Reading -/

def COutPoint.unserialize : Reader COutPoint := do
  let txid ← readBlob 256
  let n ← readUInt 32
  return { txid := txid, n := n }

/-- The witnesses are not part of a serialized input. -/
def CTxIn.unserialize : Reader CTxIn := do
  let prevout ← COutPoint.unserialize
  let scriptSig ← readBytes
  let nSequence ← readUInt 32
  return { prevout := prevout, scriptSig := scriptSig, nSequence := nSequence }

/-- What stands in the place of the script. -/
def readScript (useCashTokens : Bool) : Reader (Option OutputData × Bytes) :=
  if useCashTokens then do
    let wspk ← readBytes
    return unwrapScriptPubKey wspk
  else do
    let scriptPubKey ← readBytes
    return (none, scriptPubKey)

def CTxOut.unserialize (useCashTokens : Bool) : Reader CTxOut := do
  let nValue ← readUInt 64
  let script ← readScript useCashTokens
  return { nValue := nValue, scriptPubKey := script.2, tokenDataPtr := script.1 }

/-- The flags, the inputs and the outputs of a transaction. -/
structure Body where
  flags : UInt8
  vin : List CTxIn
  vout : List CTxOut

/-- The flags, if the vector of inputs was a dummy. -/
def readExtended (v : Version) : Reader Body := do
  let flags ← readUInt 8
  let flags := UInt8.ofBitVec flags
  if flags ≠ 0 then do
    let vin ← readVector CTxIn.unserialize
    let vout ← readVector (CTxOut.unserialize v.useCashTokens)
    return { flags := flags, vin := vin, vout := vout }
  else return { flags := flags, vin := [], vout := [] }

def readBody (v : Version) : Reader Body := do
  let vin ← readVector CTxIn.unserialize
  if vin.length = 0 ∧ v.useWitness then readExtended v
  else do
    let vout ← readVector (CTxOut.unserialize v.useCashTokens)
    return { flags := 0, vin := vin, vout := vout }

/-- The witnesses of one input. -/
def readWitness (txin : CTxIn) : Reader CTxIn := do
  let stack ← readVector readBytes
  return { txin with scriptWitness := stack }

def hasWitness (vin : List CTxIn) : Bool := vin.any fun txin => ! txin.scriptWitness.isEmpty

/-- The witnesses, if their flag is set. -/
def readWitnesses (v : Version) (body : Body) : Reader Body :=
  if body.flags &&& witnessFlag ≠ 0 ∧ v.useWitness then do
    let vin ← each readWitness body.vin
    throwIf (! hasWitness vin) "Superfluous witness record"
    return { body with flags := body.flags ^^^ witnessFlag, vin := vin }
  else return body

/-- The MimbleWimble part, if its flag is set. -/
def readMweb (v : Version) (body : Body) : Reader (UInt8 × Option Bytes) :=
  if body.flags &&& mwebFlag ≠ 0 ∧ v.useMweb then do
    let blob ← eatTxMimbleBlob body.vout.isEmpty
    return (body.flags ^^^ mwebFlag, some blob)
  else return (body.flags, none)

/-- `UnserializeTransaction`. -/
def unserializeTransaction (v : Version) : Reader CMutableTransaction := do
  let nVersion ← readUInt 32
  let body ← readBody v
  let body ← readWitnesses v body
  let mw ← readMweb v body
  throwIf (mw.1 ≠ 0) "Unknown transaction optional data"
  let nLockTime ← readUInt 32
  return {
    nVersion := nVersion, vin := body.vin, vout := body.vout
    nLockTime := nLockTime, mwBlob := mw.2 }

/-! ## Writing -/

def COutPoint.serialize (o : COutPoint) : Bytes :=
  beBytes 32 o.txid.toNat ++ leBytes 4 o.n.toNat

def CTxIn.serialize (txin : CTxIn) : Bytes :=
  txin.prevout.serialize ++ (writeBytes txin.scriptSig ++ leBytes 4 txin.nSequence.toNat)

def CTxOut.serialize (txout : CTxOut) : Except String Bytes := do
  let wspk ← wrapScriptPubKey txout.tokenDataPtr txout.scriptPubKey
  return leBytes 8 txout.nValue.toNat ++ writeBytes wspk

/-- The flags that are written for a transaction. -/
def CMutableTransaction.flags (v : Version) (tx : CMutableTransaction) : UInt8 :=
  (if v.useWitness && tx.hasWitness then witnessFlag else 0) |||
    (if v.useMweb && ! (tx.mwBlob.getD []).isEmpty then mwebFlag else 0)

/-- `SerializeTransaction`. -/
def serializeTransaction (v : Version) (tx : CMutableTransaction) : Except String Bytes := do
  let flags := tx.flags v
  let vout ← tx.vout.mapM CTxOut.serialize
  return leBytes 4 tx.nVersion.toNat ++
    ((if flags ≠ 0 then writeVector CTxIn.serialize [] ++ leBytes 1 flags.toNat else []) ++
    (writeVector CTxIn.serialize tx.vin ++
    (writeCompactSize tx.vout.length ++ vout.flatten ++
    ((if flags &&& witnessFlag ≠ 0 then
        tx.vin.flatMap fun txin => writeVector writeBytes txin.scriptWitness else []) ++
    ((if flags &&& mwebFlag ≠ 0 then tx.mwBlob.getD [] else []) ++
    leBytes 4 tx.nLockTime.toNat)))))

/-! ## Valid transactions -/

/-- An input as it is read: its script has an admissible size, and so have its witnesses. -/
structure CTxIn.Valid (txin : CTxIn) : Prop where
  scriptSig : txin.scriptSig.length ≤ maxSize
  stack : txin.scriptWitness.length ≤ maxSize
  witness : ∀ item ∈ txin.scriptWitness, item.length ≤ maxSize

/-- An output as it is read: without token data, if the stream does not look for it. -/
structure CTxOut.Valid (useCashTokens : Bool) (txout : CTxOut) : Prop where
  size : (wrapped txout.tokenDataPtr txout.scriptPubKey).length ≤ maxSize
  token : if useCashTokens then Separated txout.tokenDataPtr txout.scriptPubKey
    else txout.tokenDataPtr = none

/-- A transaction as it is read from a stream of this version.  Without inputs and extensions it
has no outputs either, if a dummy would be looked for. -/
structure CMutableTransaction.Valid (v : Version) (tx : CMutableTransaction) : Prop where
  nIn : tx.vin.length ≤ maxSize
  vin : ∀ txin ∈ tx.vin, txin.Valid
  nOut : tx.vout.length ≤ maxSize
  vout : ∀ txout ∈ tx.vout, txout.Valid v.useCashTokens
  witness : tx.hasWitness → v.useWitness
  mweb : ∀ blob, tx.mwBlob = some blob → v.useWitness ∧ v.useMweb ∧
    eatTxMimbleBlob tx.vout.isEmpty blob = .ok (blob, [])
  noInputs : v.useWitness → tx.vin = [] → tx.mwBlob = none → tx.vout = []

/-! ## Inputs and outputs -/

section Parts

theorem exact_outPoint :
    Exact COutPoint.unserialize COutPoint.serialize (fun _ => True) := by
  intro s o rest
  simp only [COutPoint.unserialize, bind_eq_ok, pure_eq_ok,
    exact_readBlob (w := 256) (k := 32) rfl _ _ _, exact_readUInt (w := 32) (k := 4) rfl _ _ _,
    and_true]
  constructor
  · rintro ⟨txid, s₁, rfl, n, s₂, rfl, rfl, rfl⟩
    rw [COutPoint.serialize, List.append_assoc]
  · rintro rfl
    rw [COutPoint.serialize, List.append_assoc]
    exact ⟨o.txid, _, rfl, o.n, rest, rfl, rfl, rfl⟩

theorem exact_txIn :
    Exact CTxIn.unserialize CTxIn.serialize
      (fun txin => txin.scriptSig.length ≤ maxSize ∧ txin.scriptWitness = []) := by
  intro s txin rest
  simp only [CTxIn.unserialize, bind_eq_ok, pure_eq_ok, exact_outPoint _ _ _,
    exact_readBytes _ _ _, exact_readUInt (w := 32) (k := 4) rfl _ _ _, and_true]
  constructor
  · rintro ⟨prevout, s₁, rfl, scriptSig, s₂, ⟨rfl, hsig⟩, nSequence, s₃, rfl, rfl, rfl⟩
    exact ⟨by simp only [CTxIn.serialize, List.append_assoc], hsig, rfl⟩
  · rintro ⟨rfl, hsig, hwitness⟩
    refine ⟨txin.prevout, _, ?_, txin.scriptSig, _, ⟨rfl, hsig⟩, txin.nSequence, rest, rfl, ?_, rfl⟩
    · simp only [CTxIn.serialize, List.append_assoc]
    · rw [← hwitness]

/-- The bytes of an output. -/
def CTxOut.form (txout : CTxOut) : Bytes :=
  leBytes 8 txout.nValue.toNat ++ writeBytes (wrapped txout.tokenDataPtr txout.scriptPubKey)

theorem readScript_eq_ok {useCashTokens : Bool} {s rest script : Bytes}
    {tokenData : Option OutputData} :
    readScript useCashTokens s = .ok ((tokenData, script), rest) ↔
      s = writeBytes (wrapped tokenData script) ++ rest ∧
        (wrapped tokenData script).length ≤ maxSize ∧
        if useCashTokens then Separated tokenData script else tokenData = none := by
  cases useCashTokens with
  | true =>
      simp only [readScript, if_true, bind_eq_ok, pure_eq_ok, exact_readBytes _ _ _, unwrap_spec]
      constructor
      · rintro ⟨wspk, s₁, ⟨rfl, hlen⟩, ⟨rfl, hsep⟩, rfl⟩
        exact ⟨rfl, hlen, hsep⟩
      · rintro ⟨rfl, hlen, hsep⟩
        exact ⟨_, rest, ⟨rfl, hlen⟩, ⟨rfl, hsep⟩, rfl⟩
  | false =>
      simp only [readScript, Bool.false_eq_true, if_false, bind_eq_ok, pure_eq_ok,
        exact_readBytes _ _ _, Prod.mk.injEq]
      constructor
      · rintro ⟨scriptPubKey, s₁, ⟨rfl, hlen⟩, ⟨rfl, rfl⟩, rfl⟩
        exact ⟨rfl, hlen, rfl⟩
      · rintro ⟨rfl, hlen, rfl⟩
        exact ⟨script, rest, ⟨rfl, hlen⟩, ⟨rfl, rfl⟩, rfl⟩

theorem exact_txOut (useCashTokens : Bool) :
    Exact (CTxOut.unserialize useCashTokens) CTxOut.form (CTxOut.Valid useCashTokens) := by
  intro s txout rest
  simp only [CTxOut.unserialize, bind_eq_ok, pure_eq_ok, Prod.exists, readScript_eq_ok,
    exact_readUInt (w := 64) (k := 8) rfl _ _ _, and_true]
  constructor
  · rintro ⟨nValue, s₁, rfl, tokenData, script, s₂, ⟨rfl, hlen, htoken⟩, rfl, rfl⟩
    exact ⟨by simp only [CTxOut.form, List.append_assoc], hlen, htoken⟩
  · rintro ⟨rfl, hlen, htoken⟩
    refine ⟨txout.nValue, _, ?_, _, _, rest, ⟨rfl, hlen, htoken⟩, rfl, rfl⟩
    simp only [CTxOut.form, List.append_assoc]

theorem separated_of_valid {useCashTokens : Bool} {txout : CTxOut}
    (h : txout.Valid useCashTokens) :
    wrapScriptPubKey txout.tokenDataPtr txout.scriptPubKey =
      .ok (wrapped txout.tokenDataPtr txout.scriptPubKey) := by
  have htoken := h.token
  split_ifs at htoken with hc
  · exact wrapScriptPubKey_of_separated htoken
  · rw [htoken]
    rfl

theorem serialize_txOut {useCashTokens : Bool} {txout : CTxOut} (h : txout.Valid useCashTokens) :
    txout.serialize = .ok txout.form := by
  rw [CTxOut.serialize, separated_of_valid h]
  rfl

end Parts

/-! ## The steps of reading -/

section Steps

variable {v : Version} {s rest : Bytes}

/-- An input without its witnesses. -/
def CTxIn.strip (txin : CTxIn) : CTxIn := { txin with scriptWitness := [] }

@[simp] theorem serialize_strip (txin : CTxIn) : txin.strip.serialize = txin.serialize := rfl

theorem writeVector_strip (vin : List CTxIn) :
    writeVector CTxIn.serialize (vin.map CTxIn.strip) = writeVector CTxIn.serialize vin := by
  simp only [writeVector, List.length_map, List.flatMap_map, serialize_strip]

/-- The bytes of flags, inputs and outputs. -/
def Body.form (body : Body) : Bytes :=
  (if body.flags ≠ 0 then writeVector CTxIn.serialize [] ++ leBytes 1 body.flags.toNat else []) ++
    (writeVector CTxIn.serialize body.vin ++ writeVector CTxOut.form body.vout)

/-- A body as it is read, without witnesses. -/
structure Body.Valid (v : Version) (body : Body) : Prop where
  nIn : body.vin.length ≤ maxSize
  vin : ∀ txin ∈ body.vin, txin.scriptSig.length ≤ maxSize ∧ txin.scriptWitness = []
  nOut : body.vout.length ≤ maxSize
  vout : ∀ txout ∈ body.vout, txout.Valid v.useCashTokens
  extended : body.flags ≠ 0 → v.useWitness
  noInputs : v.useWitness → body.flags = 0 → body.vin = [] → body.vout = []

theorem exact_vin :
    Exact (readVector CTxIn.unserialize) (writeVector CTxIn.serialize) (fun vin =>
      vin.length ≤ maxSize ∧
        ∀ txin ∈ vin, txin.scriptSig.length ≤ maxSize ∧ txin.scriptWitness = []) :=
  exact_readVector exact_txIn

theorem exact_vout (useCashTokens : Bool) :
    Exact (readVector (CTxOut.unserialize useCashTokens)) (writeVector CTxOut.form) (fun vout =>
      vout.length ≤ maxSize ∧ ∀ txout ∈ vout, txout.Valid useCashTokens) :=
  exact_readVector (exact_txOut useCashTokens)

/-- After a dummy: a body with flags, or an empty one. -/
theorem readExtended_eq_ok (hv : v.useWitness = true) {body : Body} :
    readExtended v s = .ok (body, rest) ↔
      writeVector CTxIn.serialize [] ++ s = body.form ++ rest ∧ body.Valid v ∧
        (body.flags = 0 → body.vin = []) := by
  simp only [readExtended, bind_eq_ok, exact_readUInt (w := 8) (k := 1) rfl _ _ _, and_true]
  constructor
  · rintro ⟨flags, s₁, rfl, hrest⟩
    split_ifs at hrest with hflags
    · simp only [bind_eq_ok, pure_eq_ok, exact_vin _ _ _, exact_vout _ _ _ _] at hrest
      obtain ⟨vin, s₂, ⟨rfl, hnIn, hvin⟩, vout, s₃, ⟨rfl, hnOut, hvout⟩, rfl, rfl⟩ := hrest
      refine ⟨?_, ⟨hnIn, hvin, hnOut, hvout, fun _ => hv, fun _ h => absurd h hflags⟩,
        fun h => absurd h hflags⟩
      rw [Body.form, if_pos hflags]
      simp only [List.append_assoc]
      rfl
    · rw [pure_eq_ok] at hrest
      obtain ⟨rfl, rfl⟩ := hrest
      have hzero : flags = 0 := by
        have h := congrArg UInt8.toBitVec (not_not.mp hflags)
        simpa using h
      subst hzero
      refine ⟨rfl, ⟨by simp, by simp, by simp, by simp, fun h => absurd rfl h,
        fun _ _ _ => rfl⟩, fun _ => rfl⟩
  · rintro ⟨hform, hbody, hnil⟩
    by_cases hflags : body.flags = 0
    · obtain ⟨flags, vin, vout⟩ := body
      obtain rfl : vin = [] := hnil hflags
      obtain rfl : vout = [] := hbody.noInputs hv hflags rfl
      obtain rfl : flags = 0 := hflags
      have hs : s = leBytes 1 0 ++ rest := List.append_cancel_left hform
      exact ⟨0, rest, hs, pure_eq_ok.mpr ⟨rfl, rfl⟩⟩
    · rw [Body.form, if_pos hflags] at hform
      simp only [List.append_assoc] at hform
      have hs := List.append_cancel_left hform
      refine ⟨body.flags.toBitVec, _, hs, ?_⟩
      have hflags' : UInt8.ofBitVec body.flags.toBitVec ≠ 0 := hflags
      rw [if_pos hflags']
      simp only [bind_eq_ok, pure_eq_ok, exact_vin _ _ _, exact_vout _ _ _ _]
      exact ⟨body.vin, _, ⟨rfl, hbody.nIn, hbody.vin⟩, body.vout, rest,
        ⟨rfl, hbody.nOut, hbody.vout⟩, rfl, rfl⟩

theorem exact_readBody (v : Version) : Exact (readBody v) Body.form (Body.Valid v) := by
  intro s body rest
  simp only [readBody, bind_eq_ok, exact_vin _ _ _]
  constructor
  · rintro ⟨vin, s₁, ⟨rfl, hnIn, hvin⟩, hrest⟩
    split_ifs at hrest with hdummy
    · obtain rfl : vin = [] := List.length_eq_zero_iff.mp hdummy.1
      obtain ⟨hform, hbody, -⟩ := (readExtended_eq_ok hdummy.2).mp hrest
      exact ⟨hform, hbody⟩
    · simp only [bind_eq_ok, pure_eq_ok, exact_vout _ _ _ _] at hrest
      obtain ⟨vout, s₂, ⟨rfl, hnOut, hvout⟩, rfl, rfl⟩ := hrest
      refine ⟨?_, hnIn, hvin, hnOut, hvout, fun h => absurd rfl h, fun hv _ hnil => ?_⟩
      · rw [Body.form, if_neg (not_not.mpr rfl), List.nil_append, List.append_assoc]
      · exact absurd ⟨List.length_eq_zero_iff.mpr hnil, hv⟩ hdummy
  · rintro ⟨rfl, hbody⟩
    by_cases hplain : body.flags = 0 ∧ (v.useWitness = true → body.vin ≠ [])
    · obtain ⟨flags, vin, vout⟩ := body
      obtain ⟨rfl, hne⟩ : flags = 0 ∧ (v.useWitness = true → vin ≠ []) := hplain
      rw [Body.form, if_neg (not_not.mpr rfl), List.nil_append, List.append_assoc]
      refine ⟨vin, _, ⟨rfl, hbody.nIn, hbody.vin⟩, ?_⟩
      have hdummy : ¬ (vin.length = 0 ∧ v.useWitness = true) :=
        fun h => hne h.2 (List.length_eq_zero_iff.mp h.1)
      rw [if_neg hdummy]
      simp only [bind_eq_ok, pure_eq_ok, exact_vout _ _ _ _]
      exact ⟨vout, rest, ⟨rfl, hbody.nOut, hbody.vout⟩, rfl, rfl⟩
    · have hv : v.useWitness = true := by
        by_cases hflags : body.flags = 0
        · by_contra hv
          exact hplain ⟨hflags, fun h => absurd h hv⟩
        · exact hbody.extended hflags
      have hnil : body.flags = 0 → body.vin = [] := by
        intro hflags
        by_contra hne
        exact hplain ⟨hflags, fun _ => hne⟩
      obtain ⟨s', hs'⟩ : ∃ s', body.form ++ rest = writeVector CTxIn.serialize [] ++ s' := by
        by_cases hflags : body.flags = 0
        · rw [Body.form, if_neg (not_not.mpr hflags), hnil hflags, List.nil_append,
            List.append_assoc]
          exact ⟨_, rfl⟩
        · rw [Body.form, if_pos hflags]
          simp only [List.append_assoc]
          exact ⟨_, rfl⟩
      refine ⟨[], s', ⟨hs', by simp, by simp⟩, ?_⟩
      rw [if_pos ⟨rfl, hv⟩]
      exact (readExtended_eq_ok hv).mpr ⟨hs'.symm, hbody, hnil⟩

/-- The bytes of all witnesses. -/
def witnessForm (vin : List CTxIn) : Bytes :=
  vin.flatMap fun txin => writeVector writeBytes txin.scriptWitness

theorem exact_readWitness (txin : CTxIn) (h : txin.scriptWitness = []) :
    Exact (readWitness txin) (fun t => writeVector writeBytes t.scriptWitness) (fun t =>
      (t.scriptWitness.length ≤ maxSize ∧ ∀ item ∈ t.scriptWitness, item.length ≤ maxSize) ∧
        t.strip = txin) := by
  intro s t rest
  simp only [readWitness, bind_eq_ok, pure_eq_ok, exact_readVector exact_readBytes _ _ _]
  constructor
  · rintro ⟨stack, s₁, ⟨rfl, hstack⟩, rfl, rfl⟩
    refine ⟨rfl, hstack, ?_⟩
    rw [CTxIn.strip, ← h]
  · rintro ⟨rfl, hstack, rfl⟩
    exact ⟨t.scriptWitness, rest, ⟨rfl, hstack⟩, rfl, rfl⟩

theorem hasWitness_strip (vin : List CTxIn) : hasWitness (vin.map CTxIn.strip) = false := by
  simp [hasWitness, CTxIn.strip]

theorem strip_of_not_hasWitness {vin : List CTxIn} (h : hasWitness vin = false) :
    vin.map CTxIn.strip = vin := by
  have hid : ∀ txin ∈ vin, txin.strip = txin := by
    intro txin hmem
    have hnil : txin.scriptWitness = [] := by simpa using List.any_eq_false.mp h txin hmem
    rw [CTxIn.strip, ← hnil]
  rw [List.map_congr_left hid, List.map_id']

/-- The inputs after the witnesses were read. -/
theorem readWitnesses_eq_ok {body body' : Body} (hbody : body.Valid v) :
    readWitnesses v body s = .ok (body', rest) ↔
      s = (if hasWitness body'.vin then witnessForm body'.vin else []) ++ rest ∧
        body'.vin.map CTxIn.strip = body.vin ∧ (∀ txin ∈ body'.vin, txin.Valid) ∧
        (hasWitness body'.vin = true ↔ body.flags &&& witnessFlag ≠ 0 ∧ v.useWitness) ∧
        body'.flags = (if hasWitness body'.vin then body.flags ^^^ witnessFlag else body.flags) ∧
        body'.vout = body.vout := by
  have heach := Exact.each (f := readWitness) (l := body.vin) fun txin hmem =>
    exact_readWitness txin (hbody.vin txin hmem).2
  have hplain : hasWitness body.vin = false := by
    simp only [hasWitness, List.any_eq_false]
    intro txin hmem
    simp [(hbody.vin txin hmem).2]
  have hvalid : ∀ {vin : List CTxIn}, vin.map CTxIn.strip = body.vin →
      (∀ txin ∈ vin, txin.scriptWitness.length ≤ maxSize ∧
        ∀ item ∈ txin.scriptWitness, item.length ≤ maxSize) → ∀ txin ∈ vin, txin.Valid := by
    intro vin hstrip hall txin hmem
    have hin := hbody.vin txin.strip (hstrip ▸ List.mem_map_of_mem hmem)
    exact ⟨hin.1, (hall txin hmem).1, (hall txin hmem).2⟩
  by_cases hc : body.flags &&& witnessFlag ≠ 0 ∧ v.useWitness
  · rw [readWitnesses, if_pos hc]
    simp only [bind_eq_ok, pure_eq_ok, throwIf_eq_ok, heach _ _ _]
    constructor
    · rintro ⟨vin, s₁, ⟨rfl, hstrip, hall⟩, u, s₂, ⟨hw, rfl⟩, rfl, rfl⟩
      have hw' : hasWitness vin = true := by simpa using hw
      refine ⟨?_, hstrip, hvalid hstrip hall, ⟨fun _ => hc, fun _ => hw'⟩, ?_, rfl⟩
      · rw [if_pos hw']
        rfl
      · rw [if_pos hw']
    · rintro ⟨rfl, hstrip, hall, hw, hflags, hvout⟩
      rw [if_pos (hw.mpr hc)] at hflags ⊢
      refine ⟨body'.vin, rest, ⟨rfl, hstrip, fun txin hmem => ?_⟩, (), rest, ⟨?_, rfl⟩, ?_, rfl⟩
      · exact ⟨(hall txin hmem).stack, (hall txin hmem).witness⟩
      · simp [hw.mpr hc]
      · rw [← hflags, ← hvout]
  · rw [readWitnesses, if_neg hc, pure_eq_ok]
    constructor
    · rintro ⟨rfl, rfl⟩
      rw [hplain]
      refine ⟨rfl, strip_of_not_hasWitness hplain, ?_, ?_, rfl, rfl⟩
      · apply hvalid (strip_of_not_hasWitness hplain)
        intro txin hmem
        rw [(hbody.vin txin hmem).2]
        simp
      · exact ⟨fun h => (by cases h), fun h => absurd h hc⟩
    · rintro ⟨hs, hstrip, -, hw, hflags, hvout⟩
      have hw' : hasWitness body'.vin = false := by
        rw [Bool.eq_false_iff]
        exact fun h => hc (hw.mp h)
      rw [hw'] at hs hflags
      rw [strip_of_not_hasWitness hw'] at hstrip
      obtain ⟨flags, vin, vout⟩ := body
      obtain ⟨flags', vin', vout'⟩ := body'
      simp only at hstrip hflags hvout
      obtain rfl := hstrip
      obtain rfl := hvout
      exact ⟨by rw [hflags]; rfl, hs⟩

/-- What only copies its input is exact. -/
theorem exact_blob {m : LitecoinBits.Eater Unit} (hm : Copying.Copies m) :
    Exact (m.blob : Reader Bytes) id (fun blob => m.blob blob = .ok (blob, [])) := by
  intro s blob rest
  constructor
  · intro h
    obtain ⟨hs, hagain⟩ := LitecoinBits.Eater.blob_exact hm h
    have hblob := hagain []
    rw [List.append_nil] at hblob
    exact ⟨hs, hblob⟩
  · rintro ⟨rfl, h⟩
    exact (LitecoinBits.Eater.blob_exact hm h).2 rest

theorem exact_eatTx (voutEmpty : Bool) :
    Exact (eatTxMimbleBlob voutEmpty : Reader Bytes) id
      (fun blob => eatTxMimbleBlob voutEmpty blob = .ok (blob, [])) :=
  exact_blob (LitecoinBits.Eater.copies_eatTx voutEmpty)

/-- A MimbleWimble part has at least its first byte. -/
theorem eatTx_ne_nil {voutEmpty : Bool} {blob : Bytes}
    (h : eatTxMimbleBlob voutEmpty blob = .ok (blob, [])) : blob ≠ [] := by
  rintro rfl
  cases voutEmpty <;> cases h

/-- The MimbleWimble part that was read. -/
theorem readMweb_eq_ok {body : Body} {flags : UInt8} {mwBlob : Option Bytes} :
    readMweb v body s = .ok ((flags, mwBlob), rest) ↔
      s = mwBlob.getD [] ++ rest ∧
        (mwBlob.isSome = true ↔ body.flags &&& mwebFlag ≠ 0 ∧ v.useMweb) ∧
        flags = (if mwBlob.isSome then body.flags ^^^ mwebFlag else body.flags) ∧
        ∀ blob, mwBlob = some blob → eatTxMimbleBlob body.vout.isEmpty blob = .ok (blob, []) := by
  by_cases hc : body.flags &&& mwebFlag ≠ 0 ∧ v.useMweb
  · rw [readMweb, if_pos hc]
    simp only [bind_eq_ok, pure_eq_ok, Prod.mk.injEq]
    constructor
    · rintro ⟨blob, s₁, heat, ⟨rfl, rfl⟩, rfl⟩
      obtain ⟨hs, hblob⟩ := (exact_eatTx _ _ _ _).mp heat
      refine ⟨hs, ⟨fun _ => hc, fun _ => rfl⟩, rfl, ?_⟩
      intro blob' h
      cases h
      exact hblob
    · rintro ⟨rfl, hsome, rfl, hblob⟩
      obtain ⟨blob, rfl⟩ := Option.isSome_iff_exists.mp (hsome.mpr hc)
      exact ⟨blob, rest, (exact_eatTx _ _ _ _).mpr ⟨rfl, hblob blob rfl⟩, ⟨rfl, rfl⟩, rfl⟩
  · rw [readMweb, if_neg hc]
    simp only [pure_eq_ok, Prod.mk.injEq]
    constructor
    · rintro ⟨⟨rfl, rfl⟩, rfl⟩
      exact ⟨rfl, ⟨fun h => (by cases h), fun h => absurd h hc⟩, rfl, fun _ h => by cases h⟩
    · rintro ⟨rfl, hsome, rfl, -⟩
      cases mwBlob with
      | none => exact ⟨⟨rfl, rfl⟩, rfl⟩
      | some blob => exact absurd (hsome.mp rfl) hc

end Steps

/-! ## The form of a transaction -/

section Form

variable {v : Version} {s rest : Bytes}

/-- The flags for what is there. -/
def flagsFor (witness mweb : Bool) : UInt8 :=
  (if witness then witnessFlag else 0) ||| (if mweb then mwebFlag else 0)

theorem flagsFor_witness (witness mweb : Bool) :
    flagsFor witness mweb &&& witnessFlag ≠ 0 ↔ witness = true := by
  cases witness <;> cases mweb <;> decide

theorem flagsFor_mweb (witness mweb : Bool) :
    flagsFor witness mweb &&& mwebFlag ≠ 0 ↔ mweb = true := by
  cases witness <;> cases mweb <;> decide

theorem flagsFor_clear (witness mweb : Bool) :
    flagsFor false mweb = if witness then flagsFor witness mweb ^^^ witnessFlag
      else flagsFor witness mweb := by
  cases witness <;> cases mweb <;> decide

theorem flagsFor_clear_mweb (mweb : Bool) :
    0 = if mweb then flagsFor false mweb ^^^ mwebFlag else flagsFor false mweb := by
  cases mweb <;> decide

theorem flagsFor_eq_zero {witness mweb : Bool} (h : flagsFor witness mweb = 0) :
    witness = false ∧ mweb = false := by
  revert h
  cases witness <;> cases mweb <;> decide

/-- Clearing both flags one after the other leaves no other flag. -/
theorem eq_flagsFor {flags flags' : UInt8} {witness mweb : Bool}
    (hwitness : flags' = if witness then flags ^^^ witnessFlag else flags)
    (hmweb : (if mweb then flags' ^^^ mwebFlag else flags') = 0) :
    flags = flagsFor witness mweb := by
  cases witness <;> cases mweb <;>
    simp only [Bool.false_eq_true, if_false, if_true] at hwitness hmweb
  · rw [← hwitness, hmweb]
    rfl
  · rw [← hwitness, UInt8.xor_eq_zero_iff.mp hmweb]
    rfl
  · rw [hwitness] at hmweb
    rw [UInt8.xor_eq_zero_iff.mp hmweb]
    rfl
  · rw [hwitness] at hmweb
    have h := UInt8.xor_eq_zero_iff.mp hmweb
    have hflags : flags = mwebFlag ^^^ witnessFlag := by
      rw [← h, UInt8.xor_assoc, UInt8.xor_self, UInt8.xor_zero]
    rw [hflags]
    rfl

/-- The bytes of a transaction. -/
def CMutableTransaction.form (v : Version) (tx : CMutableTransaction) : Bytes :=
  leBytes 4 tx.nVersion.toNat ++
    (Body.form { flags := tx.flags v, vin := tx.vin, vout := tx.vout } ++
    ((if tx.flags v &&& witnessFlag ≠ 0 then witnessForm tx.vin else []) ++
    ((if tx.flags v &&& mwebFlag ≠ 0 then tx.mwBlob.getD [] else []) ++
    leBytes 4 tx.nLockTime.toNat)))

/-- What is there is what the flags say. -/
theorem flags_eq {tx : CMutableTransaction} (hwitness : tx.hasWitness → v.useWitness)
    (hmweb : ∀ blob, tx.mwBlob = some blob → v.useMweb ∧ blob ≠ []) :
    tx.flags v = flagsFor tx.hasWitness tx.mwBlob.isSome := by
  have hw : (v.useWitness && tx.hasWitness) = tx.hasWitness := by
    cases h : tx.hasWitness with
    | false => rw [Bool.and_false]
    | true => rw [hwitness h, Bool.and_true]
  have hm : (v.useMweb && ! (tx.mwBlob.getD []).isEmpty) = tx.mwBlob.isSome := by
    cases h : tx.mwBlob with
    | none => rw [Option.getD_none, List.isEmpty_nil, Bool.not_true, Bool.and_false]; rfl
    | some blob =>
        obtain ⟨huse, hne⟩ := hmweb blob h
        simp [huse, hne]
  rw [CMutableTransaction.flags, hw, hm]
  rfl

theorem CMutableTransaction.Valid.flags_eq {tx : CMutableTransaction} (h : tx.Valid v) :
    tx.flags v = flagsFor tx.hasWitness tx.mwBlob.isSome :=
  Wire.flags_eq h.witness fun blob hblob =>
    ⟨(h.mweb blob hblob).2.1, eatTx_ne_nil (h.mweb blob hblob).2.2⟩

theorem form_eq {tx : CMutableTransaction}
    (hflags : tx.flags v = flagsFor tx.hasWitness tx.mwBlob.isSome) :
    tx.form v = leBytes 4 tx.nVersion.toNat ++
      (Body.form { flags := tx.flags v, vin := tx.vin.map CTxIn.strip, vout := tx.vout } ++
      ((if hasWitness tx.vin then witnessForm tx.vin else []) ++
      (tx.mwBlob.getD [] ++ leBytes 4 tx.nLockTime.toNat))) := by
  have hw : (if tx.flags v &&& witnessFlag ≠ 0 then witnessForm tx.vin else []) =
      if hasWitness tx.vin then witnessForm tx.vin else [] := by
    simp only [hflags, flagsFor_witness]
    rfl
  have hm : (if tx.flags v &&& mwebFlag ≠ 0 then tx.mwBlob.getD [] else []) =
      tx.mwBlob.getD [] := by
    simp only [hflags, flagsFor_mweb]
    cases tx.mwBlob <;> rfl
  rw [CMutableTransaction.form, hw, hm, Body.form, Body.form, writeVector_strip]

/-- The body of a valid transaction. -/
theorem CMutableTransaction.Valid.body {tx : CMutableTransaction} (h : tx.Valid v) :
    Body.Valid v { flags := tx.flags v, vin := tx.vin.map CTxIn.strip, vout := tx.vout } where
  nIn := by simpa using h.nIn
  vin := by
    intro txin hmem
    obtain ⟨txin', hmem', rfl⟩ := List.mem_map.mp hmem
    exact ⟨(h.vin txin' hmem').scriptSig, rfl⟩
  nOut := h.nOut
  vout := h.vout
  extended := by
    intro hne
    rw [h.flags_eq] at hne
    cases hw : tx.hasWitness with
    | true => exact h.witness hw
    | false =>
        cases hm : tx.mwBlob with
        | some blob => exact (h.mweb blob hm).1
        | none =>
            rw [hw, hm] at hne
            exact absurd rfl hne
  noInputs := by
    intro huse hzero hnil
    rw [h.flags_eq] at hzero
    have hnil' : tx.vin = [] := List.map_eq_nil_iff.mp hnil
    apply h.noInputs huse hnil'
    have hnone : tx.mwBlob.isNone = true := by
      rw [← Option.not_isSome, (flagsFor_eq_zero hzero).2]
      rfl
    exact Option.isNone_iff_eq_none.mp hnone

/-- A transaction is accepted in one form, and only if it is valid. -/
theorem exact_unserializeTransaction (v : Version) :
    Exact (unserializeTransaction v) (CMutableTransaction.form v)
      (CMutableTransaction.Valid v) := by
  intro s tx rest
  simp only [unserializeTransaction, bind_eq_ok, pure_eq_ok, throwIf_eq_ok,
    exact_readUInt (w := 32) (k := 4) rfl _ _ _, exact_readBody v _ _ _, and_true]
  constructor
  · rintro ⟨nVersion, s₁, rfl, body, s₂, ⟨rfl, hbody⟩, body', s₃, hwit, ⟨flags, mwBlob⟩, s₄, hmw,
      u, s₅, ⟨hzero, rfl⟩, nLockTime, s₆, rfl, rfl, rfl⟩
    obtain ⟨rfl, hstrip, hin, hw, hflags', hvout⟩ := (readWitnesses_eq_ok hbody).mp hwit
    obtain ⟨rfl, hsome, hflags, hblob⟩ := readMweb_eq_ok.mp hmw
    have hzero' : flags = 0 := not_not.mp hzero
    rw [hzero'] at hflags
    have hbits : body.flags = flagsFor (hasWitness body'.vin) mwBlob.isSome :=
      eq_flagsFor hflags' hflags.symm
    have hmwFlag : body'.flags &&& mwebFlag ≠ 0 → body.flags ≠ 0 := by
      intro hne h0
      rw [hflags', h0] at hne
      revert hne
      split_ifs <;> decide
    have htx : CMutableTransaction.flags v {
        nVersion := nVersion, vin := body'.vin, vout := body'.vout
        nLockTime := nLockTime, mwBlob := mwBlob } = body.flags := by
      rw [hbits]
      refine Wire.flags_eq (fun h => (hw.mp h).2) fun blob h => ?_
      obtain rfl : mwBlob = some blob := h
      exact ⟨(hsome.mp rfl).2, eatTx_ne_nil (hblob blob rfl)⟩
    constructor
    · rw [form_eq (htx.trans hbits), htx, hstrip, hvout]
      simp only [List.append_assoc]
    · refine ⟨?_, hin, ?_, ?_, fun h => (hw.mp h).2, ?_, ?_⟩
      · rw [← List.length_map, hstrip]
        exact hbody.nIn
      · exact hvout ▸ hbody.nOut
      · exact hvout ▸ hbody.vout
      · intro blob h
        obtain rfl : mwBlob = some blob := h
        have hcond := hsome.mp rfl
        exact ⟨hbody.extended (hmwFlag hcond.1), hcond.2, hvout ▸ hblob blob rfl⟩
      · intro huse hnil hnone
        obtain rfl : mwBlob = none := hnone
        have hnil' : body'.vin = [] := hnil
        rw [hnil'] at hbits hstrip
        rw [hvout]
        exact hbody.noInputs huse hbits hstrip.symm
  · rintro ⟨rfl, hvalid⟩
    have hbits := hvalid.flags_eq
    rw [form_eq hbits]
    simp only [List.append_assoc]
    refine ⟨tx.nVersion, _, rfl, _, _, ⟨rfl, hvalid.body⟩,
      { flags := flagsFor false tx.mwBlob.isSome, vin := tx.vin, vout := tx.vout }, _,
      (readWitnesses_eq_ok hvalid.body).mpr ⟨rfl, rfl, hvalid.vin, ?_, ?_, rfl⟩,
      (0, tx.mwBlob), _, readMweb_eq_ok.mpr ⟨rfl, ?_, ?_, fun blob h => (hvalid.mweb blob h).2.2⟩,
      (), _, ⟨not_not.mpr rfl, rfl⟩, tx.nLockTime, rest, rfl, rfl, rfl⟩
    · have hflag : tx.flags v &&& witnessFlag ≠ 0 ↔ tx.hasWitness = true := by
        rw [hbits, flagsFor_witness]
      exact ⟨fun h => ⟨hflag.mpr h, hvalid.witness h⟩, fun h => hflag.mp h.1⟩
    · have h : hasWitness tx.vin = tx.hasWitness := rfl
      rw [hbits, h]
      exact flagsFor_clear tx.hasWitness tx.mwBlob.isSome
    · have hflag := flagsFor_mweb false tx.mwBlob.isSome
      refine ⟨fun h => ⟨hflag.mpr h, ?_⟩, fun h => hflag.mp h.1⟩
      obtain ⟨blob, hblob⟩ := Option.isSome_iff_exists.mp h
      exact (hvalid.mweb blob hblob).2.1
    · exact flagsFor_clear_mweb tx.mwBlob.isSome

theorem serializeTransaction_eq (v : Version) {tx : CMutableTransaction}
    (hvout : tx.vout.mapM CTxOut.serialize = .ok (tx.vout.map CTxOut.form)) :
    serializeTransaction v tx = .ok (tx.form v) := by
  rw [serializeTransaction, hvout]
  simp only [CMutableTransaction.form, Body.form, witnessForm, writeVector, List.append_assoc,
    List.flatMap_def]
  rfl

/-- A valid transaction can be written, in any version. -/
theorem serialize_of_valid (v' : Version) {tx : CMutableTransaction} (h : tx.Valid v) :
    serializeTransaction v' tx = .ok (tx.form v') :=
  serializeTransaction_eq v' <|
    Fallible.mapM_ok fun txout hmem => serialize_txOut (h.vout txout hmem)

/-- Reading accepts what writing gives for a valid transaction, and nothing else. -/
theorem transaction_exact (v : Version) (s rest : Bytes) (tx : CMutableTransaction) :
    unserializeTransaction v s = .ok (tx, rest) ↔
      (∃ bytes, serializeTransaction v tx = .ok bytes ∧ s = bytes ++ rest) ∧ tx.Valid v := by
  rw [exact_unserializeTransaction v s tx rest]
  constructor
  · rintro ⟨rfl, h⟩
    exact ⟨⟨_, serialize_of_valid v h, rfl⟩, h⟩
  · rintro ⟨⟨bytes, hbytes, rfl⟩, h⟩
    rw [serialize_of_valid v h, Except.ok.injEq] at hbytes
    exact ⟨by rw [hbytes], h⟩

end Form

end Wire
end Shulcrum
