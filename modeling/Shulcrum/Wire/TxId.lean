import Shulcrum.Wire.Transaction

/-!
# Ids and sizes of transactions

The id of a transaction is the hash of its serialization without witnesses and
without the MimbleWimble part.  Its virtual size weighs this serialization three
times and the whole one once.

**Results.**
* `hashed_eq_iff`: what is hashed determines a transaction, apart from what
  is left out of it.
* `getVirtualSize_of_read`: the size that is known already may be used.
-/

namespace Shulcrum
namespace Wire

open BTC Codec Token
open LitecoinBits (maxSize)

/-- An output with its token data as a part of its script. -/
def CTxOut.plain (txout : CTxOut) : CTxOut where
  nValue := txout.nValue
  scriptPubKey := wrapped txout.tokenDataPtr txout.scriptPubKey

namespace CMutableTransaction

/-- What `ComputeHash` hashes for an id. -/
def hashed (tx : CMutableTransaction) : Except String Bytes := serializeTransaction {} tx

/-- `GetTotalSize`. -/
def getTotalSize (tx : CMutableTransaction) (segwit mweb : Bool) : Except String Nat := do
  let bytes ← serializeTransaction { useWitness := segwit, useMweb := mweb } tx
  return bytes.length

/-- `GetVirtualSize`. -/
def getVirtualSize (tx : CMutableTransaction) (unstrippedSizeIfKnown : Option Nat) :
    Except String Nat := do
  let stripped ← tx.getTotalSize false false
  let total ← match unstrippedSizeIfKnown with
    | some size => pure size
    | none => tx.getTotalSize true true
  return (stripped * 3 + total) / 4

/-- A transaction without what is not part of its id. -/
def stripped (tx : CMutableTransaction) : CMutableTransaction :=
  { tx with vin := tx.vin.map CTxIn.strip, mwBlob := none }

/-- A transaction with its token data as a part of its scripts. -/
def plain (tx : CMutableTransaction) : CMutableTransaction :=
  { tx.stripped with vout := tx.vout.map CTxOut.plain }

end CMutableTransaction

variable {v : Version} {tx tx' : CMutableTransaction}

theorem flags_empty (tx : CMutableTransaction) : tx.flags {} = 0 := by
  simp [CMutableTransaction.flags]

theorem form_empty (tx : CMutableTransaction) :
    tx.form {} = leBytes 4 tx.nVersion.toNat ++ (writeVector CTxIn.serialize tx.vin ++
      (writeVector CTxOut.form tx.vout ++ leBytes 4 tx.nLockTime.toNat)) := by
  simp only [CMutableTransaction.form, Body.form, flags_empty]
  simp

theorem form_plain (tx : CMutableTransaction) : tx.plain.form {} = tx.form {} := by
  have hvout : writeVector CTxOut.form tx.plain.vout = writeVector CTxOut.form tx.vout := by
    simp only [writeVector, CMutableTransaction.plain, List.length_map, List.flatMap_map]
    rfl
  have hvin : writeVector CTxIn.serialize tx.plain.vin = writeVector CTxIn.serialize tx.vin :=
    writeVector_strip tx.vin
  rw [form_empty, form_empty, hvout, hvin]
  rfl

theorem valid_plain (h : tx.Valid v) : tx.plain.Valid {} where
  nIn := by simpa [CMutableTransaction.plain, CMutableTransaction.stripped] using h.nIn
  vin := by
    intro txin hmem
    obtain ⟨txin', hmem', rfl⟩ := List.mem_map.mp hmem
    exact ⟨(h.vin txin' hmem').scriptSig, by simp [CTxIn.strip], by simp [CTxIn.strip]⟩
  nOut := by simpa [CMutableTransaction.plain] using h.nOut
  vout := by
    intro txout hmem
    obtain ⟨txout', hmem', rfl⟩ := List.mem_map.mp hmem
    exact ⟨(h.vout txout' hmem').size, rfl⟩
  witness := by
    intro hw
    have hnone : tx.plain.hasWitness = false := hasWitness_strip tx.vin
    rw [hnone] at hw
    cases hw
  mweb := fun _ h => by cases h
  noInputs := fun h => by cases h

/-- A script is found again in what stands in its place. -/
theorem wrapped_injective {d d' : Option OutputData} {script script' : Bytes}
    (h : Separated d script) (h' : Separated d' script')
    (heq : wrapped d script = wrapped d' script') : d = d' ∧ script = script' := by
  have hread := (unwrap_spec _ d script).mpr ⟨rfl, h⟩
  rw [heq, (unwrap_spec _ d' script').mpr ⟨rfl, h'⟩, Prod.mk.injEq] at hread
  exact ⟨hread.1.symm, hread.2.symm⟩

theorem txOut_injective {txout txout' : CTxOut} (h : txout.Valid v.useCashTokens)
    (h' : txout'.Valid v.useCashTokens) (hplain : txout.plain = txout'.plain) :
    txout = txout' := by
  obtain ⟨hvalue, heq, -⟩ := CTxOut.mk.inj hplain
  have htoken := h.token
  have htoken' := h'.token
  obtain ⟨nValue, script, d⟩ := txout
  obtain ⟨nValue', script', d'⟩ := txout'
  obtain rfl : nValue = nValue' := hvalue
  split_ifs at htoken htoken' with hc
  · obtain ⟨rfl, rfl⟩ := wrapped_injective htoken htoken' heq
    rfl
  · obtain rfl : d = none := htoken
    obtain rfl : d' = none := htoken'
    obtain rfl : script = script' := heq
    rfl

theorem vout_injective {l l' : List CTxOut} (h : ∀ txout ∈ l, txout.Valid v.useCashTokens)
    (h' : ∀ txout ∈ l', txout.Valid v.useCashTokens)
    (heq : l.map CTxOut.plain = l'.map CTxOut.plain) : l = l' := by
  induction l generalizing l' with
  | nil => exact (List.map_eq_nil_iff.mp heq.symm).symm
  | cons txout l ih =>
      cases l' with
      | nil => cases heq
      | cons txout' l' =>
          obtain ⟨hout, hl⟩ := List.forall_mem_cons.mp h
          obtain ⟨hout', hl'⟩ := List.forall_mem_cons.mp h'
          rw [List.map_cons, List.map_cons, List.cons.injEq] at heq
          rw [txOut_injective hout hout' heq.1, ih hl hl' heq.2]

theorem plain_injective (h : tx.Valid v) (h' : tx'.Valid v) (heq : tx.plain = tx'.plain) :
    tx.stripped = tx'.stripped := by
  obtain ⟨nVersion, vin, vout, nLockTime, mwBlob⟩ := tx
  obtain ⟨nVersion', vin', vout', nLockTime', mwBlob'⟩ := tx'
  simp only [CMutableTransaction.plain, CMutableTransaction.stripped,
    CMutableTransaction.mk.injEq, and_true] at heq ⊢
  obtain ⟨hversion, hvin, hvout, hlock⟩ := heq
  exact ⟨hversion, hvin, vout_injective h.vout h'.vout hvout, hlock⟩

theorem hashed_eq (h : tx.Valid v) : tx.hashed = .ok (tx.form {}) :=
  serialize_of_valid {} h

/-- What is hashed for an id determines the transaction up to its witnesses and its
MimbleWimble part, and nothing of these is hashed. -/
theorem hashed_eq_iff (h : tx.Valid v) (h' : tx'.Valid v) :
    tx.hashed = tx'.hashed ↔ tx.stripped = tx'.stripped := by
  rw [hashed_eq h, hashed_eq h', Except.ok.injEq, ← form_plain tx, ← form_plain tx']
  constructor
  · intro heq
    exact plain_injective h h'
      ((exact_unserializeTransaction {}).injective (valid_plain h) (valid_plain h') heq)
  · intro heq
    rw [form_plain, form_plain, form_empty, form_empty]
    have hvin : writeVector CTxIn.serialize tx.vin = writeVector CTxIn.serialize tx'.vin := by
      rw [← writeVector_strip, ← writeVector_strip tx'.vin]
      exact congrArg (writeVector CTxIn.serialize) (congrArg CMutableTransaction.vin heq)
    obtain ⟨hversion, -, hvout, hlock, -⟩ := CMutableTransaction.mk.inj heq
    rw [hvin, hversion, hvout, hlock]

/-- A transaction with one input and one output. -/
def oneInput (stack : List Bytes) : CMutableTransaction where
  nVersion := 2
  vin := [{
    prevout := { txid := 0, n := 0 }, scriptSig := [], nSequence := 0, scriptWitness := stack }]
  vout := [{ nValue := 5, scriptPubKey := [0x51] }]
  nLockTime := 0

/-- The inputs, the outputs and what follows them, for `oneInput`. -/
def oneInputBytes (rest : Bytes) : Bytes :=
  [1] ++ List.replicate 41 0 ++ [1, 5, 0, 0, 0, 0, 0, 0, 0, 1, 0x51] ++ rest

theorem oneInput_read :
    unserializeTransaction { useWitness := true }
      ([2, 0, 0, 0, 0, 1] ++ oneInputBytes [1, 1, 7, 0, 0, 0, 0]) =
        .ok (oneInput [[7]], []) := rfl

theorem oneInput_read_plain :
    unserializeTransaction { useWitness := true }
      ([2, 0, 0, 0] ++ oneInputBytes [0, 0, 0, 0]) = .ok (oneInput [], []) := rfl

/-- The witness of an input is not hashed. -/
theorem hashed_oneInput :
    (oneInput [[7]]).hashed = (oneInput []).hashed ∧ oneInput [[7]] ≠ oneInput [] :=
  ⟨(hashed_eq_iff ((exact_unserializeTransaction _ _ _ _).mp oneInput_read).2
    ((exact_unserializeTransaction _ _ _ _).mp oneInput_read_plain).2).mpr rfl, by decide⟩

theorem getTotalSize_eq (h : tx.Valid v) (segwit mweb : Bool) :
    tx.getTotalSize segwit mweb =
      .ok (tx.form { useWitness := segwit, useMweb := mweb }).length := by
  rw [CMutableTransaction.getTotalSize, serialize_of_valid _ h]
  rfl

/-- With both flags a transaction is written as it was read. -/
theorem form_full (h : tx.Valid v) :
    tx.form { useWitness := true, useMweb := true } = tx.form v := by
  have hfull : tx.flags { useWitness := true, useMweb := true } = tx.flags v := by
    rw [h.flags_eq]
    exact Wire.flags_eq (fun _ => rfl) fun blob hblob =>
      ⟨rfl, eatTx_ne_nil (h.mweb blob hblob).2.2⟩
  rw [CMutableTransaction.form, CMutableTransaction.form, hfull]

/-- What is left out for an id does not make a transaction longer. -/
theorem length_form_empty_le (tx : CMutableTransaction) (v : Version) :
    (tx.form {}).length ≤ (tx.form v).length := by
  rw [form_empty]
  simp only [CMutableTransaction.form, Body.form, List.length_append]
  omega

/-- For a transaction that was read from some bytes, `getVirtualSize` may take their number as
the size that is known.  The virtual size is at most this number, and equal to it if nothing is
left out for the id. -/
theorem getVirtualSize_of_read (v : Version) (s : Bytes) (tx : CMutableTransaction)
    (h : unserializeTransaction v s = .ok (tx, [])) :
    ∃ vsize, tx.getVirtualSize (some s.length) = .ok vsize ∧
      tx.getVirtualSize none = .ok vsize ∧ vsize ≤ s.length ∧
      (tx.stripped = tx → vsize = s.length) := by
  obtain ⟨hs, hvalid⟩ := (exact_unserializeTransaction v _ _ _).mp h
  have hlength : s.length = (tx.form v).length := by rw [hs, List.append_nil]
  have hfull : tx.getTotalSize true true = .ok s.length := by
    rw [getTotalSize_eq hvalid, form_full hvalid, hlength]
  have hle := length_form_empty_le tx v
  refine ⟨((tx.form {}).length * 3 + s.length) / 4, ?_, ?_, ?_, ?_⟩
  · rw [CMutableTransaction.getVirtualSize, getTotalSize_eq hvalid]
    rfl
  · rw [CMutableTransaction.getVirtualSize, getTotalSize_eq hvalid, hfull]
    rfl
  · omega
  · intro hstripped
    have hflags : tx.flags v = 0 := by
      have hw : tx.hasWitness = false := by
        rw [← hstripped]
        exact hasWitness_strip tx.vin
      have hm : tx.mwBlob = none := by
        rw [← hstripped]
        rfl
      rw [hvalid.flags_eq, hw, hm]
      rfl
    have hform : tx.form v = tx.form {} := by
      rw [CMutableTransaction.form, CMutableTransaction.form, hflags, flags_empty]
    rw [hform] at hlength
    omega

/-- Three bytes of witness data, and two of the dummy and the flags, count for a quarter. -/
theorem getVirtualSize_oneInput :
    ∃ vsize, (oneInput [[7]]).getVirtualSize (some 66) = .ok vsize ∧
      (oneInput [[7]]).getVirtualSize none = .ok vsize ∧ vsize ≤ 66 ∧
      ((oneInput [[7]]).stripped = oneInput [[7]] → vsize = 66) :=
  getVirtualSize_of_read _ _ _ oneInput_read

end Wire
end Shulcrum
