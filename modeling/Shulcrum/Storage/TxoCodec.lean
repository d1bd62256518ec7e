import Shulcrum.Storage.UndoRoundtrip

/-!
# The byte format of outputs

An output is written in 34 bytes, or in 35 if its index needs three bytes or the
width flag is set.  An output record is written in 50 bytes, and its token data
after them.

**Results.**
* `txoToBytes_inj`: different outputs have different bytes, for either width flag.
* `txoToBytes_eq_iff`: the bytes that are written again as they were read.
* `txo_codec`: the round trips and both of these.
-/

namespace Shulcrum
namespace Storage
namespace UndoCodec

open BTC

section TxoCodec

variable {wide : Bool} {b : List UInt8} {txo txo' : TXO}

theorem txoToBytes_inj (h : txo.outN < 2 ^ 24) (h' : txo'.outN < 2 ^ 24)
    (heq : txoToBytes wide txo = txoToBytes wide txo') : txo = txo' := by
  have hread : txoFromBytes (txoToBytes wide txo) = some txo := txoFromBytes_toBytes h
  rw [heq, txoFromBytes_toBytes h'] at hread
  exact (Option.some.inj hread).symm

/-- What `fromBytes` makes of the bytes it accepts. -/
theorem txoFromBytes_spec (h : txoFromBytes b = some txo) :
    (b.length = 34 ∨ b.length = 35) ∧
      hashBytes txo.txHash = b.take 32 ∧ txo.outN = ofLE (b.drop 32) := by
  rw [txoFromBytes] at h
  split_ifs at h with hlen
  obtain rfl := Option.some.inj h
  refine ⟨hlen, hashBytes_hashOfBytes ?_, rfl⟩
  rw [List.length_take]
  omega

/-- The bytes that are written again as they were read are those of the length written. -/
theorem txoToBytes_eq_iff (h : txoFromBytes b = some txo) :
    txoToBytes wide txo = b ↔ b.length = 32 + outNSize wide txo.outN := by
  obtain ⟨hlen, hhash, houtN⟩ := txoFromBytes_spec h
  constructor
  · intro heq
    rw [← heq, txoToBytes, List.length_append, length_hashBytes, length_leBytes]
  · intro hsize
    have hdrop : outNSize wide txo.outN = (b.drop 32).length := by
      rw [List.length_drop]
      omega
    rw [txoToBytes, hhash, hdrop, houtN, leBytes_ofLE, List.take_append_drop]

/-- With the width flag set, these are the bytes of the greater length. -/
theorem txoToBytes_wide_eq_iff (h : txoFromBytes b = some txo) :
    txoToBytes true txo = b ↔ b.length = 35 := by
  have hsize : outNSize true txo.outN = 3 := by simp [outNSize]
  rw [txoToBytes_eq_iff h, hsize]

/--
Valid outputs, with either width flag, and valid output records are read back,
different outputs have different bytes for each width flag, and bytes that are
read as an output are written again with the width flag iff there are 35 of them.
-/
theorem txo_codec (deserToken : List UInt8 → Option TokenData) :
    (∀ wide txo, txo.outN < 2 ^ 24 → txoFromBytes (txoToBytes wide txo) = some txo) ∧
    (∀ info, ValidInfo deserToken info →
      infoFromBytes deserToken (infoToBytes info) = some info) ∧
    (∀ wide txo txo', txo.outN < 2 ^ 24 → txo'.outN < 2 ^ 24 → txo ≠ txo' →
      txoToBytes wide txo ≠ txoToBytes wide txo') ∧
    ∀ b txo, txoFromBytes b = some txo → (txoToBytes true txo = b ↔ b.length = 35) := by
  refine ⟨?_, ?_, ?_, ?_⟩
  · intro wide txo h
    exact txoFromBytes_toBytes h
  · intro info h
    exact infoFromBytes_toBytes h
  · intro wide txo txo' h h' hne heq
    exact hne (txoToBytes_inj h h' heq)
  · intro b txo h
    exact txoToBytes_wide_eq_iff h

end TxoCodec

section Witness

/-- An output record with token data. -/
def smallInfo : TXOInfo :=
  { amount := 1000, hashX := 9, confirmedHeight := some 6, txNum := 90
    tokenDataPtr := some [1, 2, 3] }

theorem validInfo_smallInfo : ValidInfo some smallInfo where
  amount := by decide
  height := by
    intro h hh
    cases hh
    decide
  txNum := by decide
  token := fun t _ => rfl

theorem txoFromBytes_zeros : txoFromBytes (List.replicate 35 0) = some ⟨0, 0⟩ := by
  decide

/-- An output and a record are read back, and 35 zero bytes are written as they were read. -/
theorem txo_codec_small :
    txoFromBytes (txoToBytes false ⟨4, 70000⟩) = some ⟨4, 70000⟩ ∧
    infoFromBytes some (infoToBytes smallInfo) = some smallInfo ∧
    txoToBytes true ⟨4, 7⟩ ≠ txoToBytes true ⟨4, 8⟩ ∧
    txoToBytes true ⟨0, 0⟩ = List.replicate 35 0 := by
  obtain ⟨htxo, hinfo, hinj, hwrite⟩ := txo_codec some
  exact ⟨htxo _ _ (by decide), hinfo _ validInfo_smallInfo,
    hinj _ _ _ (by decide) (by decide) (by decide),
    (hwrite _ _ txoFromBytes_zeros).mpr List.length_replicate⟩

end Witness

end UndoCodec
end Storage
end Shulcrum
