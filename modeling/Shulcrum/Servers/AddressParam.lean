import Shulcrum.Address.RoundTrip
import Shulcrum.Servers.Protocol

/-!
# The address parameter of a call

The calls that take an address turn it into the script hash they look up.  The
parameter has been cut to 128 characters and trimmed before.  Only a server for
Bitcoin Cash has these calls.

**Results.**
* `isCompatibleWithNet_iff`: the networks that share an address.
* `scripthash_of_spelling`: all ways to write an address give one script hash.
-/

namespace Shulcrum
namespace Servers

open BTC BTC.Address
open CashAddr (zeroText)
open SubsMgr.StatusHash (utf8)

/-- `parseFirstAddrParamToShCommon`. -/
def parseFirstAddrParamToShCommon (C : Crypto) (H : Hashers) (net : Net) (addrStr : String) :
    Except RPCError HashX :=
  if net = .invalid then
    .error (.rpc "Server cannot parse addresses at this time" .internalError false)
  else
    match fromString C (utf8 addrStr) with
    | .error e => .error (.exception e)
    | .ok address =>
        if !address.isValid || !address.isCompatibleWithNet C net then
          .error (.bad ("Invalid address: " ++ addrStr))
        else
          match address.toHashX H with
          | none => .error (.rpc "Invalid scripthash" .internalError false)
          | some sh => .ok sh

variable {C : Crypto} {H : Hashers} {net : Net} {a : BTC.Address}

/-! ## Networks -/

/-- The networks whose addresses are written as those of the test network. -/
def isTestLike : Net → Bool
  | .testNet | .testNet4 | .scaleNet | .chipNet => true
  | _ => false

theorem toCashString_ne {pfx pfx' written : List UInt8} {b : BTC.Address}
    (hlower : CashAddr.LowerCase pfx) (hlower' : CashAddr.LowerCase pfx')
    (hpfx : cashAddrPrefix a.net = some pfx) (hpfx' : cashAddrPrefix b.net = some pfx')
    (hdiff : pfx ≠ pfx') (ha : a.isValid = true) (hb : b.isValid = true)
    (hwritten : a.toCashString = .ok written) : a.toCashString ≠ b.toCashString := by
  intro heq
  have hwritten' := heq.symm.trans hwritten
  rw [toCashString, if_pos ha, hpfx] at hwritten
  rw [toCashString, if_pos hb, hpfx'] at hwritten'
  obtain ⟨payload, -, h⟩ := Fallible.bind_eq_ok.mp hwritten
  obtain ⟨payload', -, h'⟩ := Fallible.bind_eq_ok.mp hwritten'
  have hsame := (Except.ok.inj h).trans (Except.ok.inj h').symm
  have htake := congrArg (List.takeWhile fun c => c != CashAddr.colon) hsame
  rw [CashAddr.encode, CashAddr.encode,
    CashAddr.takeWhile_colon (colon_notMem_of_lowerCase hlower),
    CashAddr.takeWhile_colon (colon_notMem_of_lowerCase hlower')] at htake
  exact hdiff htake

/-- What `isCompatibleWithNet` compares an address with. -/
def onNet (a : BTC.Address) (net : Net) : BTC.Address :=
  { a with net := net, verByte := verByteForNetAndKind net a.kind }

theorem isCompatibleWithNet_eq (h : Readable a) (hnet : net ≠ .invalid) (hne : net ≠ a.net) :
    a.isCompatibleWithNet C net = true ↔ (onNet a net).isValid = true ∧
      a.toLegacyString C = (onNet a net).toLegacyString C ∧
      a.toCashString = (onNet a net).toCashString := by
  have hnot : ¬ (a.net = .invalid ∨ net = .invalid) := fun hor => hor.elim h.net_ne hnet
  rw [Address.isCompatibleWithNet, if_neg hnot, if_neg hne]
  simp only [Bool.and_eq_true, decide_eq_true_eq, and_assoc]
  rfl

theorem isValid_onNet (h : Readable a) (hnet : net ≠ .invalid) : (onNet a net).isValid = true := by
  have hver := verByte_ne h.kind hnet
  have hkind : a.kind ≠ .invalid := by
    intro heq
    have hk := h.kind
    rw [heq] at hk
    cases hk
  simp only [onNet, Address.isValid, hver, hkind, hnet, ne_eq, not_false_eq_true,
    decide_true, Bool.true_and, Bool.and_true, Bool.or_eq_true]
  exact h.length.imp (fun hlen => decide_eq_true hlen) (fun hlen => decide_eq_true hlen)

/-- The prefix of a network tells whether it is like the test network. -/
theorem prefix_eq_iff (hnet : net ≠ .invalid) {net' : Net}
    (hnet' : net' = .mainNet ∨ net' = .testNet ∨ net' = .regTestNet) (hne : net ≠ net') :
    cashAddrPrefix net' = cashAddrPrefix net ↔ net' = .testNet ∧ isTestLike net = true := by
  rcases hnet' with rfl | rfl | rfl <;> cases net <;>
    first | exact absurd rfl hnet | exact absurd rfl hne | decide

/-- A readable address is good for its own network, and one of the test network for those
that share its prefix. -/
theorem isCompatibleWithNet_iff (h : Readable a) (hnet : net ≠ .invalid) :
    a.isCompatibleWithNet C net = true ↔
      net = a.net ∨ a.net = .testNet ∧ isTestLike net = true := by
  by_cases hsame : net = a.net
  · have hnot : ¬ (a.net = .invalid ∨ net = .invalid) := fun hor => hor.elim h.net_ne hnet
    rw [Address.isCompatibleWithNet, if_neg hnot, if_pos hsame]
    exact ⟨fun _ => .inl hsame, fun _ => rfl⟩
  · rw [isCompatibleWithNet_eq h hnet hsame, ← prefix_eq_iff hnet h.net hsame]
    have hvalid := isValid_onNet h hnet
    obtain ⟨pfx, written, hpfx, -, hwritten⟩ := h.toCashString_eq
    obtain ⟨pfx', hpfx', hlower', -⟩ := prefix_cases hnet
    obtain ⟨pfx₀, hpfx₀, hlower, -⟩ := prefix_cases h.net_ne
    obtain rfl : pfx = pfx₀ := Option.some.inj (hpfx.symm.trans hpfx₀)
    constructor
    · rintro ⟨-, -, hcash⟩
      refine .inr ?_
      by_contra hdiff
      refine toCashString_ne (b := onNet a net) hlower hlower' hpfx hpfx' ?_ h.isValid hvalid
        hwritten hcash
      rintro rfl
      exact hdiff (hpfx.trans hpfx'.symm)
    · rintro (hbad | hprefix)
      · exact absurd hbad hsame
      · obtain ⟨htest, hlike⟩ := (prefix_eq_iff hnet h.net hsame).mp hprefix
        have hver : verByteForNetAndKind net a.kind = a.verByte := by
          rw [h.verByte, htest]
          cases net <;> first | rfl | cases hlike
        refine ⟨hvalid, ?_, ?_⟩
        · rw [toLegacyString, toLegacyString, if_pos h.isValid, if_pos hvalid, onNet, hver]
        · rw [toCashString, toCashString, if_pos h.isValid, if_pos hvalid, hprefix]
          rfl

/-! ## Spellings -/

theorem toHashX_eq_some {sh : HashX} :
    a.toHashX H = some sh ↔ a.toCScript ≠ [] ∧ H.hashXFromCScript a.toCScript = sh := by
  rw [toHashX]
  split_ifs with hscript
  · simp [hscript]
  · simp [hscript]

/-- What is looked up for a parameter. -/
theorem parse_eq_ok (hnet : net ≠ .invalid) {addrStr : String} {sh : HashX} :
    parseFirstAddrParamToShCommon C H net addrStr = .ok sh ↔
      ∃ a, fromString C (utf8 addrStr) = .ok a ∧ a.isValid = true ∧
        a.isCompatibleWithNet C net = true ∧ a.toCScript ≠ [] ∧
        H.hashXFromCScript a.toCScript = sh := by
  rw [parseFirstAddrParamToShCommon, if_neg hnet]
  cases hread : fromString C (utf8 addrStr) with
  | error e =>
      constructor
      · exact fun h => by cases h
      · rintro ⟨a, ha, -⟩
        cases ha
  | ok a =>
      simp only [← toHashX_eq_some]
      constructor
      · intro h
        split_ifs at h with hbad
        cases hhash : a.toHashX H with
        | none =>
            rw [hhash] at h
            cases h
        | some sh' =>
            rw [hhash] at h
            obtain rfl := Except.ok.inj h
            rw [Bool.or_eq_true, not_or, Bool.not_eq_true', Bool.not_eq_true', Bool.not_eq_false,
              Bool.not_eq_false] at hbad
            exact ⟨a, rfl, hbad.1, hbad.2, hhash⟩
      · rintro ⟨b, hb, hvalid, hcompatible, hhash⟩
        obtain rfl := Except.ok.inj hb
        rw [hvalid, hcompatible, hhash]
        rfl

/--
If a call with an address finds a script hash, then it finds the same for the cash address,
in small or capital letters, and unless the server runs on the regression test network
also for the legacy address.
-/
theorem scripthash_of_spelling {addrStr : String} {sh : HashX}
    (h : parseFirstAddrParamToShCommon C H net addrStr = .ok sh) :
    ∃ a written legacy, fromString C (utf8 addrStr) = .ok a ∧
      H.hashXFromCScript a.toCScript = sh ∧
      a.toCashString = .ok written ∧ a.toLegacyString C = .ok legacy ∧
      (∀ s, Spells (utf8 s) written → parseFirstAddrParamToShCommon C H net s = .ok sh) ∧
      ∀ s, utf8 s = legacy → net ≠ .regTestNet →
        parseFirstAddrParamToShCommon C H net s = .ok sh := by
  have hnet : net ≠ .invalid := by
    rintro rfl
    cases h
  obtain ⟨a, hread, hvalid, hcompatible, hscript, hsh⟩ := (parse_eq_ok hnet).mp h
  have hreadable := readable_of_fromString hread hvalid
  obtain ⟨pfx, written, -, -, hcash⟩ := hreadable.toCashString_eq
  obtain ⟨legacy, hlegacy, hreread⟩ := hreadable.fromString_legacy (C := C) hscript
  refine ⟨a, written, legacy, hread, hsh, hcash, hlegacy, fun s hs => ?_, fun s hs hreg => ?_⟩
  · exact (parse_eq_ok hnet).mpr
      ⟨a, hreadable.fromString_cash hcash hs, hvalid, hcompatible, hscript, hsh⟩
  · refine (parse_eq_ok hnet).mpr ⟨a.legacy, by rw [hs]; exact hreread,
      hreadable.legacy_readable.isValid, ?_, ?_, ?_⟩
    · rw [isCompatibleWithNet_iff hreadable.legacy_readable hnet]
      rcases (isCompatibleWithNet_iff hreadable hnet).mp hcompatible with heq | ⟨htest, hlike⟩
      · left
        rw [heq]
        rcases hreadable.net with hn | hn | hn
        · simp [Address.legacy, legacyNet, hn]
        · simp [Address.legacy, legacyNet, hn]
        · exact absurd (heq.trans hn) hreg
      · exact .inr ⟨by simp [Address.legacy, legacyNet, htest], hlike⟩
    · rwa [toCScript_legacy]
    · rwa [toCScript_legacy]

/-- The script hash of twenty zero bytes on the main network. -/
theorem scripthash_of_spelling_zero :
    ∃ (C : Crypto) (H : Hashers) (sh : HashX),
      parseFirstAddrParamToShCommon C H .mainNet zeroText = .ok sh ∧
      ∃ a written legacy, fromString C (utf8 zeroText) = .ok a ∧
        H.hashXFromCScript a.toCScript = sh ∧
        a.toCashString = .ok written ∧ a.toLegacyString C = .ok legacy ∧
        (∀ s, Spells (utf8 s) written →
          parseFirstAddrParamToShCommon C H .mainNet s = .ok sh) ∧
        ∀ s, utf8 s = legacy → Net.mainNet ≠ .regTestNet →
          parseFirstAddrParamToShCommon C H .mainNet s = .ok sh := by
  let C : Crypto := { sha256 := fun _ => 0, blake2b256 := fun _ => 0 }
  let H : Hashers :=
    { hashXFromCScript := fun _ => 1, rpaPrefix := fun _ => 0, headerPoWHash := fun _ => 0,
      hashRev := fun _ => 0 }
  obtain ⟨pfx, written, hpfx, hencode, hcash⟩ := readable_zeroAddress.toCashString_eq
  obtain rfl : written = utf8 zeroText :=
    Except.ok.inj (hcash.symm.trans CashAddr.encodeCashAddr_zero)
  obtain ⟨pfx', hpfx', hlower, -⟩ := prefix_cases readable_zeroAddress.net_ne
  obtain rfl : pfx = pfx' := Option.some.inj (hpfx.symm.trans hpfx')
  have hread := readable_zeroAddress.fromString_cash (C := C) hcash (spells_self hlower hencode)
  have hparse : parseFirstAddrParamToShCommon C H .mainNet zeroText = .ok 1 :=
    (parse_eq_ok (by decide)).mpr ⟨_, hread, by decide, by
      rw [isCompatibleWithNet_iff readable_zeroAddress (by decide)]
      exact .inl rfl, by decide, rfl⟩
  exact ⟨C, H, 1, hparse, scripthash_of_spelling hparse⟩

end Servers
end Shulcrum
