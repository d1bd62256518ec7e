import Shulcrum.Address.Model

/-!
# Reading addresses back

Every address that was read from a text is written as a cash address that is
read as the same address, in small or capital letters.  It is written as a
legacy address that is read as an address with the same script, if there is a
script; the network and whether the address is for tokens may be lost there.

**Results.**
* `readable_of_fromString`: what can be read.
* `fromString_cash`, `fromString_legacy`: reading what was written.
* `fromString_toString`: both, for all that was read from some text.
-/

namespace Shulcrum
namespace BTC
namespace Address

open CashAddr (colon toLower UniformCase LowerCase Symbols decodeCashAddrContent)
open SubsMgr.StatusHash (utf8)

/-! ## Tables -/

/-- The kind of a legacy address for the same script. -/
def Kind.legacy : Kind → Kind
  | .tokenP2pkh => .p2pkh
  | .tokenP2sh => .p2sh
  | k => k

/-- The network that is found for a legacy address. -/
def legacyNet : Net → Net
  | .mainNet => .mainNet
  | _ => .testNet

/-- One of the four kinds with a name. -/
def Kind.named : Kind → Bool
  | .p2pkh | .p2sh | .tokenP2pkh | .tokenP2sh => true
  | _ => false

/-- What is read from a text, if it is valid. -/
structure Readable (a : Address) : Prop where
  kind : a.kind.named = true
  length : a.hash.length = h160Len ∨ a.hash.length = h256Len
  net : a.net = .mainNet ∨ a.net = .testNet ∨ a.net = .regTestNet
  verByte : a.verByte = verByteForNetAndKind a.net a.kind

variable {net : Net} {kind : Kind}

theorem named_of_verByte (h : verByteForNetAndKind net kind ≠ invalidVerByte) :
    kind.named = true := by
  cases kind with
  | unnamed b =>
      exfalso
      cases net <;> simp [verByteForNetAndKind, netVerByteKindMap] at h
  | invalid =>
      exfalso
      cases net <;> simp [verByteForNetAndKind, netVerByteKindMap] at h
  | p2pkh => rfl
  | p2sh => rfl
  | tokenP2pkh => rfl
  | tokenP2sh => rfl

theorem verByte_ne (hkind : kind.named = true) (hnet : net ≠ .invalid) :
    verByteForNetAndKind net kind ≠ invalidVerByte := by
  cases kind <;> simp [Kind.named] at hkind <;> cases net <;>
    first | exact absurd rfl hnet | decide

theorem ofByte_toByte (hkind : kind.named = true) : Kind.ofByte kind.toByte = kind := by
  cases kind <;> simp [Kind.named] at hkind <;> rfl

theorem toByte_lt (hkind : kind.named = true) : kind.toByte < 16 := by
  cases kind <;> simp [Kind.named] at hkind <;> decide

/-- What a legacy address says about the network and the kind. -/
theorem verByte_tables :
    (∀ n < 0x100,
      kindForNetAndVerByte (netForVerByte (UInt8.ofNat n)) (UInt8.ofNat n) ≠ .invalid →
        (netForVerByte (UInt8.ofNat n) = .mainNet ∨ netForVerByte (UInt8.ofNat n) = .testNet) ∧
        (kindForNetAndVerByte (netForVerByte (UInt8.ofNat n)) (UInt8.ofNat n)).named = true ∧
        verByteForNetAndKind (netForVerByte (UInt8.ofNat n))
          (kindForNetAndVerByte (netForVerByte (UInt8.ofNat n)) (UInt8.ofNat n)) =
            UInt8.ofNat n) := by
  decide +kernel

theorem legacy_tables (hkind : kind.named = true)
    (hnet : net = .mainNet ∨ net = .testNet ∨ net = .regTestNet) :
    netForVerByte (verByteForNetAndKind net kind) = legacyNet net ∧
      kindForNetAndVerByte (legacyNet net) (verByteForNetAndKind net kind) = kind.legacy := by
  rcases hnet with rfl | rfl | rfl <;> cases kind <;> simp [Kind.named] at hkind <;> decide

theorem Readable.net_ne {a : Address} (h : Readable a) : a.net ≠ .invalid := by
  rcases h.net with hnet | hnet | hnet <;> rw [hnet] <;> decide

theorem Readable.isValid {a : Address} (h : Readable a) : a.isValid = true := by
  have hver := verByte_ne h.kind h.net_ne
  have hkind : a.kind ≠ .invalid := by
    intro heq
    have hk := h.kind
    rw [heq] at hk
    cases hk
  rw [← h.verByte] at hver
  simp [Address.isValid, hver, hkind, h.net_ne, h.length]

/-! ## What can be read -/

theorem tryNet_eq_some {ss : List UInt8} {e : Net × CashAddr.CashAddrContent} :
    tryNet ss net = some e ↔
      decodeCashAddrContent ss ((cashAddrPrefix net).getD []) = e.2 ∧ e.1 = net ∧
        e.2.hash ≠ [] := by
  rw [tryNet]
  constructor
  · intro h
    split_ifs at h with hhash
    obtain rfl := Option.some.inj h
    exact ⟨rfl, rfl, hhash⟩
  · rintro ⟨hcontent, rfl, hhash⟩
    rw [hcontent, if_pos hhash]

theorem tryNet_eq_none {ss : List UInt8} :
    tryNet ss net = none ↔
      (decodeCashAddrContent ss ((cashAddrPrefix net).getD [])).hash = [] := by
  rw [tryNet]
  split_ifs with hhash
  · simp [hhash]
  · simpa using hhash

/-- Three of the test networks are never found, for their prefix is that of another one. -/
theorem decodeCashNet_eq (ss : List UInt8) :
    decodeCashNet ss =
      (tryNet ss .mainNet).or ((tryNet ss .testNet).or (tryNet ss .regTestNet)) := by
  have hsame : ∀ net ∈ [Net.testNet4, .scaleNet, .chipNet], tryNet ss .testNet = none →
      tryNet ss net = none := by
    intro net hnet hnone
    rw [tryNet_eq_none] at hnone ⊢
    simp only [List.mem_cons, List.not_mem_nil, or_false] at hnet
    rcases hnet with rfl | rfl | rfl
    · exact hnone
    · exact hnone
    · exact hnone
  rw [decodeCashNet, cashNets]
  cases hmain : tryNet ss .mainNet with
  | some e => simp [List.findSome?, hmain]
  | none =>
      cases htest : tryNet ss .testNet with
      | some e => simp [List.findSome?, hmain, htest]
      | none =>
          have h4 := hsame .testNet4 (by simp) htest
          have hscale := hsame .scaleNet (by simp) htest
          have hchip := hsame .chipNet (by simp) htest
          cases hreg : tryNet ss .regTestNet <;>
            simp [List.findSome?, hmain, htest, h4, hscale, hchip, hreg]

theorem decodeCashNet_eq_some {ss : List UInt8} {content : CashAddr.CashAddrContent}
    (h : decodeCashNet ss = some (net, content)) :
    net = .mainNet ∨ net = .testNet ∨ net = .regTestNet := by
  rw [decodeCashNet_eq] at h
  rcases Option.or_eq_some_iff.mp h with hmain | ⟨-, h⟩
  · exact .inl (tryNet_eq_some.mp hmain).2.1
  · rcases Option.or_eq_some_iff.mp h with htest | ⟨-, hreg⟩
    · exact .inr (.inl (tryNet_eq_some.mp htest).2.1)
    · exact .inr (.inr (tryNet_eq_some.mp hreg).2.1)

theorem readable_of_decodeCash {ss : List UInt8} {a : Address}
    (h : decodeCash ss = .ok (some a)) : Readable a := by
  rw [decodeCash] at h
  cases hnet : decodeCashNet ss with
  | none =>
      rw [hnet] at h
      cases h
  | some e =>
      obtain ⟨net, content⟩ := e
      have hnets := decodeCashNet_eq_some hnet
      rw [hnet] at h
      by_cases hver : verByteForNetAndKind net (Kind.ofByte content.type) = invalidVerByte
      · simp only [if_pos hver] at h
        cases h
      · simp only [if_neg hver] at h
        have hsome := Except.ok.inj h
        split_ifs at hsome with hvalid
        obtain rfl := Option.some.inj hsome
        refine ⟨named_of_verByte hver, ?_, hnets, rfl⟩
        simp only [Address.isValid, Bool.and_eq_true, Bool.or_eq_true, decide_eq_true_eq] at hvalid
        exact hvalid.1.1.2

theorem not_isValid_default : ({} : Address).isValid ≠ true := by decide

theorem readable_of_autosetKind {verByte : UInt8} {hash : List UInt8}
    (h : (autosetKind { net := netForVerByte verByte, verByte := verByte, hash := hash }).isValid
      = true) :
    Readable (autosetKind { net := netForVerByte verByte, verByte := verByte, hash := hash }) := by
  have htable := verByte_tables verByte.toNat verByte.toNat_lt
  rw [UInt8.ofNat_toNat] at htable
  have hready : kindForNetAndVerByte (netForVerByte verByte) verByte ≠ .invalid →
      (hash.length = h160Len ∨ hash.length = h256Len) →
      Readable { net := netForVerByte verByte, verByte := verByte, hash := hash,
                 kind := kindForNetAndVerByte (netForVerByte verByte) verByte } := by
    intro hkind hlen
    obtain ⟨hnet, hnamed, hver⟩ := htable hkind
    exact ⟨hnamed, hlen, hnet.imp_right .inl, hver.symm⟩
  simp only [autosetKind] at h ⊢
  split_ifs at h ⊢ with h160 hkind h256 hkind
  · exact hready hkind (.inl h160)
  · exact absurd h not_isValid_default
  · refine hready ?_ (.inr h256)
    rcases hkind with hkind | hkind <;> rw [hkind] <;> decide
  · exact absurd h not_isValid_default
  · exact absurd h not_isValid_default

variable {C : Crypto}

/-- What can be read. -/
theorem readable_of_fromString {ss : List UInt8} {a : Address} (h : fromString C ss = .ok a)
    (hvalid : a.isValid = true) : Readable a := by
  rw [fromString] at h
  cases hdec : Base58.decodeBase58Check C ss with
  | error e =>
      rw [hdec] at h
      cases h
  | ok r =>
      rw [hdec] at h
      cases r with
      | some dec =>
          simp only at h
          split_ifs at h with hlen
          · obtain rfl := Except.ok.inj h
            exact readable_of_autosetKind hvalid
          · obtain rfl := Except.ok.inj h
            exact absurd hvalid not_isValid_default
      | none =>
          simp only at h
          cases hcash : decodeCash ss with
          | error e =>
              rw [hcash] at h
              obtain rfl := Except.ok.inj h
              exact absurd hvalid not_isValid_default
          | ok r =>
              rw [hcash] at h
              cases r with
              | none =>
                  obtain rfl := Except.ok.inj h
                  exact absurd hvalid not_isValid_default
              | some b =>
                  obtain rfl := Except.ok.inj h
                  exact readable_of_decodeCash hcash

/-! ## Cash addresses -/

/-- The text is the one that is written for `p`, in small or capital letters. -/
structure Spells (text written : List UInt8) : Prop where
  uniform : UniformCase text
  lower : text.map toLower = written

theorem colon_notMem_of_lowerCase {p : List UInt8} (hp : LowerCase p) : colon ∉ p := by
  intro h
  have hc := hp colon h
  cases hc

/-- No text is decoded with two different prefixes if it has one of them. -/
theorem prefix_unique {p p' text written : List UInt8} {content content' : CashAddr.CashAddrContent}
    (hp : LowerCase p) (hp' : LowerCase p') (hne : p' ≠ [])
    (hwritten : CashAddr.encodeCashAddr p content = .ok written) (h : Spells text written)
    (hdecode : decodeCashAddrContent text p' = content') (hhash : content'.hash ≠ []) :
    p' = p := by
  obtain ⟨-, -, written', hwritten', hforms⟩ :=
    (CashAddr.decodeCashAddrContent_iff hp' hne hhash).mp hdecode
  obtain ⟨payload, -, heq⟩ := Fallible.bind_eq_ok.mp hwritten
  obtain ⟨payload', hpack', heq'⟩ := Fallible.bind_eq_ok.mp hwritten'
  have htext : text.map toLower = CashAddr.encode p payload :=
    h.lower.trans (Except.ok.inj heq).symm
  obtain rfl := Except.ok.inj heq'
  rw [htext] at hforms
  rcases hforms with hsame | hbare
  · have hprefix := congrArg (List.takeWhile fun c => c != colon) hsame
    rw [CashAddr.encode, CashAddr.encode, CashAddr.takeWhile_colon (colon_notMem_of_lowerCase hp),
      CashAddr.takeWhile_colon (colon_notMem_of_lowerCase hp')] at hprefix
    exact hprefix.symm
  · exfalso
    obtain ⟨size, -, e, hpacks⟩ := CashAddr.packAddrData_eq_ok.mp hpack'
    have hbody := (List.cons.inj (List.append_cancel_left hbare)).2
    have hmem : colon ∈ CashAddr.encode p payload :=
      List.mem_append_right _ List.mem_cons_self
    rw [hbody] at hmem
    obtain ⟨d, hd, hchar⟩ := List.mem_map.mp hmem
    have hsymbol := CashAddr.symbol_char (CashAddr.symbols_append hpacks.symbols d hd)
    have hcolon : CashAddr.symbol colon = none := by decide
    rw [CashAddr.char, hchar, hcolon] at hsymbol
    cases hsymbol

/-- The characters of a cash address. -/
theorem mem_encode {p payload : List UInt8} {c : UInt8} (hsymbols : Symbols payload)
    (h : c ∈ CashAddr.encode p payload) :
    c ∈ p ∨ c = colon ∨ CashAddr.symbol c ≠ none := by
  rw [CashAddr.encode] at h
  rcases List.mem_append.mp h with h | h
  · exact .inl h
  · rcases List.mem_cons.mp h with h | h
    · exact .inr (.inl h)
    · obtain ⟨d, hd, rfl⟩ := List.mem_map.mp h
      have hsymbol := CashAddr.symbol_char (CashAddr.symbols_append hsymbols d hd)
      rw [CashAddr.char] at hsymbol
      exact .inr (.inr (by rw [hsymbol]; exact Option.some_ne_none d))

/-- A spelled cash address has a colon in front of the end of the string. -/
theorem colon_mem_cStr {p payload text : List UInt8} (hp : LowerCase p)
    (hsymbols : Symbols payload) (h : text.map toLower = CashAddr.encode p payload) :
    colon ∈ Base58.cStr text := by
  have hcolon : colon ∈ CashAddr.encode p payload := List.mem_append_right _ List.mem_cons_self
  rw [← h] at hcolon
  obtain ⟨c, hc, hlower⟩ := List.mem_map.mp hcolon
  rw [← CashAddr.eq_colon_of_toLower hlower, Base58.cStr, List.takeWhile_eq_self_iff.mpr]
  · exact hc
  · intro c hc
    rw [bne_iff_ne]
    rintro rfl
    have hzero : (0 : UInt8) ∈ CashAddr.encode p payload := h ▸ List.mem_map_of_mem hc
    rcases mem_encode hsymbols hzero with hmem | heq | hsymbol
    · cases hp 0 hmem
    · cases heq
    · exact hsymbol (by decide)

/-- A text with a colon is no legacy address. -/
theorem decodeBase58Check_colon {ss : List UInt8} (h : colon ∈ Base58.cStr ss) :
    Base58.decodeBase58Check C ss = .ok none := by
  obtain ⟨r, hr⟩ := Base58.decodeBase58Check_ok C ss
  cases r with
  | none => exact hr
  | some v =>
      exfalso
      have hread := (Base58.decodeBase58Check_eq_ok C).mp hr
      obtain ⟨p, w, q, hp, hw, hq, hsplit⟩ := (Base58.decodeBase58_iff ss _).2.mp hread
      rw [Base58.encodeBase58_eq] at hw
      obtain rfl := Except.ok.inj hw
      have hspace : Base58.isSpace colon = false := by decide
      have hvalid : Base58.valid colon = false := by decide
      rw [hsplit] at h
      rcases List.mem_append.mp h with h | h
      · rw [hp colon h] at hspace
        cases hspace
      · rcases List.mem_append.mp h with h | h
        · rw [Base58.valid_of_mem_textOf h] at hvalid
          cases hvalid
        · rw [hq colon h] at hspace
          cases hspace

theorem lowerCase_prefixes : LowerCase (utf8 "bitcoincash") ∧ LowerCase (utf8 "bchtest") ∧
    LowerCase (utf8 "bchreg") :=
  ⟨List.all_eq_true.mp (by decide), List.all_eq_true.mp (by decide),
    List.all_eq_true.mp (by decide)⟩

/-- Every network has a prefix. -/
theorem prefix_cases (hnet : net ≠ .invalid) :
    ∃ pfx, cashAddrPrefix net = some pfx ∧ LowerCase pfx ∧ pfx ≠ [] := by
  obtain ⟨hmain, htest, hreg⟩ := lowerCase_prefixes
  cases net with
  | mainNet => exact ⟨_, rfl, hmain, by decide⟩
  | testNet => exact ⟨_, rfl, htest, by decide⟩
  | testNet4 => exact ⟨_, rfl, htest, by decide⟩
  | scaleNet => exact ⟨_, rfl, htest, by decide⟩
  | chipNet => exact ⟨_, rfl, htest, by decide⟩
  | regTestNet => exact ⟨_, rfl, hreg, by decide⟩
  | invalid => exact absurd rfl hnet

section Cash

variable {a : Address} {text written : List UInt8}

/-- A readable address is written. -/
theorem Readable.toCashString_eq (h : Readable a) :
    ∃ pfx written, cashAddrPrefix a.net = some pfx ∧
      CashAddr.encodeCashAddr pfx { type := a.kind.toByte, hash := a.hash } = .ok written ∧
      a.toCashString = .ok written := by
  obtain ⟨pfx, hpfx, -⟩ := prefix_cases h.net_ne
  have hsize : ∃ size, CashAddr.encodedSize a.hash.length = .ok size := by
    rcases h.length with hlen | hlen
    · exact ⟨0, by rw [hlen]; rfl⟩
    · exact ⟨3, by rw [hlen]; rfl⟩
  obtain ⟨size, hsize⟩ := hsize
  have hwritten : ∃ written, CashAddr.encodeCashAddr pfx
      { type := a.kind.toByte, hash := a.hash } = .ok written := by
    rw [CashAddr.encodeCashAddr, CashAddr.packAddrData, hsize]
    exact ⟨_, rfl⟩
  obtain ⟨written, hwritten⟩ := hwritten
  refine ⟨pfx, written, hpfx, hwritten, ?_⟩
  rw [toCashString, if_pos h.isValid, hpfx]
  exact hwritten

/-- The network of a spelled cash address is found. -/
theorem Readable.decodeCashNet_eq (h : Readable a) (hwritten : a.toCashString = .ok written)
    (htext : Spells text written) :
    decodeCashNet text = some (a.net, { type := a.kind.toByte, hash := a.hash }) := by
  obtain ⟨pfx, written', hpfx, hencode, hcash⟩ := h.toCashString_eq
  obtain rfl : written' = written := Except.ok.inj (hcash.symm.trans hwritten)
  obtain ⟨pfx', hpfx', hlower, hne⟩ := prefix_cases h.net_ne
  obtain rfl : pfx = pfx' := Option.some.inj (hpfx.symm.trans hpfx')
  have hhash : a.hash ≠ [] := by
    intro hnil
    have hlen := h.length
    rw [hnil] at hlen
    rcases hlen with hlen | hlen <;> cases hlen
  have hfound : tryNet text a.net = some (a.net, { type := a.kind.toByte, hash := a.hash }) := by
    refine tryNet_eq_some.mpr ⟨?_, rfl, hhash⟩
    rw [hpfx, Option.getD_some]
    exact (CashAddr.decodeCashAddrContent_iff hlower hne hhash).mpr
      ⟨toByte_lt h.kind, htext.uniform, written', hencode, .inl htext.lower⟩
  -- another network with another prefix does not take the text
  have hother : ∀ net pfx', cashAddrPrefix net = some pfx' → LowerCase pfx' → pfx' ≠ [] →
      pfx' ≠ pfx → tryNet text net = none := by
    intro net pfx' hnet hlower' hne' hdiff
    rw [tryNet_eq_none, hnet, Option.getD_some]
    by_contra hhash'
    exact hdiff (prefix_unique hlower hlower' hne' hencode htext rfl hhash')
  obtain ⟨hmain, htest, -⟩ := lowerCase_prefixes
  rw [Address.decodeCashNet_eq]
  rcases h.net with hnet | hnet | hnet
  · rw [hnet] at hfound ⊢
    rw [hfound]
    rfl
  · rw [hnet] at hfound hpfx ⊢
    obtain rfl := Option.some.inj hpfx
    rw [hother .mainNet _ rfl hmain (by decide) (by decide), hfound]
    rfl
  · rw [hnet] at hfound hpfx ⊢
    obtain rfl := Option.some.inj hpfx
    rw [hother .mainNet _ rfl hmain (by decide) (by decide),
      hother .testNet _ rfl htest (by decide) (by decide), hfound]
    rfl

/-- Reading what was written as a cash address. -/
theorem Readable.fromString_cash (h : Readable a) (hwritten : a.toCashString = .ok written)
    (htext : Spells text written) : fromString C text = .ok a := by
  obtain ⟨pfx, written', hpfx, hencode, hcash⟩ := h.toCashString_eq
  obtain rfl : written' = written := Except.ok.inj (hcash.symm.trans hwritten)
  obtain ⟨pfx', hpfx', hlower, hne⟩ := prefix_cases h.net_ne
  obtain rfl : pfx = pfx' := Option.some.inj (hpfx.symm.trans hpfx')
  obtain ⟨payload, hpack, heq⟩ := Fallible.bind_eq_ok.mp hencode
  obtain ⟨size, -, e, hpacks⟩ := CashAddr.packAddrData_eq_ok.mp hpack
  have hcolon := colon_mem_cStr hlower hpacks.symbols
    (htext.lower.trans (Except.ok.inj heq).symm)
  have hver := verByte_ne h.kind h.net_ne
  have hdecode : decodeCash text = .ok (some a) := by
    have hself : ({ net := a.net, verByte := verByteForNetAndKind a.net a.kind, hash := a.hash,
                    kind := a.kind } : Address) = a := by
      rw [← h.verByte]
    rw [decodeCash, h.decodeCashNet_eq hwritten htext]
    simp only [ofByte_toByte h.kind, if_neg hver, hself, if_pos h.isValid]
  rw [fromString, decodeBase58Check_colon hcolon, hdecode]

end Cash

/-! ## Legacy addresses -/

/-- The address that is read from a legacy address. -/
def legacy (a : Address) : Address :=
  { net := legacyNet a.net, verByte := a.verByte, hash := a.hash, kind := a.kind.legacy }

section Legacy

variable {a : Address}

theorem cStr_textOf (vch : List UInt8) : Base58.cStr (Base58.textOf vch) = Base58.textOf vch := by
  rw [Base58.cStr, List.takeWhile_eq_self_iff]
  intro c hc
  rw [bne_iff_ne]
  exact (Base58.table_of_valid (Base58.valid_of_mem_textOf hc)).2.2.2

theorem decodeBase58Check_encode {v w : List UInt8} (h : Base58.encodeBase58Check C v = .ok w) :
    Base58.decodeBase58Check C w = .ok (some v) := by
  rw [Base58.encodeBase58Check] at h
  refine (Base58.decodeBase58Check_eq_ok C).mpr
    ((Base58.decodeBase58_iff w _).2.mpr ⟨[], w, [], ?_, h, ?_, ?_⟩)
  · exact fun c hc => (List.not_mem_nil hc).elim
  · exact fun c hc => (List.not_mem_nil hc).elim
  · rw [Base58.encodeBase58_eq] at h
    obtain rfl := Except.ok.inj h
    rw [List.append_nil]
    exact cStr_textOf _

theorem Readable.legacy_readable (h : Readable a) : Readable a.legacy := by
  refine ⟨?_, h.length, ?_, ?_⟩
  · have hkind := h.kind
    cases hk : a.kind <;> rw [hk] at hkind <;> simp [Address.legacy, hk, Kind.legacy, Kind.named]
      at hkind ⊢
  · rcases h.net with hnet | hnet | hnet <;> simp [Address.legacy, hnet, legacyNet]
  · have hver := h.verByte
    have hkind := h.kind
    rcases h.net with hnet | hnet | hnet <;> cases hk : a.kind <;> rw [hk] at hkind hver <;>
      rw [hnet] at hver <;> simp [Kind.named] at hkind <;>
      simp only [Address.legacy, hnet, hk, legacyNet, Kind.legacy, hver] <;> decide

/-- Both addresses have the same script. -/
theorem toCScript_legacy (a : Address) : a.legacy.toCScript = a.toCScript := by
  cases hk : a.kind <;> simp [toCScript, Address.legacy, hk, Kind.legacy]

/-- Reading what was written as a legacy address, if there is a script. -/
theorem Readable.fromString_legacy (h : Readable a) (hscript : a.toCScript ≠ []) :
    ∃ written, a.toLegacyString C = .ok written ∧ fromString C written = .ok a.legacy := by
  have hencode : a.toLegacyString C =
      Base58.encodeBase58Check C (a.verByte :: a.hash) := if_pos h.isValid
  have hwritten := Base58.encodeBase58_eq (a.verByte :: a.hash
    ++ Base58.checksum C (a.verByte :: a.hash))
  refine ⟨_, hencode.trans hwritten, ?_⟩
  have hdecode := decodeBase58Check_encode (C := C) hwritten
  obtain ⟨hnet, hkind⟩ := legacy_tables h.kind h.net
  rw [← h.verByte] at hnet hkind
  have hlen : (a.verByte :: a.hash).length = 1 + h160Len ∨
      (a.verByte :: a.hash).length = 1 + h256Len := by
    rw [List.length_cons, add_comm]
    exact h.length.imp (congrArg (1 + ·)) (congrArg (1 + ·))
  have hauto : autosetKind { net := legacyNet a.net, verByte := a.verByte, hash := a.hash } =
      a.legacy := by
    have hnamed := h.legacy_readable.kind
    have hne : a.kind.legacy ≠ .invalid := by
      intro heq
      rw [Address.legacy] at hnamed
      simp only [heq] at hnamed
      cases hnamed
    simp only [autosetKind, hkind]
    rcases h.length with h160 | h256
    · rw [if_pos h160, if_pos hne]
      rfl
    · have hnot : ¬ a.hash.length = h160Len := by
        rw [h256]
        decide
      have hp2sh : a.kind.legacy = .p2sh := by
        rw [toCScript, if_neg hnot] at hscript
        split_ifs at hscript with hboth
        · rcases hboth.2 with hk | hk <;> rw [hk] <;> rfl
        · exact absurd rfl hscript
      rw [if_neg hnot, if_pos h256, if_pos (.inl hp2sh)]
      rfl
  rw [fromString, hdecode]
  simp only [if_neg (not_not_intro hlen), List.getD_cons_zero, List.drop_one, List.tail_cons,
    hnet, hauto]

end Legacy

/-! ## All texts -/

/--
A valid address that was read from some text is read again from its cash address, in
small or capital letters.  From its legacy address an address with the same script is
read, if there is a script.
-/
theorem fromString_toString {ss : List UInt8} {a : Address} (h : fromString C ss = .ok a)
    (hvalid : a.isValid = true) :
    (∃ written, a.toCashString = .ok written ∧
      ∀ text, Spells text written → fromString C text = .ok a) ∧
    (a.toCScript ≠ [] → ∃ written b, a.toLegacyString C = .ok written ∧
      fromString C written = .ok b ∧ b.isValid = true ∧ b.toCScript = a.toCScript) := by
  have hreadable := readable_of_fromString h hvalid
  obtain ⟨pfx, written, -, -, hcash⟩ := hreadable.toCashString_eq
  refine ⟨⟨written, hcash, fun text htext => hreadable.fromString_cash hcash htext⟩, ?_⟩
  intro hscript
  obtain ⟨written', hlegacy, hread⟩ := hreadable.fromString_legacy (C := C) hscript
  exact ⟨written', a.legacy, hlegacy, hread, hreadable.legacy_readable.isValid, toCScript_legacy a⟩

/-- The address of twenty zero bytes. -/
def zeroAddress : Address :=
  { net := .mainNet, verByte := 0, hash := List.replicate 20 0, kind := .p2pkh }

theorem readable_zeroAddress : Readable zeroAddress :=
  ⟨rfl, .inl rfl, .inl rfl, rfl⟩

/-- What is written is spelled in small letters. -/
theorem spells_self {p written : List UInt8} {content : CashAddr.CashAddrContent}
    (hp : LowerCase p) (h : CashAddr.encodeCashAddr p content = .ok written) :
    Spells written written := by
  obtain ⟨payload, hpack, heq⟩ := Fallible.bind_eq_ok.mp h
  obtain rfl := Except.ok.inj heq
  obtain ⟨size, -, e, hpacks⟩ := CashAddr.packAddrData_eq_ok.mp hpack
  have hupper : ∀ c ∈ CashAddr.encode p payload, CashAddr.isUpper c = false := by
    intro c hc
    rw [CashAddr.encode] at hc
    rcases List.mem_append.mp hc with hc | hc
    · exact (CashAddr.not_of_isLower (hp c hc)).1
    · rcases List.mem_cons.mp hc with rfl | hc
      · decide
      · obtain ⟨d, hd, rfl⟩ := List.mem_map.mp hc
        exact CashAddr.isUpper_char (CashAddr.symbols_append hpacks.symbols d hd)
  refine ⟨?_, ?_⟩
  · rintro ⟨hany, -⟩
    obtain ⟨c, hc, hu⟩ := List.any_eq_true.mp hany
    rw [hupper c hc] at hu
    cases hu
  · refine (List.map_congr_left fun c hc => ?_).trans (List.map_id _)
    rw [toLower, hupper c hc]
    rfl

/-- The address of twenty zero bytes, read from its cash address. -/
theorem fromString_toString_zero :
    ∃ C ss, fromString C ss = .ok zeroAddress ∧
      (∃ written, zeroAddress.toCashString = .ok written ∧
        ∀ text, Spells text written → fromString C text = .ok zeroAddress) ∧
      (zeroAddress.toCScript ≠ [] → ∃ written b, zeroAddress.toLegacyString C = .ok written ∧
        fromString C written = .ok b ∧ b.isValid = true ∧
        b.toCScript = zeroAddress.toCScript) := by
  obtain ⟨pfx, written, hpfx, hencode, hcash⟩ := readable_zeroAddress.toCashString_eq
  obtain ⟨pfx', hpfx', hlower, -⟩ := prefix_cases readable_zeroAddress.net_ne
  obtain rfl : pfx = pfx' := Option.some.inj (hpfx.symm.trans hpfx')
  have hread := readable_zeroAddress.fromString_cash
    (C := { sha256 := fun _ => 0, blake2b256 := fun _ => 0 }) hcash (spells_self hlower hencode)
  exact ⟨_, _, hread, fromString_toString hread (by decide)⟩

end Address
end BTC
end Shulcrum
