import Shulcrum.Header

/-!
# Reading headers

A header is read field by field from a byte stream that throws at the end of
the data.  The version word decides whether the fields of the second layout
follow.

**Results.**
* `serialize_of_deserialize`: a header of the size its version word gives is
  serialized back to the bytes it was read from.
* `deserialize_serialize`: the fields of a serialized header are read back.
-/

namespace Shulcrum
namespace BTC

section Numbers

/-- The number with the given bytes, least significant first. -/
def ofLE (bytes : List UInt8) : Nat :=
  bytes.foldr (fun b n => b.toNat + 256 * n) 0

/-- The number with the given bytes, most significant first. -/
def ofBE (bytes : List UInt8) : Nat := ofLE bytes.reverse

theorem leBytes_succ (k v : Nat) :
    leBytes (k + 1) v = UInt8.ofNat (v % 256) :: leBytes k (v / 256) := by
  simp only [leBytes, List.range_succ_eq_map, List.map_cons, List.map_map]
  congr 1
  · simp
  · apply List.map_congr_left
    intro i _
    simp only [Function.comp, Nat.succ_eq_add_one, Nat.pow_succ', Nat.div_div_eq_div_mul]

theorem ofLE_leBytes {k v : Nat} (h : v < 256 ^ k) : ofLE (leBytes k v) = v := by
  induction k generalizing v with
  | zero =>
      simp only [Nat.pow_zero, Nat.lt_one_iff] at h
      simp [h, leBytes, ofLE]
  | succ k ih =>
      have hdiv : v / 256 < 256 ^ k := by
        rw [Nat.pow_succ'] at h
        exact Nat.div_lt_of_lt_mul h
      have hrec : ofLE (leBytes (k + 1) v) = (UInt8.ofNat (v % 256)).toNat +
          256 * ofLE (leBytes k (v / 256)) := by
        rw [leBytes_succ]
        rfl
      rw [hrec, ih hdiv, UInt8.toNat_ofNat']
      omega

theorem leBytes_ofLE (bytes : List UInt8) : leBytes bytes.length (ofLE bytes) = bytes := by
  induction bytes with
  | nil => rfl
  | cons b bytes ih =>
      have hb : b.toNat < 256 := b.toNat_lt
      have hrec : ofLE (b :: bytes) = b.toNat + 256 * ofLE bytes := rfl
      have hmod : (b.toNat + 256 * ofLE bytes) % 256 = b.toNat := by omega
      have hdiv : (b.toNat + 256 * ofLE bytes) / 256 = ofLE bytes := by omega
      rw [List.length_cons, leBytes_succ, hrec, hmod, hdiv, ih, UInt8.ofNat_toNat]

theorem ofLE_lt (bytes : List UInt8) : ofLE bytes < 256 ^ bytes.length := by
  induction bytes with
  | nil => simp [ofLE]
  | cons b bytes ih =>
      have hb : b.toNat < 256 := b.toNat_lt
      have hrec : ofLE (b :: bytes) = b.toNat + 256 * ofLE bytes := rfl
      rw [hrec, List.length_cons, Nat.pow_succ']
      omega

theorem ofBE_beBytes {k v : Nat} (h : v < 256 ^ k) : ofBE (beBytes k v) = v := by
  rw [ofBE, beBytes, List.reverse_reverse, ofLE_leBytes h]

theorem beBytes_ofBE (bytes : List UInt8) : beBytes bytes.length (ofBE bytes) = bytes := by
  rw [ofBE, beBytes, ← List.length_reverse, leBytes_ofLE, List.reverse_reverse]

end Numbers

section Reader

/-- `GenericVectorReader::read`. -/
def read (n : Nat) : StateT (List UInt8) (Except String) (List UInt8) := fun b =>
  if b.length < n then .error "VectorReader::read(): end of data"
  else .ok (b.take n, b.drop n)

/-- A little-endian integer of `8 * k` bits. -/
def readUInt (w : Nat) : StateT (List UInt8) (Except String) (BitVec w) := do
  return BitVec.ofNat w (ofLE (← read (w / 8)))

/-- A byte string of fixed length, as `uint256` and `uint128` are read. -/
def readBlob (w : Nat) : StateT (List UInt8) (Except String) (BitVec w) := do
  return BitVec.ofNat w (ofBE (← read (w / 8)))

namespace CBlockHeader

/-- `CBlockHeader::Unserialize`. -/
def unserialize : StateT (List UInt8) (Except String) CBlockHeader := do
  let v ← readUInt 32
  let headerV2 : Bool := v &&& 0x80000000#32 != 0#32
  let nVersion := v &&& ~~~0x80000000#32
  let hashPrevBlock ← readBlob 256
  let hashMerkleRoot ← readBlob 256
  let nTime ← readUInt 32
  let nBits ← readUInt 32
  let nNonce ← readUInt 32
  if headerV2 then
    let nonce2 ← readUInt 32
    let nonce3 ← readUInt 32
    let extranonce ← readBlob 128
    let timeOffset ← readUInt 32
    let txcount ← readUInt 16
    let flags ← readUInt 8
    let xorKeyMaskClearBits ← readUInt 8
    let xorKey ← readBlob 128
    let height ← readUInt 32
    let mmRhs ← readBlob 256
    return {
      headerV2 := headerV2, nVersion := nVersion, hashPrevBlock := hashPrevBlock
      hashMerkleRoot := hashMerkleRoot, nTime := nTime, nBits := nBits, nNonce := nNonce
      nonce2 := nonce2, nonce3 := nonce3, extranonce := extranonce, timeOffset := timeOffset
      txcount := txcount, flags := flags, xorKeyMaskClearBits := xorKeyMaskClearBits
      xorKey := xorKey, height := height, mmRhs := mmRhs }
  else
    -- `ClearV2Fields`: the other fields are zero
    return {
      headerV2 := headerV2, nVersion := nVersion, hashPrevBlock := hashPrevBlock
      hashMerkleRoot := hashMerkleRoot, nTime := nTime, nBits := nBits, nNonce := nNonce }

end CBlockHeader

/-- `BTC::Deserialize<CBlockHeader>`: bytes after the header are ignored. -/
def deserialize (bytes : List UInt8) : Except String CBlockHeader :=
  (·.1) <$> CBlockHeader.unserialize bytes

theorem read_append {n : Nat} {x : List UInt8} (hx : x.length = n) (y : List UInt8) :
    read n (x ++ y) = .ok (x, y) := by
  subst hx
  simp [read]

theorem bind_ok {α β : Type} {m : StateT (List UInt8) (Except String) α}
    {f : α → StateT (List UInt8) (Except String) β} {b b' : List UInt8} {a : α}
    (h : m b = .ok (a, b')) : (m >>= f) b = f a b' := by
  simp only [bind, StateT.bind, h, Except.bind]

theorem readUInt_append {w : Nat} {x : List UInt8} (hx : x.length = w / 8) (y : List UInt8) :
    readUInt w (x ++ y) = .ok (BitVec.ofNat w (ofLE x), y) := by
  rw [readUInt, bind_ok (read_append hx y)]
  rfl

theorem readBlob_append {w : Nat} {x : List UInt8} (hx : x.length = w / 8) (y : List UInt8) :
    readBlob w (x ++ y) = .ok (BitVec.ofNat w (ofBE x), y) := by
  rw [readBlob, bind_ok (read_append hx y)]
  rfl

/-- What an integer field is serialized to. -/
theorem leBytes_ofNat {w k : Nat} {x : List UInt8} (hw : w = 8 * k) (hx : x.length = k) :
    leBytes k (BitVec.ofNat w (ofLE x)).toNat = x := by
  subst hw hx
  have hlt : ofLE x < 2 ^ (8 * x.length) := by
    rw [Nat.pow_mul]
    exact ofLE_lt x
  rw [BitVec.toNat_ofNat, Nat.mod_eq_of_lt hlt, leBytes_ofLE]

theorem beBytes_ofNat {w k : Nat} {x : List UInt8} (hw : w = 8 * k) (hx : x.length = k) :
    beBytes k (BitVec.ofNat w (ofBE x)).toNat = x := by
  rw [beBytes, ofBE, leBytes_ofNat hw (by rw [List.length_reverse, hx]), List.reverse_reverse]

theorem exists_append {b : List UInt8} {n : Nat} (h : n ≤ b.length) :
    ∃ x y, b = x ++ y ∧ x.length = n :=
  ⟨b.take n, b.drop n, (List.take_append_drop n b).symm, by simp [h]⟩

/-- The version word is its flag and its other bits. -/
theorem completeVersion (v : BitVec 32) :
    (if (v &&& 0x80000000#32 != 0#32) = true then 0x80000000#32 else 0#32) |||
      ((v &&& ~~~0x80000000#32) &&& ~~~0x80000000#32) = v := by
  have hflag : (v &&& 0x80000000#32) = if v.getLsbD 31 then 0x80000000#32 else 0#32 :=
    BitVec.and_twoPow v 31
  have hv : (if (v &&& 0x80000000#32 != 0#32) = true then 0x80000000#32 else 0#32) =
      v &&& 0x80000000#32 := by
    rw [hflag]
    cases v.getLsbD 31 <;> rfl
  rw [hv, BitVec.and_assoc, BitVec.and_self, ← BitVec.and_or_distrib_left, BitVec.or_not_self,
    BitVec.and_allOnes]

/-- A header of the first layout is read from its six fields. -/
theorem unserialize_v1 {ver prev root time bits nonce : List UInt8} (rest : List UInt8)
    (hver : ver.length = 4)
    (hprev : prev.length = 32) (hroot : root.length = 32) (htime : time.length = 4)
    (hbits : bits.length = 4) (hnonce : nonce.length = 4)
    (hv2 : (BitVec.ofNat 32 (ofLE ver) &&& 0x80000000#32 != 0#32) = false) :
    CBlockHeader.unserialize (ver ++ (prev ++ (root ++ (time ++ (bits ++ (nonce ++ rest)))))) =
      .ok ({
        headerV2 := false
        nVersion := BitVec.ofNat 32 (ofLE ver) &&& ~~~0x80000000#32
        hashPrevBlock := BitVec.ofNat 256 (ofBE prev)
        hashMerkleRoot := BitVec.ofNat 256 (ofBE root)
        nTime := BitVec.ofNat 32 (ofLE time)
        nBits := BitVec.ofNat 32 (ofLE bits)
        nNonce := BitVec.ofNat 32 (ofLE nonce) }, rest) := by
  rw [CBlockHeader.unserialize, bind_ok (readUInt_append hver _), bind_ok (readBlob_append hprev _),
    bind_ok (readBlob_append hroot _), bind_ok (readUInt_append htime _),
    bind_ok (readUInt_append hbits _), bind_ok (readUInt_append hnonce _), hv2]
  rfl

/-- A header of the second layout is read from its sixteen fields. -/
theorem unserialize_v2 {ver prev root time bits nonce n2 n3 extra off txs flags mask key ht mm :
    List UInt8} (rest : List UInt8) (hver : ver.length = 4)
    (hprev : prev.length = 32) (hroot : root.length = 32) (htime : time.length = 4)
    (hbits : bits.length = 4) (hnonce : nonce.length = 4) (hn2 : n2.length = 4)
    (hn3 : n3.length = 4) (hextra : extra.length = 16) (hoff : off.length = 4)
    (htxs : txs.length = 2) (hflags : flags.length = 1) (hmask : mask.length = 1)
    (hkey : key.length = 16) (hht : ht.length = 4) (hmm : mm.length = 32)
    (hv2 : (BitVec.ofNat 32 (ofLE ver) &&& 0x80000000#32 != 0#32) = true) :
    CBlockHeader.unserialize (ver ++ (prev ++ (root ++ (time ++ (bits ++ (nonce ++ (n2 ++ (n3 ++
      (extra ++ (off ++ (txs ++ (flags ++ (mask ++ (key ++ (ht ++ (mm ++ rest)))))))))))))))) =
      .ok ({
        headerV2 := true
        nVersion := BitVec.ofNat 32 (ofLE ver) &&& ~~~0x80000000#32
        hashPrevBlock := BitVec.ofNat 256 (ofBE prev)
        hashMerkleRoot := BitVec.ofNat 256 (ofBE root)
        nTime := BitVec.ofNat 32 (ofLE time)
        nBits := BitVec.ofNat 32 (ofLE bits)
        nNonce := BitVec.ofNat 32 (ofLE nonce)
        nonce2 := BitVec.ofNat 32 (ofLE n2)
        nonce3 := BitVec.ofNat 32 (ofLE n3)
        extranonce := BitVec.ofNat 128 (ofBE extra)
        timeOffset := BitVec.ofNat 32 (ofLE off)
        txcount := BitVec.ofNat 16 (ofLE txs)
        flags := BitVec.ofNat 8 (ofLE flags)
        xorKeyMaskClearBits := BitVec.ofNat 8 (ofLE mask)
        xorKey := BitVec.ofNat 128 (ofBE key)
        height := BitVec.ofNat 32 (ofLE ht)
        mmRhs := BitVec.ofNat 256 (ofBE mm) }, rest) := by
  rw [CBlockHeader.unserialize, bind_ok (readUInt_append hver _), bind_ok (readBlob_append hprev _),
    bind_ok (readBlob_append hroot _), bind_ok (readUInt_append htime _),
    bind_ok (readUInt_append hbits _), bind_ok (readUInt_append hnonce _), hv2, if_pos rfl,
    bind_ok (readUInt_append hn2 _), bind_ok (readUInt_append hn3 _),
    bind_ok (readBlob_append hextra _), bind_ok (readUInt_append hoff _),
    bind_ok (readUInt_append htxs _), bind_ok (readUInt_append hflags _),
    bind_ok (readUInt_append hmask _), bind_ok (readBlob_append hkey _),
    bind_ok (readUInt_append hht _), bind_ok (readBlob_append hmm _)]
  rfl

/-- The version word of a header decides its layout. -/
theorem isHeaderV2_append {ver : List UInt8} (hver : ver.length = 4) (rest : List UInt8) :
    isHeaderV2 (ver ++ rest) = (BitVec.ofNat 32 (ofLE ver) &&& 0x80000000#32 != 0#32) := by
  have hlt : ofLE ver < 2 ^ 32 := by
    have hle := ofLE_lt ver
    rw [hver] at hle
    exact hle
  have hread : readLE32 (ver ++ rest) = ofLE ver := by
    conv_lhs => rw [← leBytes_ofLE ver, hver]
    exact readLE32_leBytes hlt rest
  have hlen : ¬ (ver ++ rest).length < 4 := by
    rw [List.length_append]
    omega
  have hflag : (BitVec.ofNat 32 (ofLE ver) &&& 0x80000000#32) =
      if (BitVec.ofNat 32 (ofLE ver)).getLsbD 31 then 0x80000000#32 else 0#32 :=
    BitVec.and_twoPow _ 31
  have hbit : (BitVec.ofNat 32 (ofLE ver)).getLsbD 31 = (ofLE ver).testBit 31 := by
    rw [BitVec.getLsbD_ofNat]
    rfl
  rw [isHeaderV2, if_neg hlen, hread, hflag, hbit]
  cases (ofLE ver).testBit 31 <;> rfl

theorem length_of_headerSizeFor {b : Header} (hb : b.length = headerSizeFor b) (hne : b ≠ []) :
    b.length = if isHeaderV2 b then 164 else 80 := by
  have hpos : 0 < b.length := List.length_pos_iff.mpr hne
  rw [headerSizeFor] at hb
  split_ifs at hb with hshort hv2
  · omega
  · rw [if_pos hv2]
    exact hb
  · rw [if_neg hv2]
    exact hb

/-- A header of its own size is read, and serialized back to the same bytes. -/
theorem exists_deserialize {b : Header} (hb : b.length = headerSizeFor b) (hne : b ≠ []) :
    ∃ h, deserialize b = .ok h ∧ h.serialize = b := by
  have hsize := length_of_headerSizeFor hb hne
  have hbig : 80 ≤ b.length := by
    rw [hsize]
    split_ifs <;> omega
  obtain ⟨ver, b1, rfl, hver⟩ := exists_append (b := b) (n := 4) (by omega)
  obtain ⟨prev, b2, rfl, hprev⟩ := exists_append (b := b1) (n := 32)
    (by simp only [List.length_append] at hbig; omega)
  obtain ⟨root, b3, rfl, hroot⟩ := exists_append (b := b2) (n := 32)
    (by simp only [List.length_append] at hbig; omega)
  obtain ⟨time, b4, rfl, htime⟩ := exists_append (b := b3) (n := 4)
    (by simp only [List.length_append] at hbig; omega)
  obtain ⟨bits, b5, rfl, hbits⟩ := exists_append (b := b4) (n := 4)
    (by simp only [List.length_append] at hbig; omega)
  obtain ⟨nonce, b6, rfl, hnonce⟩ := exists_append (b := b5) (n := 4)
    (by simp only [List.length_append] at hbig; omega)
  have hv2 := isHeaderV2_append hver (prev ++ (root ++ (time ++ (bits ++ (nonce ++ b6)))))
  rw [hv2] at hsize
  have hversion := completeVersion (BitVec.ofNat 32 (ofLE ver))
  have hword := (congrArg (fun v : BitVec 32 => leBytes 4 v.toNat) hversion).trans
    (leBytes_ofNat (w := 32) rfl hver)
  cases hflag : (BitVec.ofNat 32 (ofLE ver) &&& 0x80000000#32 != 0#32) with
  | false =>
      rw [hflag] at hsize hword
      have hrest : b6 = [] := by
        simp at hsize
        exact List.length_eq_zero_iff.mp (by omega)
      subst hrest
      have hread := unserialize_v1 [] hver hprev hroot htime hbits hnonce hflag
      refine ⟨_, by rw [deserialize, hread]; rfl, ?_⟩
      simp only [CBlockHeader.serialize, List.append_assoc]
      refine congrArg₂ (· ++ ·) hword ?_
      simp only [beBytes_ofNat (w := 256) rfl hprev,
        beBytes_ofNat (w := 256) rfl hroot, leBytes_ofNat (w := 32) rfl htime,
        leBytes_ofNat (w := 32) rfl hbits, leBytes_ofNat (w := 32) rfl hnonce]
      simp
  | true =>
      rw [hflag] at hsize hword
      simp only [if_true, List.length_append] at hsize
      obtain ⟨n2, c1, rfl, hn2⟩ := exists_append (b := b6) (n := 4) (by omega)
      obtain ⟨n3, c2, rfl, hn3⟩ := exists_append (b := c1) (n := 4)
        (by simp only [List.length_append] at hsize; omega)
      obtain ⟨extra, c3, rfl, hextra⟩ := exists_append (b := c2) (n := 16)
        (by simp only [List.length_append] at hsize; omega)
      obtain ⟨off, c4, rfl, hoff⟩ := exists_append (b := c3) (n := 4)
        (by simp only [List.length_append] at hsize; omega)
      obtain ⟨txs, c5, rfl, htxs⟩ := exists_append (b := c4) (n := 2)
        (by simp only [List.length_append] at hsize; omega)
      obtain ⟨flags, c6, rfl, hflags⟩ := exists_append (b := c5) (n := 1)
        (by simp only [List.length_append] at hsize; omega)
      obtain ⟨mask, c7, rfl, hmask⟩ := exists_append (b := c6) (n := 1)
        (by simp only [List.length_append] at hsize; omega)
      obtain ⟨key, c8, rfl, hkey⟩ := exists_append (b := c7) (n := 16)
        (by simp only [List.length_append] at hsize; omega)
      obtain ⟨ht, mm, rfl, hht⟩ := exists_append (b := c8) (n := 4)
        (by simp only [List.length_append] at hsize; omega)
      have hmm : mm.length = 32 := by
        simp only [List.length_append] at hsize
        omega
      have hread := unserialize_v2 [] hver hprev hroot htime hbits hnonce hn2 hn3 hextra
        hoff htxs hflags hmask hkey hht hmm hflag
      rw [List.append_nil] at hread
      refine ⟨_, by rw [deserialize, hread]; rfl, ?_⟩
      simp only [CBlockHeader.serialize, List.append_assoc]
      refine congrArg₂ (· ++ ·) hword ?_
      simp only [beBytes_ofNat (w := 256) rfl hprev,
        beBytes_ofNat (w := 256) rfl hroot, leBytes_ofNat (w := 32) rfl htime,
        leBytes_ofNat (w := 32) rfl hbits, leBytes_ofNat (w := 32) rfl hnonce,
        leBytes_ofNat (w := 32) rfl hn2, leBytes_ofNat (w := 32) rfl hn3,
        beBytes_ofNat (w := 128) rfl hextra, leBytes_ofNat (w := 32) rfl hoff,
        leBytes_ofNat (w := 16) rfl htxs, leBytes_ofNat (w := 8) rfl hflags,
        leBytes_ofNat (w := 8) rfl hmask, beBytes_ofNat (w := 128) rfl hkey,
        leBytes_ofNat (w := 32) rfl hht, beBytes_ofNat (w := 256) rfl hmm]
      simp

theorem ofNat_leBytes {w k : Nat} (hw : w = 8 * k) (x : BitVec w) :
    BitVec.ofNat w (ofLE (leBytes k x.toNat)) = x := by
  subst hw
  have hlt : x.toNat < 256 ^ k := by
    have h := x.isLt
    rw [Nat.pow_mul] at h
    exact h
  rw [ofLE_leBytes hlt, BitVec.ofNat_toNat, BitVec.setWidth_eq]

theorem ofNat_beBytes {w k : Nat} (hw : w = 8 * k) (x : BitVec w) :
    BitVec.ofNat w (ofBE (beBytes k x.toNat)) = x := by
  rw [ofBE, beBytes, List.reverse_reverse, ofNat_leBytes hw]

/-- What a header is read back as: bit 31 of the version is the layout flag, and a header of the
first layout has no other fields. -/
def CBlockHeader.canonical (h : CBlockHeader) : CBlockHeader :=
  if h.headerV2 then { h with nVersion := h.nVersion &&& ~~~0x80000000#32 }
  else {
    headerV2 := false
    nVersion := h.nVersion &&& ~~~0x80000000#32
    hashPrevBlock := h.hashPrevBlock
    hashMerkleRoot := h.hashMerkleRoot
    nTime := h.nTime
    nBits := h.nBits
    nNonce := h.nNonce }

theorem flag_getCompleteVersion (h : CBlockHeader) :
    (h.getCompleteVersion &&& 0x80000000#32 != 0#32) = h.headerV2 := by
  have hflag : (h.getCompleteVersion &&& 0x80000000#32) =
      if h.getCompleteVersion.getLsbD 31 then 0x80000000#32 else 0#32 :=
    BitVec.and_twoPow _ 31
  have hbit : h.getCompleteVersion.getLsbD 31 = h.headerV2 := by
    rw [← BitVec.testBit_toNat, testBit_getCompleteVersion]
  rw [hflag, hbit]
  cases h.headerV2 <;> rfl

theorem mask_getCompleteVersion (h : CBlockHeader) :
    h.getCompleteVersion &&& ~~~0x80000000#32 = h.nVersion &&& ~~~0x80000000#32 := by
  rw [CBlockHeader.getCompleteVersion, BitVec.and_or_distrib_right, BitVec.and_assoc,
    BitVec.and_self]
  cases h.headerV2 <;> simp

/-- The fields of a serialized header are read back, whatever follows it. -/
theorem unserialize_serialize (h : CBlockHeader) (rest : List UInt8) :
    CBlockHeader.unserialize (h.serialize ++ rest) = .ok (h.canonical, rest) := by
  have hflag := flag_getCompleteVersion h
  rw [← ofNat_leBytes (k := 4) rfl h.getCompleteVersion] at hflag
  cases hv2 : h.headerV2 with
  | false =>
      rw [hv2] at hflag
      have hread := unserialize_v1 rest (length_leBytes 4 h.getCompleteVersion.toNat)
        (length_beBytes 32 h.hashPrevBlock.toNat) (length_beBytes 32 h.hashMerkleRoot.toNat)
        (length_leBytes 4 h.nTime.toNat) (length_leBytes 4 h.nBits.toNat)
        (length_leBytes 4 h.nNonce.toNat) hflag
      simp only [CBlockHeader.serialize, hv2, List.append_assoc, Bool.false_eq_true, if_false,
        List.nil_append]
      rw [hread]
      simp only [ofNat_leBytes (w := 32) (k := 4) rfl, ofNat_beBytes (w := 256) (k := 32) rfl,
        mask_getCompleteVersion, CBlockHeader.canonical, hv2]
      rfl
  | true =>
      rw [hv2] at hflag
      have hread := unserialize_v2 rest (length_leBytes 4 h.getCompleteVersion.toNat)
        (length_beBytes 32 h.hashPrevBlock.toNat) (length_beBytes 32 h.hashMerkleRoot.toNat)
        (length_leBytes 4 h.nTime.toNat) (length_leBytes 4 h.nBits.toNat)
        (length_leBytes 4 h.nNonce.toNat) (length_leBytes 4 h.nonce2.toNat)
        (length_leBytes 4 h.nonce3.toNat) (length_beBytes 16 h.extranonce.toNat)
        (length_leBytes 4 h.timeOffset.toNat) (length_leBytes 2 h.txcount.toNat)
        (length_leBytes 1 h.flags.toNat) (length_leBytes 1 h.xorKeyMaskClearBits.toNat)
        (length_beBytes 16 h.xorKey.toNat) (length_leBytes 4 h.height.toNat)
        (length_beBytes 32 h.mmRhs.toNat) hflag
      simp only [CBlockHeader.serialize, hv2, List.append_assoc, if_true]
      rw [hread]
      simp only [ofNat_leBytes (w := 32) (k := 4) rfl, ofNat_beBytes (w := 256) (k := 32) rfl,
        ofNat_beBytes (w := 128) (k := 16) rfl, ofNat_leBytes (w := 16) (k := 2) rfl,
        ofNat_leBytes (w := 8) (k := 1) rfl, mask_getCompleteVersion, CBlockHeader.canonical, hv2]
      rfl

/-- The fields of a serialized header are read back. -/
theorem deserialize_serialize (h : CBlockHeader) : deserialize h.serialize = .ok h.canonical := by
  have hread := unserialize_serialize h []
  rw [List.append_nil] at hread
  rw [deserialize, hread]
  rfl

@[simp] theorem nBits_canonical (h : CBlockHeader) : h.canonical.nBits = h.nBits := by
  unfold CBlockHeader.canonical
  split_ifs <;> rfl

@[simp] theorem hashPrevBlock_canonical (h : CBlockHeader) :
    h.canonical.hashPrevBlock = h.hashPrevBlock := by
  unfold CBlockHeader.canonical
  split_ifs <;> rfl

/-- A string of fewer than four bytes is no header. -/
theorem deserialize_nil : deserialize [] = .error "VectorReader::read(): end of data" := rfl

end Reader

end BTC
end Shulcrum
