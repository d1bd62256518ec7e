import Shulcrum.Storage.UndoCodec

/-!
# Undo records are read back

Every part of a record that `Serialize<UndoInfo>` writes is read back where it
stands, so that the whole record is, if its length passes the check of the
header.

**Results.**
* `length_serialize_eq`: the length of a record, from the sizes of its parts.
* `deserialize_serialize_iff`: a record is read back iff its length fits into a
  signed 32-bit integer.
* `undoInfo_codec`: this, and which other buffers are read or rejected.
-/

namespace Shulcrum
namespace Storage
namespace UndoCodec

open BTC Cursor

section Items

theorem hashOfBytes_hashBytes (h : Hash) : hashOfBytes (hashBytes h) = h := by
  have hlt : h.toNat < 256 ^ 32 := h.isLt
  rw [hashOfBytes, hashBytes, ofBE_beBytes hlt, BitVec.ofNat_toNat, BitVec.setWidth_eq]

theorem hashBytes_hashOfBytes {b : List UInt8} (h : b.length = 32) :
    hashBytes (hashOfBytes b) = b := by
  have hlt : ofBE b < 2 ^ 256 := by
    have hbound := ofLE_lt b.reverse
    rw [List.length_reverse, h] at hbound
    exact hbound
  have hbytes := beBytes_ofBE b
  rw [h] at hbytes
  rw [hashBytes, hashOfBytes, BitVec.toNat_ofNat, Nat.mod_eq_of_lt hlt, hbytes]

theorem length_txoToBytes_cases (wide : Bool) (txo : TXO) :
    (txoToBytes wide txo).length = 34 ∨ (txoToBytes wide txo).length = 35 := by
  rw [txoToBytes, List.length_append, length_hashBytes, length_leBytes, outNSize]
  split_ifs
  · exact Or.inr rfl
  · exact Or.inl rfl

theorem txoFromBytes_toBytes {wide : Bool} {txo : TXO} (h : txo.outN < 2 ^ 24) :
    txoFromBytes (txoToBytes wide txo) = some txo := by
  have hfit : txo.outN < 256 ^ outNSize wide txo.outN := by
    rw [outNSize]
    split_ifs with hc
    · omega
    · push Not at hc
      omega
  have htake : (txoToBytes wide txo).take 32 = hashBytes txo.txHash :=
    List.take_left' (length_hashBytes _)
  have hdrop : (txoToBytes wide txo).drop 32 = leBytes (outNSize wide txo.outN) txo.outN :=
    List.drop_left' (length_hashBytes _)
  rw [txoFromBytes, if_pos (length_txoToBytes_cases wide txo), htake, hdrop,
    hashOfBytes_hashBytes, ofLE_leBytes hfit]

theorem compactFromBytes_toBytes {ctxo : CompactTXO} (htx : ctxo.txNum < 2 ^ 48)
    (hn : ctxo.n < 2 ^ 24) (hne : ctxo ≠ invalidCompactTXO) :
    compactFromBytes (compactToBytes true ctxo) = some ctxo := by
  have hsize : outNSize true ctxo.n = 3 := by simp [outNSize]
  have hlen : (compactToBytes true ctxo).length = 9 := by simp [compactToBytes, hsize]
  have htake : (compactToBytes true ctxo).take 6 = leBytes 6 ctxo.txNum :=
    List.take_left' (length_leBytes _ _)
  have hdrop : (compactToBytes true ctxo).drop 6 = leBytes 3 ctxo.n := by
    rw [compactToBytes, hsize]
    exact List.drop_left' (length_leBytes _ _)
  simp only [compactFromBytes, if_pos (Or.inr hlen), htake, hdrop]
  rw [ofLE_leBytes (by omega), ofLE_leBytes (by omega), if_neg hne]

/-- An output record that the tables can hold. -/
structure ValidInfo (deserToken : List UInt8 → Option TokenData) (info : TXOInfo) : Prop where
  amount : info.amount < 2 ^ 63
  height : ∀ h, info.confirmedHeight = some h → h < noBlockHeight
  txNum : info.txNum < 2 ^ 48
  /-- The (de)serializer of token data reads it back. -/
  token : ∀ t, info.tokenDataPtr = some t → deserToken t = some t

variable {deserToken : List UInt8 → Option TokenData}

theorem infoFromBytes_toBytes {info : TXOInfo} (h : ValidInfo deserToken info) :
    infoFromBytes deserToken (infoToBytes info) = some info := by
  have hmax : noBlockHeight = 2 ^ 32 - 1 := rfl
  have hamount := h.amount
  have htxNum := h.txNum
  generalize hb : infoToBytes info = b
  simp only [infoToBytes, List.append_assoc] at hb
  have hlen : ¬ b.length < infoMinSize := by
    rw [← hb]
    simp only [List.length_append, length_leBytes, length_hashBytes, infoMinSize]
    omega
  have h0 : b.take 8 = leBytes 8 info.amount := by
    rw [← hb]
    exact List.take_left' (length_leBytes _ _)
  have hdrop8 : b.drop 8 = leBytes 4 (info.confirmedHeight.getD noBlockHeight) ++
      (leBytes 6 info.txNum ++ (hashBytes info.hashX ++ tokenToBytes info.tokenDataPtr)) := by
    rw [← hb]
    exact List.drop_left' (length_leBytes _ _)
  have hdrop12 : b.drop 12 = leBytes 6 info.txNum ++
      (hashBytes info.hashX ++ tokenToBytes info.tokenDataPtr) := by
    have hsum : b.drop 12 = (b.drop 8).drop 4 := by rw [List.drop_drop]
    rw [hsum, hdrop8]
    exact List.drop_left' (length_leBytes _ _)
  have hdrop18 : b.drop 18 = hashBytes info.hashX ++ tokenToBytes info.tokenDataPtr := by
    have hsum : b.drop 18 = (b.drop 12).drop 6 := by rw [List.drop_drop]
    rw [hsum, hdrop12]
    exact List.drop_left' (length_leBytes _ _)
  have hdrop50 : b.drop 50 = tokenToBytes info.tokenDataPtr := by
    have hsum : b.drop 50 = (b.drop 18).drop 32 := by rw [List.drop_drop]
    rw [hsum, hdrop18]
    exact List.drop_left' (length_hashBytes _)
  have hheight : info.confirmedHeight.getD noBlockHeight < 2 ^ 32 := by
    cases hc : info.confirmedHeight with
    | none =>
        rw [Option.getD_none]
        omega
    | some c =>
        have hlt := h.height c hc
        rw [Option.getD_some]
        omega
  have htoken : tokenFromBytes deserToken (tokenToBytes info.tokenDataPtr) =
      some info.tokenDataPtr := by
    cases ht : info.tokenDataPtr with
    | none => rfl
    | some t => simp [tokenToBytes, tokenFromBytes, h.token t ht]
  have hcheight : (if info.confirmedHeight.getD noBlockHeight = noBlockHeight then none
      else some (info.confirmedHeight.getD noBlockHeight)) = info.confirmedHeight := by
    cases hc : info.confirmedHeight with
    | none => simp
    | some c =>
        have hlt := h.height c hc
        rw [Option.getD_some, if_neg (by omega)]
  simp only [infoFromBytes, if_neg hlen, hdrop50, htoken, h0, hdrop8, hdrop12, hdrop18,
    List.take_left' (length_leBytes _ _), List.take_left' (length_hashBytes _),
    ofLE_leBytes (show info.amount < 256 ^ 8 by omega),
    ofLE_leBytes (show info.confirmedHeight.getD noBlockHeight < 256 ^ 4 by omega),
    ofLE_leBytes (show info.txNum < 256 ^ 6 by omega), if_pos hamount, hashOfBytes_hashBytes,
    hcheight]

end Items

section Readers

variable {deserToken : List UInt8 → Option TokenData} {canReserve : Nat → Bool}
  {b rest : List UInt8}

theorem reads_valid {α : Type} {o : Option α} {a : α} (h : o = some a) (msg : String) :
    Reads b (valid o msg) [] rest a := by
  intro cur _ _
  subst h
  rfl

theorem reads_readUInt {k v : Nat} (hv : v < 256 ^ k) :
    Reads b (readUInt b k) (leBytes k v) rest v := by
  refine Reads.map (Reads.view (length_leBytes k v) rest) ?_
  rw [ofLE_leBytes hv]
  exact Reads.ret v rest

theorem reads_readScriptHash (h : HashX) : Reads b (readScriptHash b) (hashBytes h) rest h := by
  refine Reads.check ?_ ?_
  · intro cur hcur
    rw [List.length_append, length_hashBytes] at hcur
    omega
  · refine Reads.map (Reads.view (length_hashBytes h) rest) ?_
    rw [hashOfBytes_hashBytes]
    exact Reads.ret h rest

theorem length_txoToBytes (txo : TXO) : (txoToBytes true txo).length = 35 := by
  simp [txoToBytes, outNSize]

theorem length_compactToBytes (ctxo : CompactTXO) : (compactToBytes true ctxo).length = 9 := by
  simp [compactToBytes, outNSize]

theorem le_length_infoToBytes (info : TXOInfo) : infoMinSize ≤ (infoToBytes info).length := by
  simp only [infoToBytes, List.length_append, length_leBytes, length_hashBytes, infoMinSize]
  omega

theorem reads_readTXO {txo : TXO} (h : txo.outN < 2 ^ 24) :
    Reads b (readTXO b 35) (txoToBytes true txo) rest txo := by
  refine Reads.check ?_ ?_
  · intro cur hcur
    rw [List.length_append, length_txoToBytes] at hcur
    omega
  · exact Reads.map (Reads.view (length_txoToBytes txo) rest)
      (reads_valid (txoFromBytes_toBytes h) "")

/-- An entry of `addUndos` that the format can hold. -/
def ValidAddUndo (a : TXO × HashX × CompactTXO) : Prop :=
  a.1.outN < 2 ^ 24 ∧ a.2.2.txNum < 2 ^ 48 ∧ a.2.2.n < 2 ^ 24 ∧ a.2.2 ≠ invalidCompactTXO

theorem reads_readAddUndo {a : TXO × HashX × CompactTXO} (h : ValidAddUndo a) :
    Reads b (readAddUndo b 35 9) (addUndoToBytes a) rest a := by
  obtain ⟨hout, htx, hn, hne⟩ := h
  rw [addUndoToBytes, List.append_assoc]
  refine Reads.bind (reads_readTXO hout) ?_
  refine Reads.bind (reads_readScriptHash a.2.1) ?_
  refine Reads.check ?_ ?_
  · intro cur hcur
    rw [List.length_append, length_compactToBytes] at hcur
    omega
  · refine Reads.map (Reads.view (length_compactToBytes a.2.2) rest) ?_
    exact Reads.map (reads_valid (compactFromBytes_toBytes htx hn hne) "") (Reads.ret a rest)

/-- A size of 32 bits is read back. -/
theorem reads_readInfoSize (hb : b.length < 2 ^ 31) {v : Nat} (hv : v < 2 ^ 32) :
    Reads b (readInfoSize b) (VarInt.encode false v) rest v := by
  intro cur hcur h
  have hlen := add_length_eq hcur h
  have hread : VarInt.deserialize false (VarInt.encode false v ++ rest) = .ok (v, rest) :=
    VarInt.deserialize_encode (by omega) (by omega)
  have hshort : (VarInt.encode false v).length ≤ 5 := by
    have hnum : VarInt.numBytes v ≤ 4 := VarInt.numBytes_le (by omega) (by omega)
    unfold VarInt.encode
    split_ifs
    · rw [List.length_cons, VarInt.length_payload]
      omega
    · rw [VarInt.length_payload]
      omega
  rw [List.length_append] at hlen
  have hpayload : ¬ b.length - cur - rest.length - 1 > 4 := by omega
  simp only [readInfoSize, h, hread, if_neg hpayload, Except.ok.injEq, Prod.mk.injEq, true_and]
  omega

/-- An entry of `delUndos` that the format can hold. -/
def ValidDelUndo (deserToken : List UInt8 → Option TokenData) (d : TXO × TXOInfo) : Prop :=
  d.1.outN < 2 ^ 24 ∧ ValidInfo deserToken d.2

theorem reads_readDelUndo (hb : b.length < 2 ^ 31) {d : TXO × TXOInfo}
    (h : ValidDelUndo deserToken d) :
    Reads b (readDelUndo deserToken b 3 35) (delUndoToBytes d) rest d := by
  obtain ⟨hout, hinfo⟩ := h
  have hmin := le_length_infoToBytes d.2
  intro cur hcur hdrop
  have hlen := add_length_eq hcur hdrop
  simp only [delUndoToBytes, List.length_append] at hlen
  have hmod : (infoToBytes d.2).length % 2 ^ 32 = (infoToBytes d.2).length :=
    Nat.mod_eq_of_lt (by omega)
  have hsize : readSize b 3 = readInfoSize b := rfl
  have hreads : Reads b (readDelUndo deserToken b 3 35) (delUndoToBytes d) rest d := by
    rw [delUndoToBytes, hmod, List.append_assoc]
    refine Reads.bind (reads_readTXO hout) ?_
    refine Reads.check ?_ ?_
    · intro cur' hcur'
      rw [List.length_append, List.length_append] at hcur'
      omega
    · rw [hsize]
      refine Reads.bind (reads_readInfoSize hb (by omega)) ?_
      refine Reads.check ?_ ?_
      · intro cur' hcur'
        rw [List.length_append] at hcur'
        exact ⟨by omega, hmin, by omega⟩
      · refine Reads.map (Reads.view rfl rest) ?_
        exact Reads.map (reads_valid (infoFromBytes_toBytes hinfo) _) (Reads.ret d rest)
  exact hreads cur hcur hdrop

theorem reads_readBlkInfo {blk : BlkInfo} (h0 : blk.txNum0 < 2 ^ 64) (hn : blk.nTx < 2 ^ 32) :
    Reads b (readBlkInfo b) (blkInfoToBytes blk) rest blk := by
  have hlen : (blkInfoToBytes blk).length = 16 := by simp [blkInfoToBytes]
  have htake : (blkInfoToBytes blk).take 8 = leBytes 8 blk.txNum0 := by
    rw [blkInfoToBytes, List.append_assoc]
    exact List.take_left' (length_leBytes _ _)
  have hdrop : (blkInfoToBytes blk).drop 8 = leBytes 4 blk.nTx ++ [0, 0, 0, 0] := by
    rw [blkInfoToBytes, List.append_assoc]
    exact List.drop_left' (length_leBytes _ _)
  refine Reads.map (Reads.view hlen rest) ?_
  rw [htake, hdrop, List.take_left' (length_leBytes _ _), ofLE_leBytes (by omega),
    ofLE_leBytes (by omega)]
  exact Reads.ret blk rest

/-- A header whose fields fit. -/
structure FitsHeader (h : SerHeader) : Prop where
  magic : h.magic < 2 ^ 16
  ver : h.ver < 2 ^ 16
  len : h.len < 2 ^ 32
  nScriptHashes : h.nScriptHashes < 2 ^ 32
  nAddUndos : h.nAddUndos < 2 ^ 32
  nDelUndos : h.nDelUndos < 2 ^ 32

theorem reads_readHeader {h : SerHeader} (hfit : FitsHeader h) :
    Reads b (readHeader b) h.toBytes rest h := by
  obtain ⟨h1, h2, h3, h4, h5, h6⟩ := hfit
  simp only [SerHeader.toBytes, List.append_assoc]
  refine Reads.bind (reads_readUInt (by omega)) ?_
  refine Reads.bind (reads_readUInt (by omega)) ?_
  refine Reads.bind (reads_readUInt (by omega)) ?_
  refine Reads.bind (reads_readUInt (by omega)) ?_
  refine Reads.bind (reads_readUInt (by omega)) ?_
  exact Reads.map (reads_readUInt (by omega)) (Reads.ret h rest)

theorem insertAll_of_nodup {l : List HashX} (h : l.Nodup) : insertAll l = l := by
  have hrun : ∀ (l set : List HashX), (set ++ l).Nodup →
      l.foldl (fun set sh => if sh ∈ set then set else set ++ [sh]) set = set ++ l := by
    intro l
    induction l with
    | nil => simp
    | cons sh l ih =>
        intro set hnodup
        have hnot : sh ∉ set := by
          intro hmem
          exact (List.disjoint_of_nodup_append hnodup) hmem List.mem_cons_self
        rw [List.foldl_cons, if_neg hnot, ih (set ++ [sh]) (by simpa using hnodup),
          List.append_assoc, List.singleton_append]
  simpa [insertAll] using hrun l [] (by simpa using h)

end Readers

section Roundtrip

/-- A record that the format can hold: its fields have the widths of their types. -/
structure Valid (deserToken : List UInt8 → Option TokenData) (u : UndoInfo) : Prop where
  height : u.height < 2 ^ 32
  txNum0 : u.blkInfo.txNum0 < 2 ^ 64
  nTx : u.blkInfo.nTx < 2 ^ 32
  nodup : u.scriptHashes.Nodup
  addUndos : ∀ a ∈ u.addUndos, ValidAddUndo a
  delUndos : ∀ d ∈ u.delUndos, ValidDelUndo deserToken d

/-- The header of a record, with the given length. -/
def headerOf (u : UndoInfo) (len : Nat) : SerHeader :=
  { len := len
    nScriptHashes := u.scriptHashes.length % 2 ^ 32
    nAddUndos := u.addUndos.length % 2 ^ 32
    nDelUndos := u.delUndos.length % 2 ^ 32 }

theorem length_flatMap_of_length {α : Type} {f : α → List UInt8} {n : Nat}
    (h : ∀ a, (f a).length = n) (l : List α) : (l.flatMap f).length = n * l.length := by
  induction l with
  | nil => simp
  | cons a l ih =>
      rw [List.flatMap_cons, List.length_append, h, ih, List.length_cons, Nat.mul_succ]
      omega

theorem le_length_delUndos (l : List (TXO × TXOInfo)) :
    86 * l.length ≤ (l.flatMap delUndoToBytes).length := by
  induction l with
  | nil => simp
  | cons d l ih =>
      have hmin := le_length_infoToBytes d.2
      have hvar := List.length_pos_iff.mpr
        (VarInt.encode_ne_nil false ((infoToBytes d.2).length % 2 ^ 32))
      have hinfo : infoMinSize = 50 := rfl
      rw [List.flatMap_cons, List.length_append, delUndoToBytes, List.length_append,
        List.length_append, length_txoToBytes, List.length_cons]
      omega

theorem length_bodyToBytes (u : UndoInfo) :
    (bodyToBytes u).length = 52 + 32 * u.scriptHashes.length + 76 * u.addUndos.length +
      (u.delUndos.flatMap delUndoToBytes).length := by
  have hsh := length_flatMap_of_length (f := hashBytes) length_hashBytes u.scriptHashes
  have hadd := length_flatMap_of_length (f := addUndoToBytes) (n := 76)
    (fun a => by simp [addUndoToBytes, length_txoToBytes, length_compactToBytes]) u.addUndos
  simp only [bodyToBytes, List.length_append, length_leBytes, length_hashBytes, hsh, hadd,
    blkInfoToBytes, List.length_cons, List.length_nil]
  omega

/-- The fixed sizes never exceed the real ones. -/
theorem computeMinimumSizeV3_le (u : UndoInfo) (len : Nat) :
    (headerOf u len).computeMinimumSizeV3 ≤ 20 + (bodyToBytes u).length := by
  have hdel := le_length_delUndos u.delUndos
  rw [length_bodyToBytes]
  simp only [SerHeader.computeMinimumSizeV3, SerHeader.computeTotalSizeV2,
    SerHeader.computeTotalSize, headerOf, infoMinSize]
  omega

@[simp] theorem length_toBytes (h : SerHeader) : h.toBytes.length = 20 := by
  simp [SerHeader.toBytes]

/-- Writing the length over the one in the header. -/
theorem overwrite_len (h : SerHeader) (len : Nat) (body : List UInt8) :
    (h.toBytes ++ body).take 4 ++ leBytes 4 len ++ (h.toBytes ++ body).drop 8 =
      { h with len := len }.toBytes ++ body := by
  obtain ⟨pre, post, hpre, hbytes⟩ : ∃ pre post : List UInt8, pre.length = 4 ∧
      ∀ n, { h with len := n }.toBytes ++ body = pre ++ (leBytes 4 n ++ post) := by
    refine ⟨leBytes 2 h.magic ++ leBytes 2 h.ver, leBytes 4 h.nScriptHashes ++
      (leBytes 4 h.nAddUndos ++ (leBytes 4 h.nDelUndos ++ body)), by simp, ?_⟩
    intro n
    simp only [SerHeader.toBytes, List.append_assoc]
  have hself : h.toBytes ++ body = pre ++ (leBytes 4 h.len ++ post) := hbytes h.len
  have hdrop : (pre ++ (leBytes 4 h.len ++ post)).drop 8 = post := by
    rw [← List.append_assoc]
    exact List.drop_left' (by simp [hpre])
  rw [hbytes len, hself, List.take_left' hpre, hdrop, List.append_assoc]

/-- The bytes of a record: the header with the whole length, and the rest. -/
theorem serialize_eq (u : UndoInfo) :
    serialize u = (headerOf u (20 + (bodyToBytes u).length)).toBytes ++ bodyToBytes u := by
  have hmin := computeMinimumSizeV3_le u 0
  have hlen : ¬ ((headerOf u ((headerOf u 0).computeMinimumSizeV3 % 2 ^ 32)).toBytes ++
      bodyToBytes u).length < (headerOf u 0).computeMinimumSizeV3 % 2 ^ 32 := by
    have hmod := Nat.mod_le (headerOf u 0).computeMinimumSizeV3 (2 ^ 32)
    rw [List.length_append, length_toBytes]
    omega
  refine (if_neg hlen).trans ?_
  rw [overwrite_len, List.length_append, length_toBytes]
  rfl

theorem length_serialize (u : UndoInfo) : (serialize u).length = 20 + (bodyToBytes u).length := by
  rw [serialize_eq, List.length_append, length_toBytes]

/-- The number of bytes of a serialized `TXOInfo`. -/
def infoSize (info : TXOInfo) : Nat :=
  infoMinSize + info.tokenDataPtr.elim 0 fun t => t.length + 1

/-- The number of bytes of an entry of `delUndos`: a `TXO`, a `VarInt` and a `TXOInfo`. -/
def delUndoSize (info : TXOInfo) : Nat :=
  35 + (VarInt.encode false (infoSize info % 2 ^ 32)).length + infoSize info

/-- The number of bytes of a record. -/
def recordSize (u : UndoInfo) : Nat :=
  72 + 32 * u.scriptHashes.length + 76 * u.addUndos.length +
    (u.delUndos.map fun d => delUndoSize d.2).sum

theorem length_infoToBytes (info : TXOInfo) : (infoToBytes info).length = infoSize info := by
  rw [infoToBytes, infoSize]
  cases info.tokenDataPtr with
  | none => simp [tokenToBytes, infoMinSize]
  | some t =>
      simp [tokenToBytes, infoMinSize]
      omega

theorem length_delUndoToBytes (d : TXO × TXOInfo) :
    (delUndoToBytes d).length = delUndoSize d.2 := by
  rw [delUndoToBytes, List.length_append, List.length_append, length_txoToBytes,
    length_infoToBytes, delUndoSize]

theorem length_serialize_eq (u : UndoInfo) : (serialize u).length = recordSize u := by
  have hdel : (u.delUndos.map fun d => (delUndoToBytes d).length) =
      u.delUndos.map fun d => delUndoSize d.2 :=
    List.map_congr_left fun d _ => length_delUndoToBytes d
  rw [length_serialize, length_bodyToBytes, List.length_flatMap, hdel, recordSize]
  omega

variable {deserToken : List UInt8 → Option TokenData} {canReserve : Nat → Bool} {u : UndoInfo}

theorem reads_readUndoInfo (hmem : ∀ n ≤ maxElements, canReserve n = true)
    (hu : Valid deserToken u) (hsize : (serialize u).length < 2 ^ 31) :
    Reads (serialize u) (readUndoInfo deserToken canReserve (serialize u)) (serialize u) []
      (3, u) := by
  have hlen := length_serialize u
  have hbody := length_bodyToBytes u
  have hdel := le_length_delUndos u.delUndos
  have hmin := computeMinimumSizeV3_le u (20 + (bodyToBytes u).length)
  have hsh : u.scriptHashes.length % 2 ^ 32 = u.scriptHashes.length :=
    Nat.mod_eq_of_lt (by omega)
  have hadd : u.addUndos.length % 2 ^ 32 = u.addUndos.length := Nat.mod_eq_of_lt (by omega)
  have hdels : u.delUndos.length % 2 ^ 32 = u.delUndos.length := Nat.mod_eq_of_lt (by omega)
  have hsane : (headerOf u (20 + (bodyToBytes u).length)).Sane (serialize u).length := by
    refine ⟨⟨?_, ?_⟩, rfl, Or.inl ⟨rfl, ?_⟩⟩
    · rw [← hlen]
      exact hsize
    · rw [hlen]
      rfl
    · exact hmin
  have hfit : FitsHeader (headerOf u (20 + (bodyToBytes u).length)) := by
    refine ⟨by simp [headerOf], by simp [headerOf], ?_, ?_, ?_, ?_⟩
    · simp only [headerOf]
      omega
    all_goals exact Nat.mod_lt _ (by omega)
  generalize hb : serialize u = b at *
  have hbytes : b = (headerOf u (20 + (bodyToBytes u).length)).toBytes ++ bodyToBytes u := by
    rw [← hb, serialize_eq]
  have hroom : ∀ n, n * 32 < 2 ^ 31 → canReserve n = true := by
    intro n hn
    refine hmem n ?_
    unfold maxElements
    omega
  have hreads : Reads b (readUndoInfo deserToken canReserve b)
      ((headerOf u (20 + (bodyToBytes u).length)).toBytes ++ bodyToBytes u) [] (3, u) := by
    refine Reads.bind (reads_readHeader hfit) ?_
    refine Reads.check (fun _ _ => hsane) ?_
    refine Reads.bind (reads_readUInt hu.height) ?_
    refine Reads.check ?_ ?_
    · intro cur hcur
      simp only [List.length_append, length_hashBytes] at hcur
      omega
    refine Reads.bind (Reads.view (length_hashBytes u.hash) _) ?_
    refine Reads.check ?_ ?_
    · intro cur hcur
      simp only [List.length_append, blkInfoToBytes, length_leBytes] at hcur
      omega
    refine Reads.bind (reads_readBlkInfo hu.txNum0 hu.nTx) ?_
    refine Reads.check (fun cur hcur => by omega) ?_
    have hnsh : (headerOf u (20 + (bodyToBytes u).length)).nScriptHashes =
        u.scriptHashes.length := hsh
    have hnadd : (headerOf u (20 + (bodyToBytes u).length)).nAddUndos = u.addUndos.length := hadd
    have hndel : (headerOf u (20 + (bodyToBytes u).length)).nDelUndos = u.delUndos.length := hdels
    rw [hnsh, hnadd, hndel]
    refine Reads.reserve (hroom _ (by omega)) ?_
    refine Reads.bind (Reads.many fun sh _ rest => reads_readScriptHash sh) ?_
    refine Reads.reserve (hroom _ (by omega)) ?_
    refine Reads.bind (Reads.many fun a ha rest => reads_readAddUndo (hu.addUndos a ha)) ?_
    refine Reads.reserve (hroom _ (by omega)) ?_
    refine Reads.map (Reads.many fun d hd rest => reads_readDelUndo hsize (hu.delUndos d hd)) ?_
    refine Reads.check (fun cur hcur => by simpa using hcur) ?_
    rw [hashOfBytes_hashBytes, insertAll_of_nodup hu.nodup]
    exact Reads.ret _ _
  rw [← hbytes] at hreads
  exact hreads

/-- No buffer of 2 GiB or more is accepted. -/
theorem length_lt_of_deserialize {b : List UInt8} {r : Nat × UndoInfo}
    (h : deserialize deserToken canReserve b = .ok r) : b.length < 2 ^ 31 := by
  by_contra hlong
  rw [deserialize, if_pos (by omega)] at h
  have hdef : readUndoInfo deserToken canReserve b 0 = Cursor.bind (readHeader b) _ 0 := rfl
  rw [hdef, Cursor.bind] at h
  cases hheader : readHeader b 0 with
  | error e =>
      rw [hheader] at h
      cases h
  | ok p =>
      have hinsane : ¬ p.1.Sane b.length := by
        rintro ⟨⟨hlt, heq⟩, -⟩
        omega
      rw [hheader] at h
      simp only [check_bind_of_not (c := fun _ => p.1.Sane b.length) hinsane] at h
      cases h

/-- A record is read back iff its length fits into a signed 32-bit integer. -/
theorem deserialize_serialize_iff (hmem : ∀ n ≤ maxElements, canReserve n = true)
    (hu : Valid deserToken u) :
    deserialize deserToken canReserve (serialize u) = .ok (3, u) ↔
      (serialize u).length < 2 ^ 31 := by
  have hlen := length_serialize u
  have hbody := length_bodyToBytes u
  have hlong : (serialize u).length > 20 := by omega
  constructor
  · exact length_lt_of_deserialize
  · intro hsize
    have hread := reads_readUndoInfo hmem hu hsize 0 (Nat.zero_le _) (by simp)
    rw [deserialize, if_pos hlong, hread]
    rfl

/--
A record of less than two gibibytes, and no other, is read back.  No byte
outside a buffer is looked at, and a buffer is read as a record or rejected
exactly when the memory for the script hashes of its header is there, in case
the header passes the checks.  The lists of a record of two gibibytes fit into
memory.
-/
theorem undoInfo_codec (deserToken : List UInt8 → Option TokenData) (canReserve : Nat → Bool)
    (hmem : ∀ n ≤ maxElements, canReserve n = true) :
    (∀ u, Valid deserToken u →
      (deserialize deserToken canReserve (serialize u) = .ok (3, u) ↔ recordSize u < 2 ^ 31)) ∧
    ∀ b, deserialize deserToken canReserve b ≠ .error .outOfBounds ∧
      (((∃ r, deserialize deserToken canReserve b = .ok r) ∨
          ∃ msg, deserialize deserToken canReserve b = .error (.rejected msg)) ↔
        HasRoom canReserve b) := by
  refine ⟨fun u hu => ?_, fun b => ⟨deserialize_inBounds deserToken hmem,
    deserialize_or_rejected_iff deserToken hmem⟩⟩
  rw [deserialize_serialize_iff hmem hu, length_serialize_eq]

end Roundtrip

section Witnesses

/-- A record with one entry of each kind, and token data. -/
def smallUndo : UndoInfo where
  height := 7
  hash := 5
  blkInfo := ⟨100, 2⟩
  scriptHashes := [8, 9]
  addUndos := [(⟨3, 1⟩, 8, ⟨101, 1⟩)]
  delUndos := [(⟨4, 70000⟩,
    { amount := 1000, hashX := 9, confirmedHeight := some 6, txNum := 90
      tokenDataPtr := some [1, 2, 3] })]

theorem valid_smallUndo : Valid some smallUndo where
  height := by decide
  txNum0 := by decide
  nTx := by decide
  nodup := by decide
  addUndos := by
    intro a ha
    rw [List.mem_singleton.mp ha]
    exact ⟨by decide, by decide, by decide, by decide⟩
  delUndos := by
    intro d hd
    rw [List.mem_singleton.mp hd]
    refine ⟨by decide, by decide, ?_, by decide, fun t _ => rfl⟩
    intro h hh
    cases hh
    decide

/-- A machine with room for the lists of a record of two gibibytes. -/
def smallMachine (n : Nat) : Bool := decide (n ≤ maxElements)

/-- `smallUndo` is read back. -/
theorem undoInfo_codec_smallUndo :
    Valid some smallUndo ∧
      deserialize some smallMachine (serialize smallUndo) = .ok (3, smallUndo) :=
  ⟨valid_smallUndo,
    ((undoInfo_codec some smallMachine fun _ hn => decide_eq_true hn).1 smallUndo
      valid_smallUndo).mpr (by decide)⟩

/-- A record with 2^26 script hashes. -/
def hugeUndo : UndoInfo where
  height := 7
  hash := 5
  blkInfo := ⟨100, 2⟩
  scriptHashes := (List.range (2 ^ 26)).map (BitVec.ofNat 256)
  addUndos := []
  delUndos := []

theorem valid_hugeUndo : Valid some hugeUndo where
  height := by simp [hugeUndo]
  txNum0 := by simp [hugeUndo]
  nTx := by simp [hugeUndo]
  nodup := by
    have hhashes : hugeUndo.scriptHashes = (List.range (2 ^ 26)).map (BitVec.ofNat 256) := by
      rw [hugeUndo]
    rw [hhashes]
    refine List.Nodup.map_on ?_ List.nodup_range
    intro i hi j hj hij
    rw [List.mem_range] at hi hj
    have hnat := congrArg BitVec.toNat hij
    rw [BitVec.toNat_ofNat, BitVec.toNat_ofNat, Nat.mod_eq_of_lt (by omega),
      Nat.mod_eq_of_lt (by omega)] at hnat
    exact hnat
  addUndos := by
    intro a ha
    cases ha
  delUndos := by
    intro d hd
    cases hd

/-- A record of 72 bytes, whose header has a number of script hashes that wraps to zero bytes. -/
def wrappedUndo : List UInt8 :=
  (SerHeader.mk 0xf12c 3 72 4160749568 0 0).toBytes ++ List.replicate 52 0

/-- `hugeUndo` is valid, but it is not read back, and `wrappedUndo` is not rejected. -/
theorem undoInfo_codec_hugeUndo :
    (Valid some hugeUndo ∧ ∀ r, deserialize some smallMachine (serialize hugeUndo) ≠ .ok r) ∧
      wrappedUndo.length = 72 ∧
      deserialize some smallMachine wrappedUndo = .error .badAlloc := by
  refine ⟨⟨valid_hugeUndo, ?_⟩, rfl, ?_⟩
  · intro r hok
    have hlt := length_lt_of_deserialize hok
    have hcount : hugeUndo.scriptHashes.length = 2 ^ 26 := by
      rw [hugeUndo, List.length_map, List.length_range]
    rw [length_serialize, length_bodyToBytes, hcount] at hlt
    omega
  · refine deserialize_of_full some fun hroom => ?_
    exact absurd (hroom (by decide)) (by decide)

end Witnesses

end UndoCodec
end Storage
end Shulcrum
