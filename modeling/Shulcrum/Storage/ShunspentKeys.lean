import Shulcrum.Lib.Fallible
import Shulcrum.Lib.PrefixScan
import Shulcrum.Storage.DBRecordArray
import Shulcrum.Storage.UndoRoundtrip

/-!
# The keys of `scripthash_unspent`

A key is the script hash followed by the transaction number and the output index.
The numbers have a fixed width and stand most significant byte first, so that the
keys of a script hash are neighbours and in the order of the chain.  The keys of
the old format had them least significant byte first, with two bytes for most
output indices; they are converted when an old database is opened.

**Results.**
* `extractShunspentKey_mkShunspentKey`: a key is read back.
* `compare_toKey`: the keys are ordered as what they stand for.
* `scanShunspent_ok`: a scan finds the outputs of a script hash in their order.
* `convertShunspentKey_ok`, `convertShunspentKey_inj`: converting old keys.
* `shunspent_keys`: all of this.
-/

namespace Shulcrum
namespace Storage

open BTC TreeMap UndoCodec PrefixScan Fallible

section Endian

/-- A number in `k` bytes, in one of the two orders. -/
def toEndian (bigEndian : Bool) (k v : Nat) : List UInt8 :=
  if bigEndian then beBytes k v else leBytes k v

/-- The number with the given bytes. -/
def ofEndian (bigEndian : Bool) (b : List UInt8) : Nat :=
  if bigEndian then ofBE b else ofLE b

@[simp] theorem length_toEndian (bigEndian : Bool) (k v : Nat) :
    (toEndian bigEndian k v).length = k := by
  cases bigEndian
  · exact length_leBytes k v
  · exact length_beBytes k v

theorem ofEndian_toEndian (bigEndian : Bool) {k v : Nat} (h : v < 256 ^ k) :
    ofEndian bigEndian (toEndian bigEndian k v) = v := by
  cases bigEndian
  · exact ofLE_leBytes h
  · exact ofBE_beBytes h

theorem toEndian_ofEndian (bigEndian : Bool) (b : List UInt8) :
    toEndian bigEndian b.length (ofEndian bigEndian b) = b := by
  cases bigEndian
  · exact leBytes_ofLE b
  · exact beBytes_ofBE b

theorem ofEndian_lt (bigEndian : Bool) (b : List UInt8) :
    ofEndian bigEndian b < 256 ^ b.length := by
  cases bigEndian
  · exact ofLE_lt b
  · have hlt := ofLE_lt b.reverse
    rwa [List.length_reverse] at hlt

end Endian

namespace CompactTXO

/-- `CompactTXO::serializedSize`. -/
def serializedSize (ctxo : CompactTXO) (wide : Bool) : Nat :=
  if wide ∨ ctxo.n > 65535 then 9 else 8

/-- `CompactTXO::toBytes`. -/
def toBytes (ctxo : CompactTXO) (wide bigEndian : Bool) : List UInt8 :=
  toEndian bigEndian 6 ctxo.txNum ++ toEndian bigEndian (outNSize wide ctxo.n) ctxo.n

/-- `CompactTXO::fromBytes`; a wrong size gives the default value. -/
def fromBytes (b : List UInt8) (bigEndian : Bool) : CompactTXO :=
  if b.length = 8 ∨ b.length = 9 then
    ⟨ofEndian bigEndian (b.take 6), ofEndian bigEndian (b.drop 6)⟩
  else invalidCompactTXO

/-- `CompactTXO::fromBytesInPlaceExactSizeRequired`. -/
def fromBytesInPlaceExactSizeRequired (b : List UInt8) (bigEndian : Bool) :
    Except Exception CompactTXO :=
  if b.length ≠ 8 ∧ b.length ≠ 9 then
    .error (.internalError ("CompactTXO::fromBytesInPlaceExactSizeRequired was given an invalid " ++
      "size: " ++ toString b.length))
  else .ok (fromBytes b bigEndian)

/-- The values that the two fields can hold. -/
structure InRange (ctxo : CompactTXO) : Prop where
  txNum : ctxo.txNum < 2 ^ 48
  n : ctxo.n < 2 ^ 24

end CompactTXO

section Model

/-- `mkShunspentKey`. -/
def mkShunspentKey (hashX : List UInt8) (ctxo : CompactTXO) : Except Exception (List UInt8) :=
  if hashX.length ≠ 32 then
    .error (.internalError ("mkShunspentKey -- scripthash is not exactly 32 bytes: " ++
      DBRecordArray.toHex hashX))
  else
    let bytes := ctxo.toBytes true true
    if bytes.length ≠ ctxo.serializedSize true then
      .error (.internalError ("mkShunspentKey -- nTxoSerBytes != ctxoSerLen! FIXME! (" ++
        toString bytes.length ++ " != " ++ toString (ctxo.serializedSize true) ++ ")"))
    else .ok (hashX ++ bytes)

/-- `ExtractHashXHex` of `extractCompactTXOFromShunspentKey`. -/
def extractHashXHex (key : List UInt8) : String :=
  if 32 ≤ key.length then DBRecordArray.toHex (key.take 32) else "<undecipherable scripthash>"

/-- `extractCompactTXOFromShunspentKey`. -/
def extractCompactTXOFromShunspentKey (key : List UInt8) (legacy : Bool) :
    Except Exception CompactTXO :=
  if (legacy = false ∨ key.length ≠ 32 + 8) ∧ key.length ≠ 32 + 9 then
    .error (.internalError ("Key size for scripthash " ++ extractHashXHex key ++ " is invalid"))
  else do
    let ctxo ← CompactTXO.fromBytesInPlaceExactSizeRequired (key.drop 32) (!legacy)
    if ctxo = invalidCompactTXO then
      .error (.internalError ("Deserialized CompactTXO is invalid for scripthash " ++
        extractHashXHex key))
    else .ok ctxo

/-- `extractShunspentKey`. -/
def extractShunspentKey (key : List UInt8) (legacy : Bool) :
    Except Exception (List UInt8 × CompactTXO) := do
  let ctxo ← extractCompactTXOFromShunspentKey key legacy
  .ok (key.take 32, ctxo)

/-- A key of the old format is converted to the new one. -/
def convertShunspentKey (key : List UInt8) : Except Exception (List UInt8) := do
  let (hashX, ctxo) ← extractShunspentKey key true
  mkShunspentKey hashX ctxo

/-- The loop over the table that `getBalance` and `listUnspent` run for a script hash. -/
def scanShunspent (db : Std.ExtTreeMap (List UInt8) SHUnspentValue compare) (hashX : HashX) :
    Except Exception (List (CompactTXO × SHUnspentValue)) :=
  (scanPrefix db (hashBytes hashX)).mapM fun e => do
    let ctxo ← extractCompactTXOFromShunspentKey e.1 false
    .ok (ctxo, e.2)

end Model

section Bytes

variable {ctxo : CompactTXO}

theorem length_toBytes_eq (ctxo : CompactTXO) (wide bigEndian : Bool) :
    (ctxo.toBytes wide bigEndian).length = ctxo.serializedSize wide := by
  unfold CompactTXO.toBytes CompactTXO.serializedSize outNSize
  rw [List.length_append, length_toEndian, length_toEndian]
  split_ifs
  · rfl
  · rfl

/-- The output index fits its bytes. -/
theorem CompactTXO.InRange.lt_outNSize (h : ctxo.InRange) (wide : Bool) :
    ctxo.n < 256 ^ outNSize wide ctxo.n := by
  have hn := h.n
  unfold outNSize
  split_ifs with hwide
  · omega
  · push Not at hwide
    omega

theorem fromBytes_toBytes_of (h : ctxo.InRange) (wide bigEndian : Bool) :
    CompactTXO.fromBytes (ctxo.toBytes wide bigEndian) bigEndian = ctxo := by
  have hlen : (ctxo.toBytes wide bigEndian).length = 8 ∨
      (ctxo.toBytes wide bigEndian).length = 9 := by
    rw [length_toBytes_eq]
    unfold CompactTXO.serializedSize
    split_ifs
    · exact .inr rfl
    · exact .inl rfl
  have htake : (ctxo.toBytes wide bigEndian).take 6 = toEndian bigEndian 6 ctxo.txNum :=
    List.take_left' (length_toEndian _ _ _)
  have hdrop : (ctxo.toBytes wide bigEndian).drop 6 =
      toEndian bigEndian (outNSize wide ctxo.n) ctxo.n :=
    List.drop_left' (length_toEndian _ _ _)
  have htxNum := h.txNum
  rw [CompactTXO.fromBytes, if_pos hlen, htake, hdrop, ofEndian_toEndian bigEndian (by omega),
    ofEndian_toEndian bigEndian (h.lt_outNSize wide)]

theorem inRange_fromBytes (b : List UInt8) (bigEndian : Bool) :
    (CompactTXO.fromBytes b bigEndian).InRange := by
  unfold CompactTXO.fromBytes
  split_ifs with hlen
  · have htxNum := ofEndian_lt bigEndian (b.take 6)
    have hn := ofEndian_lt bigEndian (b.drop 6)
    have htake : (b.take 6).length = 6 := by
      rw [List.length_take]
      omega
    rw [htake] at htxNum
    refine ⟨by omega, hn.trans_le ?_⟩
    have hdrop : (b.drop 6).length ≤ 3 := by
      rw [List.length_drop]
      omega
    exact (Nat.pow_le_pow_right (by omega) hdrop).trans (by omega)
  · exact ⟨by decide, by decide⟩

/-- Strings of one length that are read as the same value are the same. -/
theorem fromBytes_inj {b b' : List UInt8} {bigEndian : Bool} (hlen : b.length = 8 ∨ b.length = 9)
    (hsame : b'.length = b.length)
    (h : CompactTXO.fromBytes b bigEndian = CompactTXO.fromBytes b' bigEndian) : b = b' := by
  rw [CompactTXO.fromBytes, CompactTXO.fromBytes, hsame, if_pos hlen, if_pos hlen,
    CompactTXO.mk.injEq] at h
  obtain ⟨htake, hdrop⟩ := h
  have htakes := toEndian_ofEndian bigEndian (b'.take 6)
  have hdrops := toEndian_ofEndian bigEndian (b'.drop 6)
  rw [← htake, List.length_take, hsame, ← List.length_take, toEndian_ofEndian] at htakes
  rw [← hdrop, List.length_drop, hsame, ← List.length_drop, toEndian_ofEndian] at hdrops
  rw [← List.take_append_drop 6 b, htakes, hdrops, List.take_append_drop]

end Bytes

section Keys

variable {hashX : HashX} {ctxo : CompactTXO}

/-- The bytes of a key. -/
def ShunspentKey.toKey (k : ShunspentKey) : List UInt8 :=
  hashBytes k.hashX ++ k.ctxo.toBytes true true

theorem mkShunspentKey_eq (hashX : HashX) (ctxo : CompactTXO) :
    mkShunspentKey (hashBytes hashX) ctxo = .ok (ShunspentKey.toKey ⟨hashX, ctxo⟩) := by
  rw [mkShunspentKey, if_neg (by simp)]
  exact if_neg (not_not.mpr (length_toBytes_eq ctxo true true))

/-- A hash followed by the bytes of an output is read as these. -/
theorem extractShunspentKey_append {wide legacy : Bool} (hwide : wide = true ∨ legacy = true)
    (hrange : ctxo.InRange) (hne : ctxo ≠ invalidCompactTXO) :
    extractShunspentKey (hashBytes hashX ++ ctxo.toBytes wide !legacy) legacy =
      .ok (hashBytes hashX, ctxo) := by
  have hdrop : (hashBytes hashX ++ ctxo.toBytes wide !legacy).drop 32 = ctxo.toBytes wide !legacy :=
    List.drop_left' (length_hashBytes _)
  have htake : (hashBytes hashX ++ ctxo.toBytes wide !legacy).take 32 = hashBytes hashX :=
    List.take_left' (length_hashBytes _)
  have hlen := length_toBytes_eq ctxo wide !legacy
  have hsize : ctxo.serializedSize wide = 9 ∨ legacy = true ∧ ctxo.serializedSize wide = 8 := by
    unfold CompactTXO.serializedSize
    split_ifs with h
    · exact .inl rfl
    · push Not at h
      exact .inr ⟨hwide.resolve_left h.1, rfl⟩
  have hread : CompactTXO.fromBytesInPlaceExactSizeRequired (ctxo.toBytes wide !legacy) (!legacy) =
      .ok ctxo := by
    rw [CompactTXO.fromBytesInPlaceExactSizeRequired, if_neg (by omega),
      fromBytes_toBytes_of hrange]
  have hcheck : ¬ ((legacy = false ∨
      (hashBytes hashX ++ ctxo.toBytes wide !legacy).length ≠ 32 + 8) ∧
      (hashBytes hashX ++ ctxo.toBytes wide !legacy).length ≠ 32 + 9) := by
    rw [List.length_append, length_hashBytes, hlen]
    rcases hsize with hsize | ⟨hlegacy, hsize⟩
    · omega
    · rw [hlegacy]
      simp [hsize]
  have hctxo : extractCompactTXOFromShunspentKey (hashBytes hashX ++ ctxo.toBytes wide !legacy)
      legacy = .ok ctxo := by
    rw [extractCompactTXOFromShunspentKey, if_neg hcheck, hdrop, hread]
    exact if_neg hne
  rw [extractShunspentKey, hctxo]
  exact congrArg (fun b => Except.ok (b, ctxo)) htake

/-- A key is read back. -/
theorem extractShunspentKey_mkShunspentKey {key : List UInt8} (hrange : ctxo.InRange)
    (hne : ctxo ≠ invalidCompactTXO) (h : mkShunspentKey (hashBytes hashX) ctxo = .ok key) :
    extractShunspentKey key false = .ok (hashBytes hashX, ctxo) := by
  rw [mkShunspentKey_eq, Except.ok.injEq] at h
  subst h
  exact extractShunspentKey_append (.inl rfl) hrange hne

theorem extractCompactTXO_toKey {k : ShunspentKey} (hrange : k.ctxo.InRange)
    (hne : k.ctxo ≠ invalidCompactTXO) :
    extractCompactTXOFromShunspentKey k.toKey false = .ok k.ctxo := by
  have hkey := extractShunspentKey_mkShunspentKey hrange hne (mkShunspentKey_eq k.hashX k.ctxo)
  rw [extractShunspentKey] at hkey
  cases hctxo : extractCompactTXOFromShunspentKey k.toKey false with
  | error e =>
      rw [hctxo] at hkey
      cases hkey
  | ok ctxo =>
      rw [hctxo] at hkey
      have hpair := Except.ok.inj hkey
      rw [(Prod.mk.inj hpair).2]

end Keys

section Order

/-- Strings that start with strings of one length are compared part by part. -/
theorem compare_append {a b x y : List UInt8} (h : a.length = b.length) :
    compare (a ++ x) (b ++ y) = (compare a b).then (compare x y) := by
  induction a generalizing b with
  | nil =>
      cases b with
      | nil => rfl
      | cons _ _ => cases h
  | cons u a ih =>
      cases b with
      | nil => cases h
      | cons v b =>
          rw [List.cons_append, List.cons_append, VarInt.compare_cons, VarInt.compare_cons,
            ih (Nat.succ.inj h), Ordering.then_assoc]

/-- Numbers of one width are compared by their bytes. -/
theorem compare_beBytes_eq {k u v : Nat} (hu : u < 256 ^ k) (hv : v < 256 ^ k) :
    compare (beBytes k u) (beBytes k v) = compare u v := by
  rcases Nat.lt_trichotomy u v with h | h | h
  · rw [VarInt.compare_beBytes h hv, Nat.compare_eq_lt.mpr h]
  · rw [h, Std.ReflOrd.compare_self, Std.ReflOrd.compare_self]
  · rw [Std.OrientedCmp.gt_of_lt (VarInt.compare_beBytes h hu), Nat.compare_eq_gt.mpr h]

/-- The keys are ordered by script hash, transaction number and output index. -/
theorem compare_toKey {k k' : ShunspentKey} (h : k.ctxo.InRange) (h' : k'.ctxo.InRange) :
    compare k.toKey k'.toKey = compare k k' := by
  have hhash : compare (hashBytes k.hashX) (hashBytes k'.hashX) =
      compare k.hashX.toNat k'.hashX.toNat := compare_beBytes_eq k.hashX.isLt k'.hashX.isLt
  have htxNum : compare (beBytes 6 k.ctxo.txNum) (beBytes 6 k'.ctxo.txNum) =
      compare k.ctxo.txNum k'.ctxo.txNum :=
    compare_beBytes_eq (by have := h.txNum; omega) (by have := h'.txNum; omega)
  have hn : compare (beBytes 3 k.ctxo.n) (beBytes 3 k'.ctxo.n) = compare k.ctxo.n k'.ctxo.n :=
    compare_beBytes_eq (by have := h.n; omega) (by have := h'.n; omega)
  have hbits : compare k.hashX k'.hashX = compare k.hashX.toNat k'.hashX.toNat := by
    simp [compare, compareOfLessAndEq, BitVec.lt_def, BitVec.toNat_inj]
  have hbytes : ∀ c : CompactTXO, c.toBytes true true = beBytes 6 c.txNum ++ beBytes 3 c.n :=
    fun _ => rfl
  rw [ShunspentKey.toKey, ShunspentKey.toKey, compare_append (by simp), hbytes, hbytes,
    compare_append (by simp), hhash, htxNum, hn, ← hbits]
  rfl

end Order

section Scan

variable {db : Std.ExtTreeMap (List UInt8) SHUnspentValue compare}

/-- Every key of the table was made by `mkShunspentKey`. -/
def IsShunspentTable (db : Std.ExtTreeMap (List UInt8) SHUnspentValue compare) : Prop :=
  ∀ key ∈ db, ∃ (hashX : HashX) (ctxo : CompactTXO), ctxo.InRange ∧ ctxo ≠ invalidCompactTXO ∧
    mkShunspentKey (hashBytes hashX) ctxo = .ok key

/-- The order of the chain: by transaction number, then by output index. -/
def CompactTXO.Before (a b : CompactTXO) : Prop :=
  a.txNum < b.txNum ∨ a.txNum = b.txNum ∧ a.n < b.n

theorem before_of_compare {hashX : HashX} {a b : CompactTXO}
    (h : compare (ShunspentKey.mk hashX a) ⟨hashX, b⟩ = .lt) : a.Before b := by
  have hlex : (compare hashX hashX).then ((compare a.txNum b.txNum).then (compare a.n b.n)) =
      .lt := h
  rw [Std.ReflOrd.compare_self, Ordering.eq_then, Ordering.then_eq_lt, Nat.compare_eq_lt,
    Nat.compare_eq_eq, Nat.compare_eq_lt] at hlex
  exact hlex

/-- A key starts with the bytes of its script hash and of no other. -/
theorem prefix_toKey_iff {hashX : HashX} {k : ShunspentKey} :
    hashBytes hashX <+: k.toKey ↔ k.hashX = hashX := by
  constructor
  · rintro ⟨rest, hrest⟩
    rw [ShunspentKey.toKey] at hrest
    have hlen : (hashBytes hashX).length = (hashBytes k.hashX).length := by simp
    have hhash := congrArg hashOfBytes (List.append_inj_left hrest hlen)
    rw [hashOfBytes_hashBytes, hashOfBytes_hashBytes] at hhash
    exact hhash.symm
  · rintro rfl
    exact List.prefix_append _ _

/-- What the rows of the scan stand for. -/
theorem scanned_row (h : IsShunspentTable db) {hashX : HashX} {e : List UInt8 × SHUnspentValue}
    (he : e ∈ scanPrefix db (hashBytes hashX)) :
    ∃ ctxo : CompactTXO, ctxo.InRange ∧ ctxo ≠ invalidCompactTXO ∧
      e.1 = ShunspentKey.toKey ⟨hashX, ctxo⟩ := by
  obtain ⟨hget, hprefix⟩ := mem_scanPrefix.mp he
  obtain ⟨hashX', ctxo, hrange, hne, hkey⟩ := h e.1 (mem_iff_getElem?.mpr ⟨e.2, hget⟩)
  rw [mkShunspentKey_eq, Except.ok.injEq] at hkey
  rw [← hkey, prefix_toKey_iff] at hprefix
  subst hprefix
  exact ⟨ctxo, hrange, hne, hkey.symm⟩

/-- The output of a row. -/
def ctxoOfRow (key : List UInt8) : CompactTXO := CompactTXO.fromBytes (key.drop 32) true

theorem ctxoOfRow_toKey {k : ShunspentKey} (h : k.ctxo.InRange) : ctxoOfRow k.toKey = k.ctxo := by
  have hdrop : k.toKey.drop 32 = k.ctxo.toBytes true true := List.drop_left' (length_hashBytes _)
  rw [ctxoOfRow, hdrop, fromBytes_toBytes_of h]

theorem scanShunspent_eq (h : IsShunspentTable db) (hashX : HashX) :
    scanShunspent db hashX =
      .ok ((scanPrefix db (hashBytes hashX)).map fun e => (ctxoOfRow e.1, e.2)) := by
  refine mapM_ok fun e he => ?_
  obtain ⟨ctxo, hrange, hne, hkey⟩ := scanned_row h he
  rw [hkey, ctxoOfRow_toKey hrange, extractCompactTXO_toKey hrange hne]
  rfl

/-- The scan finds the outputs of the script hash, in the order of the chain. -/
theorem scanShunspent_ok (h : IsShunspentTable db) (hashX : HashX) :
    ∃ l, scanShunspent db hashX = .ok l ∧ (l.Pairwise fun a b => a.1.Before b.1) ∧
      ∀ ctxo v, (ctxo, v) ∈ l ↔ ctxo.InRange ∧
        ∃ key, mkShunspentKey (hashBytes hashX) ctxo = .ok key ∧ db[key]? = some v := by
  refine ⟨_, scanShunspent_eq h hashX, ?_, fun ctxo v => ?_⟩
  · rw [List.pairwise_map]
    refine (pairwise_scanPrefix.imp_of_mem fun {a b} ha hb hlt => ?_)
    obtain ⟨ctxo, hrange, -, hkey⟩ := scanned_row h ha
    obtain ⟨ctxo', hrange', -, hkey'⟩ := scanned_row h hb
    rw [hkey, hkey', compare_toKey hrange hrange'] at hlt
    rw [hkey, hkey', ctxoOfRow_toKey hrange, ctxoOfRow_toKey hrange']
    exact before_of_compare hlt
  · rw [List.mem_map]
    constructor
    · rintro ⟨e, he, heq⟩
      obtain ⟨ctxo', hrange, -, hkey⟩ := scanned_row h he
      rw [hkey, ctxoOfRow_toKey hrange, Prod.mk.injEq] at heq
      obtain ⟨rfl, rfl⟩ := heq
      refine ⟨hrange, e.1, ?_, (mem_scanPrefix.mp he).1⟩
      rw [hkey]
      exact mkShunspentKey_eq hashX ctxo'
    · rintro ⟨hrange, key, hkey, hget⟩
      rw [mkShunspentKey_eq, Except.ok.injEq] at hkey
      subst hkey
      refine ⟨(_, v), mem_scanPrefix.mpr ⟨hget, prefix_toKey_iff.mpr rfl⟩, ?_⟩
      rw [ctxoOfRow_toKey hrange]

end Scan

section Table

variable {m : Std.ExtTreeMap ShunspentKey SHUnspentValue compare}
variable {db : Std.ExtTreeMap (List UInt8) SHUnspentValue compare} {k : ShunspentKey}

theorem toKey_injective {k' : ShunspentKey} (h : k.ctxo.InRange) (h' : k'.ctxo.InRange)
    (heq : k.toKey = k'.toKey) : k = k' := by
  have hcompare := compare_toKey h h'
  rw [heq, Std.ReflOrd.compare_self] at hcompare
  exact Std.LawfulEqCmp.eq_of_compare hcompare.symm

/-- The table of keys stands for a table of script hashes and outputs. -/
structure Encodes (m : Std.ExtTreeMap ShunspentKey SHUnspentValue compare)
    (db : Std.ExtTreeMap (List UInt8) SHUnspentValue compare) : Prop where
  get : ∀ k : ShunspentKey, k.ctxo.InRange → db[k.toKey]? = m[k]?
  keys : IsShunspentTable db

end Table

section Legacy

variable {key : List UInt8} {hashX : List UInt8} {ctxo : CompactTXO}

/-- A key of the old format: two bytes for an output index that fits them. -/
def legacyKey (k : ShunspentKey) : List UInt8 := hashBytes k.hashX ++ k.ctxo.toBytes false false

/-- What a key that is read stands for. -/
theorem extractShunspentKey_ok {legacy : Bool}
    (h : extractShunspentKey key legacy = .ok (hashX, ctxo)) :
    (key.length = 41 ∨ legacy = true ∧ key.length = 40) ∧ hashX = key.take 32 ∧
      ctxo = CompactTXO.fromBytes (key.drop 32) (!legacy) ∧ ctxo ≠ invalidCompactTXO := by
  rw [extractShunspentKey, bind_eq_ok] at h
  obtain ⟨ctxo', hctxo, hpair⟩ := h
  rw [Except.ok.injEq, Prod.mk.injEq] at hpair
  obtain ⟨rfl, rfl⟩ := hpair
  unfold extractCompactTXOFromShunspentKey at hctxo
  split_ifs at hctxo with hlen
  rw [bind_eq_ok] at hctxo
  obtain ⟨c, hread, hvalid⟩ := hctxo
  split_ifs at hvalid with hc
  rw [Except.ok.injEq] at hvalid
  subst hvalid
  refine ⟨?_, rfl, ?_, hc⟩
  · cases legacy with
    | true =>
        by_cases h41 : key.length = 41
        · exact .inl h41
        · refine .inr ⟨rfl, ?_⟩
          by_contra h40
          exact hlen ⟨.inr (by omega), by omega⟩
    | false =>
        by_contra hno
        exact hlen ⟨.inl rfl, fun h41 => hno (.inl h41)⟩
  · unfold CompactTXO.fromBytesInPlaceExactSizeRequired at hread
    split_ifs at hread with hsize
    exact (Except.ok.inj hread).symm

/-- An old key that is read is converted to a key of the same output. -/
theorem convertShunspentKey_ok (h : extractShunspentKey key true = .ok (hashX, ctxo)) :
    ∃ key', convertShunspentKey key = .ok key' ∧
      extractShunspentKey key' false = .ok (hashX, ctxo) := by
  obtain ⟨hlen, htake, hread, hne⟩ := extractShunspentKey_ok h
  have hhash : hashBytes (hashOfBytes hashX) = hashX := by
    refine hashBytes_hashOfBytes ?_
    rw [htake, List.length_take]
    omega
  have hrange : ctxo.InRange := by
    rw [hread]
    exact inRange_fromBytes _ _
  have hmk := mkShunspentKey_eq (hashOfBytes hashX) ctxo
  have hback := extractShunspentKey_mkShunspentKey hrange hne hmk
  rw [hhash] at hmk hback
  refine ⟨_, ?_, hback⟩
  rw [convertShunspentKey, h]
  exact hmk

/-- An old key that is written is read back. -/
theorem extractShunspentKey_legacyKey {k : ShunspentKey} (hrange : k.ctxo.InRange)
    (hne : k.ctxo ≠ invalidCompactTXO) :
    extractShunspentKey (legacyKey k) true = .ok (hashBytes k.hashX, k.ctxo) :=
  extractShunspentKey_append (.inr rfl) hrange hne

/-- Old keys of one length that are converted to the same key are the same. -/
theorem convertShunspentKey_inj {key₁ key₂ key' : List UInt8}
    (h₁ : convertShunspentKey key₁ = .ok key') (h₂ : convertShunspentKey key₂ = .ok key')
    (hlen : key₁.length = key₂.length) : key₁ = key₂ := by
  have hread : ∀ {key : List UInt8}, convertShunspentKey key = .ok key' →
      extractShunspentKey key true = extractShunspentKey key' false := by
    intro key h
    have hconv := h
    rw [convertShunspentKey, bind_eq_ok] at h
    obtain ⟨⟨hashX, ctxo⟩, hkey, -⟩ := h
    obtain ⟨key'', hkey'', hback⟩ := convertShunspentKey_ok hkey
    rw [hconv, Except.ok.injEq] at hkey''
    rw [hkey, hkey'', hback]
  have hsame := (hread h₁).trans (hread h₂).symm
  rw [convertShunspentKey, bind_eq_ok] at h₁
  obtain ⟨⟨hashX, ctxo⟩, hkey₁, -⟩ := h₁
  have hkey₂ := hsame.symm.trans hkey₁
  obtain ⟨hsize, htake₁, hread₁, -⟩ := extractShunspentKey_ok hkey₁
  obtain ⟨-, htake₂, hread₂, -⟩ := extractShunspentKey_ok hkey₂
  have hdrop : key₁.drop 32 = key₂.drop 32 := by
    refine @fromBytes_inj _ _ false ?_ ?_ (hread₁.symm.trans hread₂)
    · rw [List.length_drop]
      omega
    · rw [List.length_drop, List.length_drop, hlen]
  rw [← List.take_append_drop 32 key₁, ← htake₁, htake₂, hdrop, List.take_append_drop]

/-- Different old keys are converted to different keys. -/
theorem convertShunspentKey_legacyKey_ne {k k' : ShunspentKey} (hrange : k.ctxo.InRange)
    (hne : k.ctxo ≠ invalidCompactTXO) (hrange' : k'.ctxo.InRange)
    (hne' : k'.ctxo ≠ invalidCompactTXO) (h : legacyKey k ≠ legacyKey k') :
    convertShunspentKey (legacyKey k) ≠ convertShunspentKey (legacyKey k') := by
  have hconv : ∀ {k : ShunspentKey}, k.ctxo.InRange → k.ctxo ≠ invalidCompactTXO →
      convertShunspentKey (legacyKey k) = .ok k.toKey := by
    intro k hrange hne
    rw [convertShunspentKey, extractShunspentKey_legacyKey hrange hne]
    exact mkShunspentKey_eq k.hashX k.ctxo
  rw [hconv hrange hne, hconv hrange' hne']
  intro heq
  rw [toKey_injective hrange hrange' (Except.ok.inj heq)] at h
  exact h rfl

end Legacy

section Claim

/-- A key is read back; the keys are in the order of what they stand for; a scan
finds the outputs of its script hash in the order of the chain; and an old key is
converted to the key of the same output, different ones to different keys. -/
theorem shunspent_keys :
    (∀ (hashX : HashX) (ctxo : CompactTXO), ctxo.InRange → ctxo ≠ invalidCompactTXO →
      ∃ key, mkShunspentKey (hashBytes hashX) ctxo = .ok key ∧
        extractShunspentKey key false = .ok (hashBytes hashX, ctxo)) ∧
    (∀ k k' : ShunspentKey, k.ctxo.InRange → k'.ctxo.InRange →
      ∃ key key', mkShunspentKey (hashBytes k.hashX) k.ctxo = .ok key ∧
        mkShunspentKey (hashBytes k'.hashX) k'.ctxo = .ok key' ∧
        compare key key' = compare k k') ∧
    (∀ db, IsShunspentTable db → ∀ hashX : HashX,
      ∃ l, scanShunspent db hashX = .ok l ∧ (l.Pairwise fun a b => a.1.Before b.1) ∧
        ∀ ctxo v, (ctxo, v) ∈ l ↔ ctxo.InRange ∧
          ∃ key, mkShunspentKey (hashBytes hashX) ctxo = .ok key ∧ db[key]? = some v) ∧
    (∀ key hashX ctxo, extractShunspentKey key true = .ok (hashX, ctxo) →
      ∃ key', convertShunspentKey key = .ok key' ∧
        extractShunspentKey key' false = .ok (hashX, ctxo)) ∧
    (∀ key₁ key₂ key' : List UInt8, key₁.length = key₂.length →
      convertShunspentKey key₁ = .ok key' → convertShunspentKey key₂ = .ok key' → key₁ = key₂) ∧
    ∀ k k' : ShunspentKey, k.ctxo.InRange → k.ctxo ≠ invalidCompactTXO → k'.ctxo.InRange →
      k'.ctxo ≠ invalidCompactTXO →
      extractShunspentKey (legacyKey k) true = .ok (hashBytes k.hashX, k.ctxo) ∧
        (legacyKey k ≠ legacyKey k' →
          convertShunspentKey (legacyKey k) ≠ convertShunspentKey (legacyKey k')) := by
  refine ⟨fun hashX ctxo hrange hne => ?_, fun k k' hrange hrange' => ?_,
    fun db h hashX => scanShunspent_ok h hashX, fun key hashX ctxo h => convertShunspentKey_ok h,
    fun key₁ key₂ key' hlen h₁ h₂ => convertShunspentKey_inj h₁ h₂ hlen,
    fun k k' hrange hne hrange' hne' => ?_⟩
  · have hmk := mkShunspentKey_eq hashX ctxo
    exact ⟨_, hmk, extractShunspentKey_mkShunspentKey hrange hne hmk⟩
  · exact ⟨_, _, mkShunspentKey_eq _ _, mkShunspentKey_eq _ _, compare_toKey hrange hrange'⟩
  · exact ⟨extractShunspentKey_legacyKey hrange hne,
      convertShunspentKey_legacyKey_ne hrange hne hrange' hne'⟩

/-- An output index with two bytes and one with three. -/
theorem shunspent_keys_short_and_long :
    (∃ key, mkShunspentKey (hashBytes 7) ⟨5, 65535⟩ = .ok key ∧
      extractShunspentKey key false = .ok (hashBytes 7, ⟨5, 65535⟩)) ∧
    convertShunspentKey (legacyKey ⟨7, ⟨5, 65535⟩⟩) ≠
      convertShunspentKey (legacyKey ⟨7, ⟨5, 65536⟩⟩) :=
  ⟨shunspent_keys.1 7 ⟨5, 65535⟩ ⟨by decide, by decide⟩ (by decide),
    (shunspent_keys.2.2.2.2.2 ⟨7, ⟨5, 65535⟩⟩ ⟨7, ⟨5, 65536⟩⟩ ⟨by decide, by decide⟩ (by decide)
      ⟨by decide, by decide⟩ (by decide)).2 (by decide)⟩

/-- The default output has a key that is not read back, and an output index that is given in
two bytes and in three has two old keys that are converted to one. -/
theorem invalidCompactTXO_not_read_back :
    (∃ key, invalidCompactTXO.InRange ∧
      mkShunspentKey (hashBytes 0) invalidCompactTXO = .ok key ∧
      extractShunspentKey key false = .error (.internalError
        ("Deserialized CompactTXO is invalid for scripthash " ++ extractHashXHex key))) ∧
    ∃ key₁ key₂ key : List UInt8, key₁ ≠ key₂ ∧ convertShunspentKey key₁ = .ok key ∧
      convertShunspentKey key₂ = .ok key :=
  ⟨⟨_, ⟨by decide, by decide⟩, mkShunspentKey_eq _ _, rfl⟩,
    legacyKey ⟨7, ⟨5, 1⟩⟩, hashBytes 7 ++ CompactTXO.toBytes ⟨5, 1⟩ true false, _, by decide,
    rfl, rfl⟩

end Claim

end Storage
end Shulcrum
