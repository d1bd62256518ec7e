import Shulcrum.Lib.Chunks
import Shulcrum.Lib.LowerBound
import Shulcrum.VarInt

/-!
# Packed numbers

A `PackedNumView` reads a string of bytes as numbers of a fixed width that is
not the width of a machine word.  An element is copied into a word that is
zero before, at its low end, and the word is turned into the byte order of the
machine.  `Make` goes the other way and leaves out the high bytes.

**Results.**
* `make_eq`, `get_pack`: what `Make` writes, and what an element is read as.
* `elements_eq`: a walk from the beginning to the end sees the elements in order.
* `lowerBound_eq`, `find_eq`: a search sees the same elements.
* `make_exact`: the view that was made from a list of numbers.
-/

namespace Shulcrum

open BTC

/-- The order of bytes, of the machine or of a packed buffer (`LittleEndian`). -/
inductive ByteOrder where
  | little
  | big
  deriving DecidableEq

namespace ByteOrder

/-- A word of `k` bytes in memory. -/
def store (host : ByteOrder) (k v : Nat) : List UInt8 :=
  match host with
  | little => leBytes k v
  | big => beBytes k v

/-- The word that memory holds. -/
def load (host : ByteOrder) (mem : List UInt8) : Nat :=
  match host with
  | little => ofLE mem
  | big => ofBE mem

/-- `bswap_32` and `bswap_64`. -/
def bswap (k v : Nat) : Nat := ofBE (leBytes k v)

/-- `htole32` and the others, which go both ways: the bytes are swapped where the orders differ. -/
def convert (order host : ByteOrder) (k v : Nat) : Nat :=
  if order = host then v else bswap k v

section Words

theorem leBytes_ofLE_of_length {k : Nat} {b : List UInt8} (h : b.length = k) :
    leBytes k (ofLE b) = b := by
  rw [← h, leBytes_ofLE]

theorem beBytes_ofBE_of_length {k : Nat} {b : List UInt8} (h : b.length = k) :
    beBytes k (ofBE b) = b := by
  rw [← h, beBytes_ofBE]

/-- A converted word has its bytes in the other order. -/
theorem store_convert (order host : ByteOrder) (k v : Nat) :
    host.store k (order.convert host k v) = order.store k v := by
  cases order <;> cases host
  case little.little => rfl
  case big.big => rfl
  case little.big => exact beBytes_ofBE_of_length (length_leBytes k v)
  case big.little => exact leBytes_ofLE_of_length (length_beBytes k v)

/-- Bytes in another order are read by a conversion. -/
theorem convert_load (order host : ByteOrder) {k : Nat} {mem : List UInt8}
    (h : mem.length = k) : order.convert host k (host.load mem) = order.load mem := by
  cases order <;> cases host
  case little.little => rfl
  case big.big => rfl
  case little.big =>
    have hrev : leBytes k (ofLE mem.reverse) = mem.reverse :=
      leBytes_ofLE_of_length (by rw [List.length_reverse, h])
    calc bswap k (ofBE mem) = ofBE (leBytes k (ofLE mem.reverse)) := rfl
      _ = ofLE mem := by rw [hrev, ofBE, List.reverse_reverse]
  case big.little => exact congrArg ofBE (leBytes_ofLE_of_length h)

theorem ofLE_append_zeros (b : List UInt8) (n : Nat) :
    ofLE (b ++ List.replicate n 0) = ofLE b := by
  have hzeros : ofLE (List.replicate n 0) = 0 := by
    induction n with
    | zero => rfl
    | succ n ih =>
        have hrec : ofLE (List.replicate (n + 1) 0) = 0 + 256 * ofLE (List.replicate n 0) := rfl
        rw [hrec, ih]
  induction b with
  | nil => exact hzeros
  | cons x b ih =>
      have hrec : ∀ y : List UInt8, ofLE (x :: y) = x.toNat + 256 * ofLE y := fun _ => rfl
      rw [List.cons_append, hrec, hrec, ih]

/-- The low bytes are the number truncated. -/
theorem ofLE_leBytes_mod (k v : Nat) : ofLE (leBytes k v) = v % 256 ^ k := by
  have hmod : leBytes k v = leBytes k (v % 256 ^ k) :=
    List.reverse_injective (VarInt.beBytes_mod k v)
  rw [hmod, ofLE_leBytes (Nat.mod_lt v (Nat.pow_pos (by omega)))]

theorem take_leBytes {j k : Nat} (h : j ≤ k) (v : Nat) : (leBytes k v).take j = leBytes j v := by
  rw [leBytes, ← List.map_take, List.take_range, Nat.min_eq_left h]
  rfl

/-- The last bytes in the other order are the low ones. -/
theorem drop_beBytes {j k : Nat} (h : j ≤ k) (v : Nat) :
    (beBytes k v).drop (k - j) = beBytes j v := by
  have hrest : k - (k - j) = j := by omega
  rw [beBytes, List.drop_reverse, length_leBytes, hrest, take_leBytes h]
  rfl

end Words

end ByteOrder

/-- A width that the template admits. -/
structure Width where
  bits : Nat
  ge : 24 ≤ bits
  lt : bits < 64
  mod_eq : bits % 8 = 0

namespace Width

/-- `PackedNumView::bytesPerElement`. -/
def bytesPerElement (w : Width) : Nat := w.bits / 8

/-- The size of `PackedNumView::UInt`. -/
def sizeofUInt (w : Width) : Nat := if w.bits ≤ 32 then 4 else 8

theorem bytesPerElement_pos (w : Width) : 0 < w.bytesPerElement := by
  have := w.ge
  unfold bytesPerElement
  omega

theorem bytesPerElement_le (w : Width) : w.bytesPerElement ≤ w.sizeofUInt := by
  have := w.lt
  unfold bytesPerElement sizeofUInt
  split_ifs <;> omega

theorem two_pow_bits (w : Width) : 256 ^ w.bytesPerElement = 2 ^ w.bits := by
  have hbits : 8 * w.bytesPerElement = w.bits := by
    have := w.mod_eq
    unfold bytesPerElement
    omega
  have hbase : 256 = 2 ^ 8 := rfl
  rw [hbase, ← Nat.pow_mul, hbits]

end Width

/-- `PackedNumView`: a view of the bytes. -/
structure PackedNumView (w : Width) (order : ByteOrder) where
  buf : List UInt8

namespace PackedNumView

variable {w : Width} {order : ByteOrder}

/-- The constructor from a buffer. -/
def ofBuffer (packedBuffer : List UInt8) (throwIfJunkAtEnd : Bool) :
    Except String (PackedNumView w order) :=
  if throwIfJunkAtEnd ∧ packedBuffer.length % w.bytesPerElement ≠ 0 then
    .error "packedBuffer must have a length that is a multiple of bytesPerElement!"
  else .ok ⟨packedBuffer⟩

def size (v : PackedNumView w order) : Nat := v.buf.length / w.bytesPerElement

def byteOffsetOf (_ : PackedNumView w order) (index : Nat) : Nat := w.bytesPerElement * index

/-- `ByteView::substr`. -/
def substr (b : List UInt8) (pos count : Nat) : List UInt8 :=
  if pos ≥ b.length then [] else (b.drop pos).take (min (b.length - pos) count)

def viewForElement (v : PackedNumView w order) (index : Nat) : List UInt8 :=
  substr v.buf (v.byteOffsetOf index) w.bytesPerElement

/-- Write bytes over memory. -/
def memcpy (dest src : List UInt8) (pos : Nat) : List UInt8 :=
  dest.take pos ++ src ++ dest.drop (pos + src.length)

/-- Where the bytes of an element are in a word that holds it. -/
def wordOffset (w : Width) (order : ByteOrder) : Nat :=
  if order = .big ∧ w.bytesPerElement < w.sizeofUInt then w.sizeofUInt - w.bytesPerElement else 0

/-- `PackedNumView::operator[]` on a machine whose order is `host`. -/
def get (host : ByteOrder) (v : PackedNumView w order) (i : Nat) : Nat :=
  let ebytes := v.viewForElement i
  let ret := memcpy (List.replicate w.sizeofUInt 0) ebytes (wordOffset w order)
  order.convert host w.sizeofUInt (host.load ret)

/-- `PackedNumView::at`. -/
def elementAt (host : ByteOrder) (v : PackedNumView w order) (i : Nat) : Except String Nat :=
  if i ≥ v.size then .error "Index exceeds size of array" else .ok (v.get host i)

/-- The bytes that `Make` copies for one number. -/
def packedBytes (w : Width) (order host : ByteOrder) (n : Nat) : List UInt8 :=
  -- the cast to `UInt`
  let packed := n % 256 ^ w.sizeofUInt
  let packed := order.convert host w.sizeofUInt packed
  ((host.store w.sizeofUInt packed).drop (wordOffset w order)).take w.bytesPerElement

/-- The loop of `Make` after `i` turns. -/
def makeLoop (w : Width) (order host : ByteOrder) (srcInts : List Nat) (outBuffer : List UInt8)
    (i : Nat) : List UInt8 :=
  (List.range i).foldl (fun out i =>
    memcpy out (packedBytes w order host (srcInts.getD i 0)) (i * w.bytesPerElement)) outBuffer

/-- `PackedNumView::Make`. -/
def make (host : ByteOrder) (outBuffer : List UInt8) (srcInts : List Nat)
    (allowLongerOutputBuffer : Bool) : Except String (PackedNumView w order) :=
  if outBuffer.length % w.bytesPerElement ≠ 0 then
    .error "outBuffer's size must be a multiple of bytesPerElement!"
  else
    let nOutputElems := outBuffer.length / w.bytesPerElement
    if ¬ allowLongerOutputBuffer ∧ nOutputElems > srcInts.length then
      .error "outputBuffer's size is larger than what srcInts requires"
    else
      let nIters := min nOutputElems srcInts.length
      let out := makeLoop w order host srcInts outBuffer nIters
      let out :=
        if nIters < nOutputElems then
          memcpy out (List.replicate (out.length - nIters * w.bytesPerElement) 0)
            (nIters * w.bytesPerElement)
        else out
      ofBuffer out true

section Packing

/-- The bytes of a list of numbers. -/
def pack (w : Width) (order : ByteOrder) (nums : List Nat) : List UInt8 :=
  nums.flatMap (order.store w.bytesPerElement)

@[simp] theorem length_store (o : ByteOrder) (k v : Nat) : (o.store k v).length = k := by
  cases o
  case little => exact length_leBytes k v
  case big => exact length_beBytes k v

theorem length_pack (nums : List Nat) :
    (pack w order nums).length = w.bytesPerElement * nums.length := by
  rw [pack, List.length_flatMap]
  simp [Nat.mul_comm]

theorem pack_append (a b : List Nat) :
    pack w order (a ++ b) = pack w order a ++ pack w order b := by
  simp [pack]

theorem pack_singleton (n : Nat) :
    pack w order [n] = order.store w.bytesPerElement n := by
  simp [pack]

theorem wordOffset_little : wordOffset w .little = 0 := if_neg fun h => by cases h.1

theorem wordOffset_big : wordOffset w .big = w.sizeofUInt - w.bytesPerElement := by
  unfold wordOffset
  split_ifs with h
  · rfl
  · have hge : ¬ w.bytesPerElement < w.sizeofUInt := fun hlt => h ⟨rfl, hlt⟩
    omega

/-- The bytes of a number are its low bytes in the order of the buffer. -/
theorem packedBytes_eq (host : ByteOrder) (n : Nat) :
    packedBytes w order host n = order.store w.bytesPerElement n := by
  have hbe : beBytes w.sizeofUInt (n % 256 ^ w.sizeofUInt) = beBytes w.sizeofUInt n :=
    (VarInt.beBytes_mod w.sizeofUInt n).symm
  unfold packedBytes
  simp only [ByteOrder.store_convert]
  cases order
  case little =>
    have hle : leBytes w.sizeofUInt (n % 256 ^ w.sizeofUInt) = leBytes w.sizeofUInt n :=
      List.reverse_injective hbe
    simp only [ByteOrder.store, wordOffset_little, List.drop_zero, hle]
    exact ByteOrder.take_leBytes w.bytesPerElement_le n
  case big =>
    simp only [ByteOrder.store, wordOffset_big, hbe]
    rw [ByteOrder.drop_beBytes w.bytesPerElement_le]
    exact List.take_of_length_le (length_beBytes _ _).le

theorem memcpy_append (a b src : List UInt8) :
    memcpy (a ++ b) src a.length = a ++ src ++ b.drop src.length := by
  rw [memcpy, List.take_left, ← List.drop_drop, List.drop_left]

/-- The loop has written the bytes of the numbers before. -/
theorem makeLoop_eq (host : ByteOrder) (srcInts : List Nat) (outBuffer : List UInt8) {i : Nat}
    (hi : i ≤ srcInts.length) :
    makeLoop w order host srcInts outBuffer i =
      pack w order (srcInts.take i) ++ outBuffer.drop (i * w.bytesPerElement) := by
  induction i with
  | zero => simp [makeLoop, pack]
  | succ i ih =>
      have hlt : i < srcInts.length := by omega
      have hstep : makeLoop w order host srcInts outBuffer (i + 1) =
          memcpy (makeLoop w order host srcInts outBuffer i)
            (packedBytes w order host (srcInts.getD i 0)) (i * w.bytesPerElement) := by
        rw [makeLoop, List.range_succ, List.foldl_append]
        rfl
      have hlen : (pack w order (srcInts.take i)).length = i * w.bytesPerElement := by
        rw [length_pack, List.length_take_of_le hlt.le, Nat.mul_comm]
      have htake : srcInts.take (i + 1) = srcInts.take i ++ [srcInts[i]] :=
        List.take_succ_eq_append_getElem hlt
      have hget : srcInts.getD i 0 = srcInts[i] := by simp [hlt]
      rw [hstep, ih hlt.le, ← hlen, memcpy_append, packedBytes_eq, length_store, hlen,
        List.drop_drop, htake, hget, Nat.succ_mul, pack_append, pack_singleton]

theorem pack_zeros (k : Nat) :
    pack w order (List.replicate k 0) = List.replicate (w.bytesPerElement * k) 0 := by
  have hzero : order.store w.bytesPerElement 0 = List.replicate w.bytesPerElement 0 := by
    have hle : leBytes w.bytesPerElement 0 = List.replicate w.bytesPerElement 0 := by
      simp [leBytes]
    cases order
    case little => exact hle
    case big => rw [ByteOrder.store, beBytes, hle, List.reverse_replicate]
  induction k with
  | zero => rfl
  | succ k ih =>
      rw [List.replicate_succ, pack, List.flatMap_cons, ← pack, ih, hzero,
        List.replicate_append_replicate, Nat.mul_succ, Nat.add_comm]

/-- The numbers that a buffer of `m` elements gets: as many as fit, and zeroes. -/
def fitted (srcInts : List Nat) (m : Nat) : List Nat :=
  srcInts.take m ++ List.replicate (m - srcInts.length) 0

/-- What `Make` writes. -/
theorem make_eq (host : ByteOrder) {outBuffer : List UInt8} {srcInts : List Nat} {m : Nat}
    {allow : Bool} (hbuf : outBuffer.length = w.bytesPerElement * m)
    (hallow : allow = true ∨ m ≤ srcInts.length) :
    make host outBuffer srcInts allow =
      (.ok ⟨pack w order (fitted srcInts m)⟩ : Except String (PackedNumView w order)) := by
  have hpos := w.bytesPerElement_pos
  have hmod : outBuffer.length % w.bytesPerElement = 0 := by
    rw [hbuf, Nat.mul_mod_right]
  have hdiv : outBuffer.length / w.bytesPerElement = m := by
    rw [hbuf, Nat.mul_div_cancel_left _ hpos]
  have hpermit : ¬ (¬ allow = true ∧ m > srcInts.length) := by
    rintro ⟨hno, hlong⟩
    rcases hallow with h | h
    · exact hno h
    · omega
  have hout : ∀ buf : List UInt8, buf = pack w order (fitted srcInts m) →
      (ofBuffer buf true : Except String (PackedNumView w order)) =
        .ok ⟨pack w order (fitted srcInts m)⟩ := by
    intro buf hb
    have hjunk : ¬ (true = true ∧ buf.length % w.bytesPerElement ≠ 0) := by
      rw [hb, length_pack, Nat.mul_mod_right]
      simp
    rw [ofBuffer, if_neg hjunk, hb]
  unfold make
  simp only [hmod, hdiv, ne_eq, not_true_eq_false, if_false, if_neg hpermit]
  apply hout
  rw [makeLoop_eq host srcInts outBuffer (Nat.min_le_right _ _)]
  by_cases hlong : srcInts.length < m
  · -- the numbers run out, and the other bytes are cleared
    have hmin : min m srcInts.length = srcInts.length := Nat.min_eq_right hlong.le
    have hlen : (pack w order srcInts).length = srcInts.length * w.bytesPerElement := by
      rw [length_pack, Nat.mul_comm]
    have hrest : outBuffer.length - srcInts.length * w.bytesPerElement =
        w.bytesPerElement * (m - srcInts.length) := by
      rw [hbuf, Nat.mul_comm srcInts.length, ← Nat.mul_sub]
    rw [hmin, if_pos hlong, List.take_length, ← hlen, memcpy_append, List.length_append,
      Nat.add_sub_cancel_left, List.length_drop, hlen, hrest, List.length_replicate,
      List.drop_of_length_le (by rw [List.length_drop, hrest]), List.append_nil, fitted,
      List.take_of_length_le hlong.le, pack_append, pack_zeros]
  · have hmin : min m srcInts.length = m := Nat.min_eq_left (by omega)
    have hdrop : outBuffer.drop (m * w.bytesPerElement) = [] :=
      List.drop_of_length_le (by rw [hbuf, Nat.mul_comm])
    have hnone : m - srcInts.length = 0 := by omega
    rw [hmin, if_neg (Nat.lt_irrefl m), hdrop, List.append_nil, fitted, hnone,
      List.replicate_zero, List.append_nil]

end Packing

section Elements

variable {host : ByteOrder} {nums : List Nat} {i : Nat}

theorem size_pack : size (⟨pack w order nums⟩ : PackedNumView w order) = nums.length := by
  rw [size, length_pack, Nat.mul_div_cancel_left _ w.bytesPerElement_pos]

theorem substr_eq (b : List UInt8) (pos count : Nat) :
    substr b pos count = (b.drop pos).take count := by
  unfold substr
  split_ifs with h
  · rw [List.drop_of_length_le h, List.take_nil]
  · rw [Nat.min_comm, ← List.take_take, ← List.length_drop, List.take_length]

theorem viewForElement_pack {n : Nat} (hn : nums[i]? = some n) :
    viewForElement (⟨pack w order nums⟩ : PackedNumView w order) i =
      order.store w.bytesPerElement n := by
  have hall : ∀ r ∈ nums.map (order.store w.bytesPerElement), r.length = w.bytesPerElement := by
    intro r hr
    obtain ⟨k, -, rfl⟩ := List.mem_map.mp hr
    exact length_store order _ k
  have hget : (nums.map (order.store w.bytesPerElement))[i]? =
      some (order.store w.bytesPerElement n) := by
    rw [List.getElem?_map, hn]
    rfl
  rw [viewForElement, substr_eq, byteOffsetOf, pack, List.flatMap_def]
  exact Chunks.slice_flatten hall hget

/-- The element that a word is made from is the number truncated. -/
theorem get_of_bytes {v : PackedNumView w order} {n : Nat}
    (hv : v.viewForElement i = order.store w.bytesPerElement n) :
    v.get host i = n % 2 ^ w.bits := by
  have hle := w.bytesPerElement_le
  rw [← w.two_pow_bits, ← ByteOrder.ofLE_leBytes_mod]
  unfold get
  dsimp only
  rw [hv]
  cases order
  case little =>
    have hmem : memcpy (List.replicate w.sizeofUInt 0) (leBytes w.bytesPerElement n) 0 =
        leBytes w.bytesPerElement n ++
          List.replicate (w.sizeofUInt - w.bytesPerElement) 0 := by
      simp [memcpy]
    rw [wordOffset_little, ByteOrder.store, hmem, ByteOrder.convert_load]
    · exact ByteOrder.ofLE_append_zeros _ _
    · simp
      omega
  case big =>
    have hmem : memcpy (List.replicate w.sizeofUInt 0) (beBytes w.bytesPerElement n)
        (w.sizeofUInt - w.bytesPerElement) =
        List.replicate (w.sizeofUInt - w.bytesPerElement) 0 ++ beBytes w.bytesPerElement n := by
      have hend : w.sizeofUInt - (w.sizeofUInt - w.bytesPerElement + w.bytesPerElement) = 0 := by
        omega
      simp [memcpy, hend]
    rw [wordOffset_big, ByteOrder.store, hmem, ByteOrder.convert_load]
    · rw [ByteOrder.load, ofBE, List.reverse_append, List.reverse_replicate, beBytes,
        List.reverse_reverse]
      exact ByteOrder.ofLE_append_zeros _ _
    · simp
      omega

theorem get_pack {n : Nat} (hn : nums[i]? = some n) :
    get host (⟨pack w order nums⟩ : PackedNumView w order) i = n % 2 ^ w.bits :=
  get_of_bytes (viewForElement_pack hn)

end Elements

/-! ## Iterators -/

/-- `PackedNumView::Iterator`, less the view it belongs to. -/
structure Iterator where
  pos : Int
  deriving DecidableEq

/-- `it + offset`. -/
def Iterator.plus (it : Iterator) (offset : Int) : Iterator := ⟨it.pos + offset⟩

/-- `PackedNumView::begin`. -/
def beginIter (_ : PackedNumView w order) : Iterator := ⟨0⟩

/-- `PackedNumView::end`. -/
def endIter (v : PackedNumView w order) : Iterator := ⟨v.size⟩

/-- `Iterator::operator*`. -/
def deref (host : ByteOrder) (v : PackedNumView w order) (it : Iterator) : Nat :=
  v.get host it.pos.toNat

/-- The loop `for (; it != end(); ++it)` over the elements, if it ends within `fuel` turns. -/
def walk (host : ByteOrder) (v : PackedNumView w order) : Nat → Iterator → Option (List Nat)
  | 0, it => if it = v.endIter then some [] else none
  | fuel + 1, it =>
      if it = v.endIter then some []
      else (walk host v fuel (it.plus 1)).map (v.deref host it :: ·)

/-- The elements that a walk from the beginning to the end sees. -/
def elements (host : ByteOrder) (v : PackedNumView w order) : Option (List Nat) :=
  walk host v v.size v.beginIter

/-- The comparison of `lower_bound`: `std::less`, or `std::greater` for reverse order. -/
def before (isReverseSorted : Bool) (a b : Nat) : Bool :=
  if isReverseSorted then decide (a > b) else decide (a < b)

/-- `PackedNumView::lower_bound`, with `std::lower_bound` as the search. -/
def lowerBound (host : ByteOrder) (v : PackedNumView w order) (val : Nat)
    (isReverseSorted : Bool) : Iterator :=
  v.beginIter.plus (LowerBound.lowerBound
    (fun i => before isReverseSorted (v.deref host (v.beginIter.plus i)) val) 0
    (v.endIter.pos - v.beginIter.pos).toNat)

/-- `PackedNumView::find`. -/
def find (host : ByteOrder) (v : PackedNumView w order) (val : Nat) (isReverseSorted : Bool) :
    Iterator :=
  let it := v.lowerBound host val isReverseSorted
  if it ≠ v.endIter ∧ v.deref host it ≠ val then v.endIter else it

section Walk

variable {host : ByteOrder}

theorem deref_begin_plus (v : PackedNumView w order) (i : Nat) :
    v.deref host (v.beginIter.plus i) = v.get host i := by
  simp [deref, beginIter, Iterator.plus]

theorem walk_eq (v : PackedNumView w order) {i : Nat} (hi : i ≤ v.size) :
    walk host v (v.size - i) ⟨i⟩ =
      some ((List.range' i (v.size - i)).map (v.get host)) := by
  generalize hk : v.size - i = k
  induction k generalizing i with
  | zero =>
      have hend : (⟨i⟩ : Iterator) = v.endIter := by
        rw [endIter, show i = v.size by omega]
      rw [walk, if_pos hend]
      rfl
  | succ k ih =>
      have hend : ¬ (⟨i⟩ : Iterator) = v.endIter := by
        intro h
        have hpos : (i : Int) = v.size := congrArg Iterator.pos h
        omega
      have hnext : (⟨i⟩ : Iterator).plus 1 = ⟨(i + 1 : Nat)⟩ := rfl
      rw [walk, if_neg hend, hnext, ih (by omega) (by omega), List.range'_succ]
      rfl

/-- A walk sees the elements in order. -/
theorem elements_eq (v : PackedNumView w order) :
    v.elements host = some ((List.range v.size).map (v.get host)) := by
  rw [List.range_eq_range']
  exact walk_eq v (Nat.zero_le _)

theorem elements_pack (nums : List Nat) :
    elements host (⟨pack w order nums⟩ : PackedNumView w order) =
      some (nums.map (· % 2 ^ w.bits)) := by
  rw [elements_eq, size_pack]
  congr 1
  apply List.ext_getElem?
  intro i
  rw [List.getElem?_map, List.getElem?_map]
  by_cases hi : i < nums.length
  · have hn : nums[i]? = some nums[i] := List.getElem?_eq_getElem hi
    rw [List.getElem?_range hi, hn, Option.map_some, Option.map_some, get_pack hn]
  · rw [List.getElem?_eq_none (by simpa using hi), List.getElem?_eq_none (by simpa using hi)]
    rfl

end Walk

/-! ## Searches -/

/-- The search of `lower_bound` on a list. -/
def searchList (nums : List Nat) (val : Nat) (isReverseSorted : Bool) : Nat :=
  LowerBound.lowerBound (fun i => before isReverseSorted (nums.getD i 0) val) 0 nums.length

/-- No element comes before an earlier one in the order of the search. -/
def SortedBy (isReverseSorted : Bool) (nums : List Nat) : Prop :=
  nums.Pairwise fun a b => before isReverseSorted b a = false

section Search

variable {host : ByteOrder} {nums : List Nat} {val : Nat} {isReverseSorted : Bool}

/-- A search in a view is the search in the list of the elements that a walk sees. -/
theorem lowerBound_eq {v : PackedNumView w order} (h : v.elements host = some nums) :
    v.lowerBound host val isReverseSorted = ⟨searchList nums val isReverseSorted⟩ := by
  have hnums : (List.range v.size).map (v.get host) = nums :=
    Option.some.inj ((elements_eq v).symm.trans h)
  have hlen : v.size = nums.length := by
    rw [← hnums, List.length_map, List.length_range]
  have hsearch : LowerBound.lowerBound
      (fun i => before isReverseSorted (v.deref host (v.beginIter.plus i)) val) 0 v.size =
      searchList nums val isReverseSorted := by
    rw [hlen]
    apply LowerBound.lowerBound_congr
    intro i _ hi
    have hi' : i < v.size := by omega
    have hget : nums.getD i 0 = v.get host i := by
      rw [← hnums]
      simp [hi']
    rw [hget, deref_begin_plus]
  have hdist : (v.endIter.pos - v.beginIter.pos).toNat = v.size := by
    simp [endIter, beginIter]
  rw [lowerBound, hdist, hsearch, Iterator.plus, beginIter, Int.zero_add]

theorem before_irrefl (a : Nat) : before isReverseSorted a a = false := by
  cases isReverseSorted <;> simp [before]

/-- Two numbers of which neither comes before the other are equal. -/
theorem eq_of_not_before {a b : Nat} (hab : before isReverseSorted a b = false)
    (hba : before isReverseSorted b a = false) : a = b := by
  cases isReverseSorted <;> simp [before] at hab hba <;> omega

theorem before_trans_not {a b c : Nat} (hba : before isReverseSorted b a = false)
    (hbc : before isReverseSorted b c = true) : before isReverseSorted a c = true := by
  cases isReverseSorted <;> simp [before] at hba hbc ⊢ <;> omega

/-- In a sorted list no element that comes before the value follows one that does not. -/
theorem SortedBy.partitioned (h : SortedBy isReverseSorted nums) :
    LowerBound.Partitioned (fun i => before isReverseSorted (nums.getD i 0) val) 0
      nums.length := by
  intro i j _ hij hj hbefore
  dsimp only at hbefore ⊢
  rcases hij.lt_or_eq with hlt | rfl
  · have hi' : i < nums.length := by omega
    have hj' : j < nums.length := by omega
    have hgi : nums.getD i 0 = nums[i] := by simp [hi']
    have hgj : nums.getD j 0 = nums[j] := by simp [hj']
    rw [hgj] at hbefore
    rw [hgi]
    exact before_trans_not (List.pairwise_iff_getElem.mp h i j hi' hj' hlt) hbefore
  · exact hbefore

/-- In a sorted list the positions before the result hold what comes before the value. -/
theorem SortedBy.lt_searchList_iff (h : SortedBy isReverseSorted nums) (val : Nat) {i : Nat}
    (hi : i < nums.length) :
    i < searchList nums val isReverseSorted ↔ before isReverseSorted nums[i] val = true := by
  have hget : nums.getD i 0 = nums[i] := by simp [hi]
  rw [← hget]
  exact LowerBound.lt_lowerBound_iff h.partitioned (Nat.zero_le i) (by omega)

theorem searchList_le (nums : List Nat) (val : Nat) (isReverseSorted : Bool) :
    searchList nums val isReverseSorted ≤ nums.length := by
  have hbounds := (LowerBound.lowerBound_bounds
    (fun i => before isReverseSorted (nums.getD i 0) val) 0 nums.length).2
  rw [Nat.zero_add] at hbounds
  exact hbounds

/-- In a sorted list the search ends at the first element that does not come before the value. -/
theorem SortedBy.searchList_eq (h : SortedBy isReverseSorted nums) (val : Nat) :
    searchList nums val isReverseSorted =
      nums.findIdx fun n => ! before isReverseSorted n val := by
  rcases (searchList_le nums val isReverseSorted).lt_or_eq with hlt | hend
  · refine ((List.findIdx_eq hlt).mpr ⟨?_, ?_⟩).symm
    · have hstop := mt (h.lt_searchList_iff val hlt).mpr (Nat.lt_irrefl _)
      simpa using hstop
    · intro j hj
      simpa using (h.lt_searchList_iff val (by omega)).mp hj
  · refine hend.trans (List.findIdx_eq_length.mpr ?_).symm
    intro n hn
    obtain ⟨i, hi, rfl⟩ := List.getElem_of_mem hn
    simpa using (h.lt_searchList_iff val hi).mp (by omega)

/-- What `find` gives on a list. -/
def findList (nums : List Nat) (val : Nat) (isReverseSorted : Bool) : Nat :=
  let i := searchList nums val isReverseSorted
  if i ≠ nums.length ∧ nums.getD i 0 ≠ val then nums.length else i

theorem find_eq {v : PackedNumView w order} (h : v.elements host = some nums) :
    v.find host val isReverseSorted = ⟨findList nums val isReverseSorted⟩ := by
  have hnums : (List.range v.size).map (v.get host) = nums :=
    Option.some.inj ((elements_eq v).symm.trans h)
  have hlen : v.size = nums.length := by
    rw [← hnums, List.length_map, List.length_range]
  have hle := searchList_le nums val isReverseSorted
  unfold find findList
  rw [lowerBound_eq h]
  generalize searchList nums val isReverseSorted = i at hle
  have hend : (⟨i⟩ : Iterator) ≠ v.endIter ↔ i ≠ nums.length := by
    rw [endIter, hlen]
    simp
  by_cases hi : i = nums.length
  · have hno : ¬ (⟨i⟩ : Iterator) ≠ v.endIter := fun hne => hend.mp hne hi
    simp only [hi, ne_eq, not_true_eq_false, false_and, if_false]
    rw [hi] at hno
    rw [if_neg fun hc => hno hc.1]
  · have hi' : i < v.size := by omega
    have hget : nums.getD i 0 = v.deref host ⟨i⟩ := by
      rw [← hnums]
      simp [hi', deref]
    dsimp only
    rw [hget, if_congr (and_congr_left fun _ => hend) rfl rfl, endIter, hlen]
    split_ifs <;> rfl

/-- In a sorted list `find` gives the place of the value, or the end. -/
theorem SortedBy.findList_eq (h : SortedBy isReverseSorted nums) (val : Nat) :
    findList nums val isReverseSorted = nums.idxOf val := by
  unfold findList
  dsimp only
  rcases (searchList_le nums val isReverseSorted).lt_or_eq with hlt | hend
  · have hget : nums.getD (searchList nums val isReverseSorted) 0 =
        nums[searchList nums val isReverseSorted] := by simp [hlt]
    have hstop := mt (h.lt_searchList_iff val hlt).mpr (Nat.lt_irrefl _)
    rw [Bool.not_eq_true] at hstop
    rw [hget]
    by_cases hval : nums[searchList nums val isReverseSorted] = val
    · rw [if_neg fun hc => hc.2 hval]
      refine ((List.findIdx_eq hlt).mpr ⟨by simpa using hval, ?_⟩).symm
      intro j hj
      have hbefore := (h.lt_searchList_iff val (by omega)).mp hj
      rw [beq_eq_false_iff_ne]
      intro heq
      rw [heq, before_irrefl] at hbefore
      cases hbefore
    · -- a place of the value further on would come before the element at the result
      rw [if_pos ⟨hlt.ne, hval⟩]
      refine (List.idxOf_eq_length fun hmem => hval ?_).symm
      obtain ⟨k, hk, hkval⟩ := List.getElem_of_mem hmem
      have hge : ¬ k < searchList nums val isReverseSorted := by
        rw [h.lt_searchList_iff val hk, hkval, before_irrefl]
        exact Bool.false_ne_true
      rcases (Nat.not_lt.mp hge).lt_or_eq with hlt' | heq
      · have hsorted := List.pairwise_iff_getElem.mp h _ k hlt hk hlt'
        rw [hkval] at hsorted
        exact eq_of_not_before hstop hsorted
      · simp only [heq, hkval]
  · rw [if_neg fun hc => hc.1 hend, hend]
    refine (List.idxOf_eq_length fun hmem => ?_).symm
    obtain ⟨k, hk, hkval⟩ := List.getElem_of_mem hmem
    have hbefore := (h.lt_searchList_iff val hk).mp (by omega)
    rw [hkval, before_irrefl] at hbefore
    cases hbefore

end Search

section Make

theorem fitted_self (srcInts : List Nat) : fitted srcInts srcInts.length = srcInts := by
  simp [fitted]

/-- A view that was made from numbers has them in it, truncated: element by element, on a walk
over it, and in its searches. -/
theorem make_exact (w : Width) (order host : ByteOrder) (srcInts : List Nat)
    (outBuffer : List UInt8) (hbuf : outBuffer.length = w.bytesPerElement * srcInts.length) :
    ∃ v : PackedNumView w order,
      make host outBuffer srcInts false = .ok v ∧
      v.size = srcInts.length ∧
      (∀ i n, srcInts[i]? = some n →
        v.get host i = n % 2 ^ w.bits ∧ v.elementAt host i = .ok (n % 2 ^ w.bits)) ∧
      v.elements host = some (srcInts.map (· % 2 ^ w.bits)) ∧
      (∀ val isReverseSorted,
        v.lowerBound host val isReverseSorted =
            ⟨searchList (srcInts.map (· % 2 ^ w.bits)) val isReverseSorted⟩ ∧
          v.find host val isReverseSorted =
            ⟨findList (srcInts.map (· % 2 ^ w.bits)) val isReverseSorted⟩) ∧
      (∀ isReverseSorted, SortedBy isReverseSorted (srcInts.map (· % 2 ^ w.bits)) → ∀ val,
        v.lowerBound host val isReverseSorted =
            ⟨(srcInts.map (· % 2 ^ w.bits)).findIdx fun n => ! before isReverseSorted n val⟩ ∧
          v.find host val isReverseSorted =
            ⟨(srcInts.map (· % 2 ^ w.bits)).idxOf val⟩) := by
  have helements : elements host (⟨pack w order srcInts⟩ : PackedNumView w order) =
      some (srcInts.map (· % 2 ^ w.bits)) := elements_pack srcInts
  refine ⟨⟨pack w order srcInts⟩, ?_, size_pack, ?_, helements, ?_, ?_⟩
  · rw [make_eq host hbuf (Or.inr (Nat.le_refl _)), fitted_self]
  · intro i n hn
    have hlt : i < srcInts.length := (List.getElem?_eq_some_iff.mp hn).1
    refine ⟨get_pack hn, ?_⟩
    rw [elementAt, size_pack, if_neg (by omega), get_pack hn]
  · intro val isReverseSorted
    exact ⟨lowerBound_eq helements, find_eq helements⟩
  · intro isReverseSorted hsorted val
    rw [lowerBound_eq helements, find_eq helements, hsorted.searchList_eq, hsorted.findList_eq]
    exact ⟨rfl, rfl⟩

/-- Numbers of 24 bits in big-endian order, of which the last one is truncated. -/
theorem make_exact_small :
    ∃ v : PackedNumView ⟨24, by decide, by decide, by decide⟩ .big,
      make .little (List.replicate 9 0xaa) [1, 2, 2 ^ 24 + 3] false = .ok v ∧
      v.elements .little = some [1, 2, 3] := by
  obtain ⟨v, hmake, -, -, helements, -, -⟩ :=
    make_exact ⟨24, by decide, by decide, by decide⟩ .big .little [1, 2, 2 ^ 24 + 3]
      (List.replicate 9 0xaa) (by decide)
  exact ⟨v, hmake, helements⟩

end Make

end PackedNumView
end Shulcrum
