import Shulcrum.Lib.Radix

/-!
# The checksum of a cash address

`PolyMod` is a register of 40 bits that takes one symbol of five bits at a time.
A step is linear in the exclusive or, and it can be undone.  Eight symbols that
go into an empty register are the register afterwards.

**Results.**
* `run_xor`, `run_injective`: the register is linear, and it forgets nothing.
* `verifyChecksum_append_iff`: one checksum only fits a payload.
* `burst_detected`: wrong symbols within a window of eight are detected.
-/

namespace Shulcrum
namespace CashAddr

/-! ## The code -/

/-- The step of `PolyMod` for one symbol. -/
def polyModStep (c : BitVec 64) (d : UInt8) : BitVec 64 :=
  let c0 : BitVec 8 := (c >>> 35).setWidth 8
  let c := ((c &&& 0x07ffffffff#64) <<< 5) ^^^ d.toBitVec.setWidth 64
  let c := if c0 &&& 0x01#8 ≠ 0 then c ^^^ 0x98f2bc8e61#64 else c
  let c := if c0 &&& 0x02#8 ≠ 0 then c ^^^ 0x79b76d99e2#64 else c
  let c := if c0 &&& 0x04#8 ≠ 0 then c ^^^ 0xf33e5fb3c4#64 else c
  let c := if c0 &&& 0x08#8 ≠ 0 then c ^^^ 0xae2eabe2a8#64 else c
  if c0 &&& 0x10#8 ≠ 0 then c ^^^ 0x1e4f43e470#64 else c

/-- The register after some symbols. -/
def run (c : BitVec 64) (v : List UInt8) : BitVec 64 := v.foldl polyModStep c

/-- `PolyMod`. -/
def polyMod (v : List UInt8) : BitVec 64 := run 1 v ^^^ 1

/-- `CHECKSUM_SIZE`. -/
def checksumSize : Nat := 8

/-- `ExpandPrefix`. -/
def expandPrefix (pfx : List UInt8) : List UInt8 := pfx.map (· &&& 0x1f) ++ [0]

/-- `VerifyChecksum`. -/
def verifyChecksum (pfx payload : List UInt8) : Bool :=
  polyMod (expandPrefix pfx ++ payload) == 0

/-- `CreateChecksum`. -/
def createChecksum (pfx payload : List UInt8) : List UInt8 :=
  let enc := expandPrefix pfx ++ payload ++ List.replicate checksumSize 0
  let mod := polyMod enc
  (List.range checksumSize).map fun i =>
    UInt8.ofBitVec (((mod >>> (5 * (7 - i))) &&& 0x1f).setWidth 8)

/-! ## One step -/

/-- The constant, if a bit is set. -/
def select (c : BitVec 64) (i : Nat) (k : BitVec 64) : BitVec 64 :=
  if c.getLsbD i then k else 0

/-- What is fed back into the register. -/
def feedback (c : BitVec 64) : BitVec 64 :=
  select c 35 0x98f2bc8e61 ^^^ select c 36 0x79b76d99e2 ^^^ select c 37 0xf33e5fb3c4 ^^^
    select c 38 0xae2eabe2a8 ^^^ select c 39 0x1e4f43e470

theorem xor_select (c c₁ k : BitVec 64) {i : Nat} (hi : i < 8) :
    (if (c >>> 35).setWidth 8 &&& BitVec.twoPow 8 i ≠ 0 then c₁ ^^^ k else c₁) =
      c₁ ^^^ select c (35 + i) k := by
  have hbit : ((c >>> 35).setWidth 8).getLsbD i = c.getLsbD (35 + i) := by
    simp [hi]
  have hpow : BitVec.twoPow 8 i ≠ 0#8 := by
    intro h
    have hget := congrArg (fun x => x.getLsbD i) h
    simp [hi] at hget
  rw [BitVec.and_twoPow, hbit, select]
  cases c.getLsbD (35 + i) with
  | true => simp [hpow]
  | false => simp

theorem polyModStep_eq (c : BitVec 64) (d : UInt8) :
    polyModStep c d =
      ((c &&& 0x07ffffffff#64) <<< 5) ^^^ d.toBitVec.setWidth 64 ^^^ feedback c := by
  simp only [polyModStep, feedback]
  have e0 : (0x01#8 : BitVec 8) = BitVec.twoPow 8 0 := by decide
  have e1 : (0x02#8 : BitVec 8) = BitVec.twoPow 8 1 := by decide
  have e2 : (0x04#8 : BitVec 8) = BitVec.twoPow 8 2 := by decide
  have e3 : (0x08#8 : BitVec 8) = BitVec.twoPow 8 3 := by decide
  have e4 : (0x10#8 : BitVec 8) = BitVec.twoPow 8 4 := by decide
  rw [e0, e1, e2, e3, e4, xor_select c _ _ (by omega), xor_select c _ _ (by omega),
    xor_select c _ _ (by omega), xor_select c _ _ (by omega), xor_select c _ _ (by omega)]
  simp only [BitVec.xor_assoc]
  rfl

theorem select_xor (a b k : BitVec 64) (i : Nat) :
    select (a ^^^ b) i k = select a i k ^^^ select b i k := by
  simp only [select, BitVec.getLsbD_xor]
  cases a.getLsbD i <;> cases b.getLsbD i <;> simp

theorem feedback_xor (a b : BitVec 64) : feedback (a ^^^ b) = feedback a ^^^ feedback b := by
  simp only [feedback, select_xor]
  ac_rfl

/-- A step is linear in the register and the symbol. -/
theorem polyModStep_xor (a b : BitVec 64) (d e : UInt8) :
    polyModStep (a ^^^ b) (d ^^^ e) = polyModStep a d ^^^ polyModStep b e := by
  have hmask : (a ^^^ b) &&& 0x07ffffffff#64 =
      (a &&& 0x07ffffffff#64) ^^^ (b &&& 0x07ffffffff#64) := by
    ext i
    simp [Bool.and_xor_distrib_right]
  have hsymbol : (d ^^^ e).toBitVec.setWidth 64 =
      d.toBitVec.setWidth 64 ^^^ e.toBitVec.setWidth 64 := by
    rw [UInt8.toBitVec_xor, BitVec.setWidth_xor]
  rw [polyModStep_eq, polyModStep_eq, polyModStep_eq, hmask, hsymbol,
    BitVec.shiftLeft_xor_distrib, feedback_xor]
  ac_rfl

theorem toNat_select_lt {c k : BitVec 64} (i : Nat) (hk : k.toNat < 2 ^ 40) :
    (select c i k).toNat < 2 ^ 40 := by
  rw [select]
  split_ifs
  · exact hk
  · exact Nat.two_pow_pos 40

theorem toNat_xor_lt {a b : BitVec 64} (ha : a.toNat < 2 ^ 40) (hb : b.toNat < 2 ^ 40) :
    (a ^^^ b).toNat < 2 ^ 40 := by
  rw [BitVec.toNat_xor]
  exact Nat.xor_lt_two_pow ha hb

/-- The register has 40 bits. -/
theorem polyModStep_lt (c : BitVec 64) (d : UInt8) : (polyModStep c d).toNat < 2 ^ 40 := by
  have hshift : ((c &&& 0x07ffffffff#64) <<< 5).toNat < 2 ^ 40 := by
    have hand : (c &&& 0x07ffffffff#64).toNat ≤ 0x07ffffffff := by
      rw [BitVec.toNat_and]
      exact Nat.and_le_right
    rw [BitVec.toNat_shiftLeft, Nat.shiftLeft_eq]
    omega
  have hsymbol : (d.toBitVec.setWidth 64).toNat < 2 ^ 40 := by
    have hd := d.toNat_lt
    rw [BitVec.toNat_setWidth, UInt8.toNat_toBitVec]
    omega
  have hfeedback : (feedback c).toNat < 2 ^ 40 :=
    toNat_xor_lt (toNat_xor_lt (toNat_xor_lt (toNat_xor_lt (toNat_select_lt 35 (by decide))
      (toNat_select_lt 36 (by decide))) (toNat_select_lt 37 (by decide)))
      (toNat_select_lt 38 (by decide))) (toNat_select_lt 39 (by decide))
  rw [polyModStep_eq]
  exact toNat_xor_lt (toNat_xor_lt hshift hsymbol) hfeedback

/-- As long as the register is not full, a symbol is put behind the others. -/
theorem toNat_polyModStep {c : BitVec 64} {d : UInt8} (hc : c.toNat < 2 ^ 35) (hd : d < 32) :
    (polyModStep c d).toNat = 32 * c.toNat + d.toNat := by
  have hd' : d.toNat < 2 ^ 5 := hd
  have hselect : ∀ i k, 35 ≤ i → select c i k = 0#64 := by
    intro i k hi
    have hbit : c.getLsbD i = false := Nat.testBit_lt_two_pow
      (hc.trans_le (Nat.pow_le_pow_right (by omega) hi))
    rw [select, hbit]
    rfl
  have hfeedback : feedback c = 0#64 := by
    rw [feedback, hselect _ _ (by omega), hselect _ _ (by omega), hselect _ _ (by omega),
      hselect _ _ (by omega), hselect _ _ (by omega)]
    decide
  have hmask : (c &&& 0x07ffffffff#64).toNat = c.toNat := by
    rw [BitVec.toNat_and]
    exact (Nat.and_two_pow_sub_one_eq_mod c.toNat 35).trans (Nat.mod_eq_of_lt hc)
  have hshift : ((c &&& 0x07ffffffff#64) <<< 5).toNat = 2 ^ 5 * c.toNat := by
    rw [BitVec.toNat_shiftLeft, hmask, Nat.shiftLeft_eq]
    omega
  have hsymbol : (d.toBitVec.setWidth 64).toNat = d.toNat := by
    have hlt := d.toNat_lt
    rw [BitVec.toNat_setWidth, UInt8.toNat_toBitVec]
    omega
  rw [polyModStep_eq, hfeedback, BitVec.xor_zero, BitVec.toNat_xor, hshift, hsymbol]
  have hsum : 32 * c.toNat + d.toNat = 2 ^ 5 * c.toNat + d.toNat := rfl
  rw [hsum]
  refine Nat.eq_of_testBit_eq fun j => ?_
  rw [Nat.testBit_xor, Nat.testBit_two_pow_mul, Nat.testBit_two_pow_mul_add _ hd']
  split_ifs with hj
  · simp [Nat.not_le.mpr hj]
  · have hhigh : d.toNat.testBit j = false :=
      Nat.testBit_lt_two_pow (hd'.trans_le (Nat.pow_le_pow_right (by omega) (not_lt.mp hj)))
    simp [hhigh, not_lt.mp hj]

/-- The low bits show what was fed back. -/
theorem getLsbD_polyModStep (c : BitVec 64) {i : Nat} (hi : i < 5) :
    (polyModStep c 0).getLsbD i = c.getLsbD (35 + i) := by
  have hselect : ∀ j k, (select c j k).getLsbD i = (c.getLsbD j && k.getLsbD i) := by
    intro j k
    rw [select]
    cases c.getLsbD j <;> simp
  have hlow : ((c &&& 0x07ffffffff#64) <<< 5).getLsbD i = false := by
    simp [hi]
  have hzero : ((0 : UInt8).toBitVec.setWidth 64).getLsbD i = false := by simp
  rw [polyModStep_eq, BitVec.getLsbD_xor, BitVec.getLsbD_xor, hlow, hzero]
  simp only [feedback, BitVec.getLsbD_xor, hselect]
  interval_cases i <;> simp

theorem eq_zero_of_polyModStep {c : BitVec 64} (hc : c.toNat < 2 ^ 40)
    (h : polyModStep c 0 = 0) : c = 0 := by
  have hhigh : ∀ i < 5, c.getLsbD (35 + i) = false := by
    intro i hi
    rw [← getLsbD_polyModStep c hi, h]
    simp
  have hlt : c.toNat < 2 ^ 35 := by
    refine Nat.lt_pow_two_of_testBit _ fun j hj => ?_
    by_cases hj' : j < 40
    · obtain ⟨i, rfl⟩ := Nat.exists_eq_add_of_le hj
      exact hhigh i (by omega)
    · exact Nat.testBit_lt_two_pow (hc.trans_le (Nat.pow_le_pow_right (by omega) (by omega)))
  have hvalue := toNat_polyModStep (d := 0) hlt (by decide)
  rw [h] at hvalue
  refine BitVec.eq_of_toNat_eq ?_
  have hzero : (0 : BitVec 64).toNat = 0 := rfl
  have hd : (0 : UInt8).toNat = 0 := rfl
  omega

/-- A step can be undone if one knows the symbol. -/
theorem polyModStep_injective {a b : BitVec 64} {d : UInt8} (ha : a.toNat < 2 ^ 40)
    (hb : b.toNat < 2 ^ 40) (h : polyModStep a d = polyModStep b d) : a = b := by
  have hstep := polyModStep_xor a b d d
  rw [h, BitVec.xor_self, UInt8.xor_self] at hstep
  exact BitVec.xor_eq_zero_iff.mp (eq_zero_of_polyModStep (toNat_xor_lt ha hb) hstep)

/-! ## Many symbols -/

theorem run_append (c : BitVec 64) (u v : List UInt8) : run c (u ++ v) = run (run c u) v :=
  List.foldl_append

theorem run_lt {c : BitVec 64} (hc : c.toNat < 2 ^ 40) (v : List UInt8) :
    (run c v).toNat < 2 ^ 40 := by
  cases List.eq_nil_or_concat v with
  | inl h =>
      subst h
      exact hc
  | inr h =>
      obtain ⟨u, d, rfl⟩ := h
      rw [List.concat_eq_append, run_append]
      exact polyModStep_lt _ d

/-- The register is linear. -/
theorem run_xor (u : List UInt8) : ∀ (a b : BitVec 64) (v : List UInt8), u.length = v.length →
    run (a ^^^ b) (List.zipWith (· ^^^ ·) u v) = run a u ^^^ run b v := by
  induction u with
  | nil =>
      intro a b v hlen
      obtain rfl := List.length_eq_zero_iff.mp hlen.symm
      rfl
  | cons d u ih =>
      intro a b v hlen
      cases v with
      | nil => cases hlen
      | cons e v =>
          have h := ih (polyModStep a d) (polyModStep b e) v (Nat.succ.inj hlen)
          rw [← polyModStep_xor] at h
          exact h

/-- Symbols act on a register as they do on an empty one. -/
theorem run_eq_xor (c : BitVec 64) (v : List UInt8) :
    run c v = run c (List.replicate v.length 0) ^^^ run 0 v := by
  have h := run_xor (List.replicate v.length 0) c 0#64 v List.length_replicate
  have hzip : List.zipWith (· ^^^ ·) (List.replicate v.length (0 : UInt8)) v = v := by
    refine List.ext_getElem (by simp) fun i hi hi' => ?_
    simp
  rw [hzip, BitVec.xor_zero] at h
  exact h

/-- The register forgets nothing. -/
theorem run_injective (v : List UInt8) : ∀ {a b : BitVec 64}, a.toNat < 2 ^ 40 →
    b.toNat < 2 ^ 40 → run a v = run b v → a = b := by
  induction v with
  | nil => exact fun _ _ h => h
  | cons d v ih =>
      intro a b ha hb h
      exact polyModStep_injective ha hb (ih (polyModStep_lt a d) (polyModStep_lt b d) h)

/-- Symbols of five bits. -/
def Symbols (v : List UInt8) : Prop := ∀ d ∈ v, d < 32

theorem Symbols.toNat_lt {v : List UInt8} (h : Symbols v) : ∀ x ∈ v.map UInt8.toNat, x < 32 := by
  intro x hx
  obtain ⟨d, hd, rfl⟩ := List.mem_map.mp hx
  exact h d hd

/-- Up to eight symbols fill an empty register. -/
theorem toNat_run_zero {v : List UInt8} (hlen : v.length ≤ 8) (hv : Symbols v) :
    (run 0 v).toNat = Radix.number 32 (v.map UInt8.toNat) := by
  induction v using List.reverseRecOn with
  | nil => rfl
  | append_singleton v d ih =>
      rw [List.length_append, List.length_singleton] at hlen
      have hv' : Symbols v := fun e he => hv e (List.mem_append_left _ he)
      have hd : d < 32 := hv d (List.mem_append_right _ List.mem_cons_self)
      have hsmall : Radix.number 32 (v.map UInt8.toNat) < 2 ^ 35 := by
        have h := Radix.number_lt (by omega) hv'.toNat_lt
        rw [List.length_map] at h
        have hpow : 32 ^ v.length ≤ 32 ^ 7 := Nat.pow_le_pow_right (by omega) (by omega)
        omega
      have ih := ih (by omega) hv'
      have hstep : run 0 (v ++ [d]) = polyModStep (run 0 v) d := run_append 0 v [d]
      rw [hstep, toNat_polyModStep (by rw [ih]; exact hsmall) hd, ih, List.map_append,
        List.map_singleton, Radix.number_concat]

theorem run_zero_injective {x y : List UInt8} (hlen : x.length = y.length) (h8 : x.length ≤ 8)
    (hx : Symbols x) (hy : Symbols y) (h : run 0 x = run 0 y) : x = y := by
  have hnumber := congrArg BitVec.toNat h
  rw [toNat_run_zero h8 hx, toNat_run_zero (hlen ▸ h8) hy] at hnumber
  have hmap := Radix.number_injective (by omega) (by simpa using hlen) hx.toNat_lt hy.toNat_lt
    hnumber
  exact List.map_injective_iff.mpr (fun a b hab => UInt8.toNat_inj.mp hab) hmap

/-! ## The checksum -/

section Checksum

variable (pfx payload : List UInt8)

theorem length_createChecksum : (createChecksum pfx payload).length = checksumSize := by
  simp [createChecksum]

/-- The register behind a payload. -/
def behind : BitVec 64 := run 1 (expandPrefix pfx ++ payload)

theorem behind_lt : (behind pfx payload).toNat < 2 ^ 40 := run_lt (by decide) _

/-- What the last eight symbols have to be as a number. -/
def checksumMod : BitVec 64 := run (behind pfx payload) (List.replicate checksumSize 0) ^^^ 1

theorem checksumMod_lt : (checksumMod pfx payload).toNat < 2 ^ 40 :=
  toNat_xor_lt (run_lt (behind_lt pfx payload) _) (by decide)

theorem createChecksum_eq :
    createChecksum pfx payload = (List.range checksumSize).map fun i =>
      UInt8.ofBitVec (((checksumMod pfx payload >>> (5 * (7 - i))) &&& 0x1f).setWidth 8) := by
  rw [createChecksum, polyMod, run_append]
  rfl

theorem toNat_symbol (m : BitVec 64) (k : Nat) :
    (UInt8.ofBitVec (((m >>> k) &&& 0x1f).setWidth 8)).toNat = m.toNat / 2 ^ k % 32 := by
  have hmask : ((m >>> k) &&& 0x1f).toNat = m.toNat / 2 ^ k % 32 := by
    rw [BitVec.toNat_and, BitVec.toNat_ushiftRight, Nat.shiftRight_eq_div_pow]
    exact Nat.and_two_pow_sub_one_eq_mod _ 5
  rw [UInt8.toNat_ofBitVec, BitVec.toNat_setWidth, hmask]
  omega

theorem symbols_createChecksum : Symbols (createChecksum pfx payload) := by
  intro d hd
  rw [createChecksum_eq] at hd
  obtain ⟨i, -, rfl⟩ := List.mem_map.mp hd
  rw [UInt8.lt_iff_toNat_lt, toNat_symbol]
  exact Nat.mod_lt _ (by omega)

/-- The symbols of the checksum are the groups of five bits. -/
theorem number_createChecksum :
    Radix.number 32 ((createChecksum pfx payload).map UInt8.toNat) =
      (checksumMod pfx payload).toNat := by
  have hlt := checksumMod_lt pfx payload
  have hsymbols : (createChecksum pfx payload).map UInt8.toNat =
      [35, 30, 25, 20, 15, 10, 5, 0].map fun k => (checksumMod pfx payload).toNat / 2 ^ k % 32 := by
    rw [createChecksum_eq, List.map_map]
    simp only [checksumSize, List.range, List.range.loop, List.map_cons, List.map_nil,
      Function.comp_apply, toNat_symbol]
  rw [hsymbols]
  generalize (checksumMod pfx payload).toNat = m at hlt ⊢
  simp only [Radix.number, List.map_cons, List.map_nil, List.reverse_cons, List.reverse_nil,
    List.nil_append, List.cons_append, Nat.ofDigits_cons, Nat.ofDigits_nil]
  omega

theorem run_createChecksum :
    run 0 (createChecksum pfx payload) = checksumMod pfx payload := by
  refine BitVec.eq_of_toNat_eq ?_
  rw [toNat_run_zero (length_createChecksum pfx payload).le (symbols_createChecksum pfx payload)]
  exact number_createChecksum pfx payload

variable {pfx payload}

/-- One checksum only is accepted behind a payload. -/
theorem verifyChecksum_append_iff {cs : List UInt8} (hlen : cs.length = checksumSize)
    (hcs : Symbols cs) :
    verifyChecksum pfx (payload ++ cs) = true ↔ cs = createChecksum pfx payload := by
  have hrun : polyMod (expandPrefix pfx ++ (payload ++ cs)) =
      checksumMod pfx payload ^^^ run 0 cs := by
    have hbehind : run 1 (expandPrefix pfx ++ (payload ++ cs)) = run (behind pfx payload) cs := by
      rw [← List.append_assoc, run_append]
      rfl
    rw [polyMod, hbehind, run_eq_xor, hlen, checksumMod]
    ac_rfl
  rw [verifyChecksum, beq_iff_eq, hrun]
  constructor
  · intro h
    have heq := BitVec.xor_eq_zero_iff.mp h
    rw [← run_createChecksum] at heq
    refine run_zero_injective ?_ hlen.le hcs (symbols_createChecksum pfx payload) heq.symm
    rw [hlen, length_createChecksum]
  · rintro rfl
    rw [run_createChecksum]
    exact BitVec.xor_self

/-- Two payloads that differ within a window of eight symbols are not both accepted. -/
theorem burst_detected {a x y b : List UInt8} (hlen : x.length = y.length) (h8 : x.length ≤ 8)
    (hx : Symbols x) (hy : Symbols y) (hvx : verifyChecksum pfx (a ++ (x ++ b)) = true)
    (hvy : verifyChecksum pfx (a ++ (y ++ b)) = true) : x = y := by
  have hrun : ∀ z : List UInt8, verifyChecksum pfx (a ++ (z ++ b)) = true →
      run (run (behind pfx a) z) b = 1 := by
    intro z hz
    rw [verifyChecksum, beq_iff_eq] at hz
    rw [← run_append]
    have hall : run 1 (expandPrefix pfx ++ (a ++ (z ++ b))) = run (behind pfx a) (z ++ b) := by
      rw [← List.append_assoc, run_append]
      rfl
    rw [← hall]
    exact BitVec.xor_eq_zero_iff.mp hz
  have hwindow := run_injective b (run_lt (behind_lt pfx a) x) (run_lt (behind_lt pfx a) y)
    ((hrun x hvx).trans (hrun y hvy).symm)
  rw [run_eq_xor _ x, run_eq_xor _ y, hlen] at hwindow
  exact run_zero_injective hlen h8 hx hy ((BitVec.xor_right_inj _).mp hwindow)

end Checksum

end CashAddr
end Shulcrum
