import Mathlib.Algebra.Order.Ring.Rat
import Shulcrum.Mempool.Model

/-!
# The fee histogram

`calcCompactFeeHistogram` collects the sizes of the transactions by fee rate and
cuts the rates, from the highest down, into bins.  A bin is closed when it is
larger than the bin size, which grows with every bin.  The amount of a fee is
narrowed to 32 bits before it is divided by the size.

The bin sizes are floating point numbers; here `binSize n` is the size after `n`
bins, and nothing is assumed about how it grows.

**Results.**
* `vsizeWhere_histogram`: what the collected histogram holds.
* `binsBelow_calc`: the bins are right for the fee rates that the code computes.
* `feeHistogram_iff`: they are right for the true fee rates if and only if no
  transaction is moved past another by the narrowing.
-/

namespace Shulcrum

/-- `Mempool::FeeHistogramItem`. -/
structure FeeHistogramItem where
  feeRate : Nat
  cumulativeSize : Nat
  deriving DecidableEq, Repr

namespace FeeHistogram

/-- The fee rate: the satoshis as an `unsigned`, per vbyte. -/
def feeRate (tx : Tx) : Nat := (tx.fee % 2 ^ 32).toNat / max tx.vsizeBytes 1

/-- `histogram[feeRate] += size`, in descending order of the rates. -/
def addSize (rate size : Nat) : List (Nat × Nat) → List (Nat × Nat)
  | [] => [(rate, size)]
  | e :: hist =>
      if e.1 < rate then (rate, size) :: e :: hist
      else if rate = e.1 then (rate, (e.2 + size) % 2 ^ 32) :: hist
      else e :: addSize rate size hist

/-- The sizes by fee rate; negative fees are skipped. -/
def histogram (txs : List Tx) : List (Nat × Nat) :=
  txs.foldl (fun hist tx => if tx.fee < 0 then hist else addSize (feeRate tx) tx.vsizeBytes hist) []

variable (binSize : Nat → ℚ)

/-- A big lump at the next rate: what was collected before it is added. -/
def addLump (n : Nat) (prevFeeRate : Option Nat) (cumSize size : Nat) :
    List FeeHistogramItem × Nat × Nat :=
  match prevFeeRate with
  | some prev =>
      if 2 * binSize n < (size : ℚ) ∧ 0 < cumSize then ([⟨prev, cumSize⟩], 0, n + 1)
      else ([], cumSize, n)
  | none => ([], cumSize, n)

/-- The loop that compacts the bins; `n` bins were added so far. -/
def compact (n : Nat) (prevFeeRate : Option Nat) (cumSize : Nat) :
    List (Nat × Nat) → List FeeHistogramItem
  | [] => []
  | (feeRate, size) :: hist =>
      let (added, before, n) := addLump binSize n prevFeeRate cumSize size
      let cumSize : Nat := (before + size) % 2 ^ 32
      if binSize n < (cumSize : ℚ) then
        added ++ ⟨feeRate, cumSize⟩ :: compact (n + 1) (some feeRate) 0 hist
      else added ++ compact n (some feeRate) cumSize hist

end FeeHistogram

/-- `Mempool::calcCompactFeeHistogram`. -/
def Mempool.calcCompactFeeHistogram (m : Mempool) (binSize : Nat → ℚ) : List FeeHistogramItem :=
  FeeHistogram.compact binSize 0 none 0 (FeeHistogram.histogram (m.txs.toList.map Prod.snd))

namespace FeeHistogram

/-! ## What the bins should hold -/

/-- The fee rate as it is defined, in satoshis per vbyte. -/
def trueFeeRate (tx : Tx) : Nat := tx.fee.toNat / tx.vsizeBytes

/-- The vsize of the transactions with a property. -/
def vsizeWhere (p : Tx → Prop) [DecidablePred p] (txs : List Tx) : Nat :=
  ((txs.filter p).map Tx.vsizeBytes).sum

/-- A rate is below the one before, if there is one. -/
def Below (rate : Nat) (prev : Option Nat) : Prop := ∀ r ∈ prev, rate < r

instance (rate : Nat) (prev : Option Nat) : Decidable (Below rate prev) := by
  unfold Below
  infer_instance

/-- The bins after a rate: their rates go down, and each holds the transactions
with a rate of at least its own and below the one before. -/
def BinsBelow (rateOf : Tx → Nat) (txs : List Tx) : Option Nat → List FeeHistogramItem → Prop
  | _, [] => True
  | prev, bin :: bins =>
      Below bin.feeRate prev ∧
      bin.cumulativeSize =
        vsizeWhere (fun tx => bin.feeRate ≤ rateOf tx ∧ Below (rateOf tx) prev) txs ∧
      BinsBelow rateOf txs (some bin.feeRate) bins

/-! ## Sums of vsizes -/

variable {p q : Tx → Prop} [DecidablePred p] [DecidablePred q] {txs : List Tx} {tx : Tx}

theorem vsizeWhere_cons (p : Tx → Prop) [DecidablePred p] (tx : Tx) (txs : List Tx) :
    vsizeWhere p (tx :: txs) = (if p tx then tx.vsizeBytes else 0) + vsizeWhere p txs := by
  unfold vsizeWhere
  by_cases hp : p tx
  · simp [hp]
  · simp [hp]

theorem vsizeWhere_congr (h : ∀ tx ∈ txs, p tx ↔ q tx) : vsizeWhere p txs = vsizeWhere q txs := by
  induction txs with
  | nil => rfl
  | cons tx txs ih =>
      obtain ⟨htx, htxs⟩ := List.forall_mem_cons.mp h
      rw [vsizeWhere_cons, vsizeWhere_cons, ih htxs]
      simp only [htx]

/-- The transactions with a property, those with another and those with either. -/
theorem vsizeWhere_add {r : Tx → Prop} [DecidablePred r]
    (hr : ∀ tx ∈ txs, r tx ↔ p tx ∨ q tx) (hpq : ∀ tx ∈ txs, ¬ (p tx ∧ q tx)) :
    vsizeWhere p txs + vsizeWhere q txs = vsizeWhere r txs := by
  induction txs with
  | nil => rfl
  | cons tx txs ih =>
      obtain ⟨hrtx, hrtxs⟩ := List.forall_mem_cons.mp hr
      obtain ⟨hpqtx, hpqtxs⟩ := List.forall_mem_cons.mp hpq
      have hsum := ih hrtxs hpqtxs
      simp only [vsizeWhere_cons, hrtx]
      by_cases hp : p tx
      · have hq : ¬ q tx := fun hq => hpqtx ⟨hp, hq⟩
        simp only [hp, hq, if_true, if_false, or_false]
        omega
      · by_cases hq : q tx
        · simp only [hp, hq, if_true, if_false, or_true]
          omega
        · simp only [hp, hq, if_false, or_self]
          omega

theorem vsizeWhere_le (h : ∀ tx ∈ txs, p tx → q tx) : vsizeWhere p txs ≤ vsizeWhere q txs := by
  have hsum := vsizeWhere_add (p := p) (q := fun tx => q tx ∧ ¬ p tx) (r := q)
    (fun tx htx => by
      have hpq := h tx htx
      tauto) (fun tx (_ : tx ∈ txs) => by tauto)
  omega

/-- A transaction more makes a sum larger. -/
theorem vsizeWhere_lt (h : ∀ tx ∈ txs, p tx → q tx) (htx : tx ∈ txs) (hp : ¬ p tx) (hq : q tx)
    (hpos : 0 < tx.vsizeBytes) : vsizeWhere p txs < vsizeWhere q txs := by
  have hsum := vsizeWhere_add (p := p) (q := fun tx => q tx ∧ ¬ p tx) (r := q)
    (fun tx htx => by
      have hpq := h tx htx
      tauto) (fun tx (_ : tx ∈ txs) => by tauto)
  have hmem : tx.vsizeBytes ≤ vsizeWhere (fun tx => q tx ∧ ¬ p tx) txs := by
    refine List.single_le_sum (fun _ _ => Nat.zero_le _) _ ?_
    exact List.mem_map_of_mem (List.mem_filter.mpr ⟨htx, by simp [hp, hq]⟩)
  omega

/-! ## The collected histogram -/

/-- The sizes in a histogram at the rates with a property. -/
def sizeWhere (p : Nat → Prop) [DecidablePred p] (hist : List (Nat × Nat)) : Nat :=
  ((hist.filter fun e => p e.1).map Prod.snd).sum

theorem sizeWhere_cons (p : Nat → Prop) [DecidablePred p] (e : Nat × Nat)
    (hist : List (Nat × Nat)) :
    sizeWhere p (e :: hist) = (if p e.1 then e.2 else 0) + sizeWhere p hist := by
  unfold sizeWhere
  by_cases hp : p e.1
  · simp [hp]
  · simp [hp]

/-- The rates go down. -/
def Descending (hist : List (Nat × Nat)) : Prop := hist.Pairwise fun a b => b.1 < a.1

theorem mem_addSize {rate size : Nat} {hist : List (Nat × Nat)} {e : Nat × Nat}
    (h : e ∈ addSize rate size hist) : e.1 = rate ∨ e ∈ hist := by
  induction hist with
  | nil =>
      rw [addSize, List.mem_singleton] at h
      exact .inl (by rw [h])
  | cons a hist ih =>
      rw [addSize] at h
      split_ifs at h
      · rcases List.mem_cons.mp h with rfl | h
        · exact .inl rfl
        · exact .inr h
      · rcases List.mem_cons.mp h with rfl | h
        · exact .inl rfl
        · exact .inr (List.mem_cons_of_mem a h)
      · rcases List.mem_cons.mp h with rfl | h
        · exact .inr List.mem_cons_self
        · exact (ih h).imp_right (List.mem_cons_of_mem a)

theorem descending_addSize {hist : List (Nat × Nat)} (h : Descending hist) (rate size : Nat) :
    Descending (addSize rate size hist) := by
  induction hist with
  | nil => exact List.pairwise_singleton _ _
  | cons e hist ih =>
      obtain ⟨hlt, hrest⟩ := List.pairwise_cons.mp h
      rw [addSize]
      split_ifs with hlow heq
      · refine List.pairwise_cons.mpr ⟨fun a ha => ?_, h⟩
        rcases List.mem_cons.mp ha with rfl | ha
        · exact hlow
        · exact (hlt a ha).trans hlow
      · subst heq
        exact List.pairwise_cons.mpr ⟨hlt, hrest⟩
      · refine List.pairwise_cons.mpr ⟨fun a ha => ?_, ih hrest⟩
        rcases mem_addSize ha with hk | ha
        · rw [hk]
          omega
        · exact hlt a ha

/-- A size is added at its rate. -/
theorem sizeWhere_addSize (p : Nat → Prop) [DecidablePred p] {rate size : Nat}
    {hist : List (Nat × Nat)} (hsum : (hist.map Prod.snd).sum + size < 2 ^ 32) :
    sizeWhere p (addSize rate size hist) = (if p rate then size else 0) + sizeWhere p hist := by
  induction hist with
  | nil => rw [addSize, sizeWhere_cons]
  | cons e hist ih =>
      rw [List.map_cons, List.sum_cons] at hsum
      rw [addSize]
      by_cases hlow : e.1 < rate
      · rw [if_pos hlow, sizeWhere_cons]
      · rw [if_neg hlow]
        by_cases heq : rate = e.1
        · have hmod : (e.2 + size) % 2 ^ 32 = e.2 + size := Nat.mod_eq_of_lt (by omega)
          rw [if_pos heq, hmod, sizeWhere_cons, sizeWhere_cons, ← heq]
          split_ifs
          · omega
          · omega
        · rw [if_neg heq, sizeWhere_cons, sizeWhere_cons, ih (by omega)]
          omega

theorem sum_eq_sizeWhere (hist : List (Nat × Nat)) :
    (hist.map Prod.snd).sum = sizeWhere (fun _ => True) hist := by
  simp [sizeWhere]

theorem pos_of_mem_addSize {rate size : Nat} (hsize : 0 < size) {hist : List (Nat × Nat)}
    (hpos : ∀ e ∈ hist, 0 < e.2) (hsum : (hist.map Prod.snd).sum + size < 2 ^ 32) :
    ∀ e ∈ addSize rate size hist, 0 < e.2 := by
  induction hist with
  | nil =>
      intro e he
      rw [addSize, List.mem_singleton] at he
      rw [he]
      exact hsize
  | cons a hist ih =>
      obtain ⟨ha, hrest⟩ := List.forall_mem_cons.mp hpos
      rw [List.map_cons, List.sum_cons] at hsum
      rw [addSize]
      split_ifs
      · exact List.forall_mem_cons.mpr ⟨hsize, hpos⟩
      · have hmod : (a.2 + size) % 2 ^ 32 = a.2 + size := Nat.mod_eq_of_lt (by omega)
        exact List.forall_mem_cons.mpr ⟨by rw [hmod]; omega, hrest⟩
      · exact List.forall_mem_cons.mpr ⟨ha, ih hrest (by omega)⟩

/-- What is assumed of the transactions: fees that are not negative, sizes, and a
total that fits 32 bits. -/
structure Sized (txs : List Tx) : Prop where
  fee : ∀ tx ∈ txs, 0 ≤ tx.fee
  vsize : ∀ tx ∈ txs, 0 < tx.vsizeBytes
  total : (txs.map Tx.vsizeBytes).sum < 2 ^ 32

/-- What a histogram of transactions holds. -/
structure Collected (txs : List Tx) (hist : List (Nat × Nat)) : Prop where
  descending : Descending hist
  pos : ∀ e ∈ hist, 0 < e.2
  rates : ∀ e ∈ hist, ∃ tx ∈ txs, feeRate tx = e.1
  sizes : ∀ (p : Nat → Prop) [DecidablePred p],
    sizeWhere p hist = vsizeWhere (fun tx => p (feeRate tx)) txs

theorem vsizeWhere_append (p : Tx → Prop) [DecidablePred p] (txs : List Tx) (tx : Tx) :
    vsizeWhere p (txs ++ [tx]) = vsizeWhere p txs + if p tx then tx.vsizeBytes else 0 := by
  unfold vsizeWhere
  by_cases hp : p tx
  · simp [hp]
  · simp [hp]

theorem vsizeWhere_true (txs : List Tx) :
    vsizeWhere (fun _ => True) txs = (txs.map Tx.vsizeBytes).sum := by
  simp [vsizeWhere]

theorem Sized.of_append {tx : Tx} (h : Sized (txs ++ [tx])) : Sized txs where
  fee x hx := h.fee x (List.mem_append_left _ hx)
  vsize x hx := h.vsize x (List.mem_append_left _ hx)
  total := by
    have htotal := h.total
    rw [List.map_append, List.sum_append] at htotal
    omega

/-- The transactions are collected at their rates. -/
theorem collected_histogram (h : Sized txs) : Collected txs (histogram txs) := by
  unfold histogram
  induction txs using List.reverseRecOn with
  | nil =>
      exact ⟨List.Pairwise.nil, fun _ he => (List.not_mem_nil he).elim,
        fun _ he => (List.not_mem_nil he).elim, fun _ _ => rfl⟩
  | append_singleton txs tx ih =>
      have hc := ih h.of_append
      have hfee := h.fee tx (List.mem_append_right txs List.mem_cons_self)
      have hsize := h.vsize tx (List.mem_append_right txs List.mem_cons_self)
      rw [List.foldl_append, List.foldl_cons, List.foldl_nil, if_neg (not_lt.mpr hfee)]
      generalize txs.foldl _ [] = hist at hc ⊢
      have hsum : (hist.map Prod.snd).sum + tx.vsizeBytes < 2 ^ 32 := by
        have htotal := h.total
        rw [List.map_append, List.sum_append, ← vsizeWhere_true txs] at htotal
        rw [sum_eq_sizeWhere, hc.sizes]
        simpa using htotal
      refine ⟨descending_addSize hc.descending _ _, pos_of_mem_addSize hsize hc.pos hsum,
        fun e he => ?_, fun p _ => ?_⟩
      · rcases mem_addSize he with hrate | he
        · exact ⟨tx, List.mem_append_right txs List.mem_cons_self, hrate.symm⟩
        · obtain ⟨x, hx, hrate⟩ := hc.rates e he
          exact ⟨x, List.mem_append_left _ hx, hrate⟩
      · rw [sizeWhere_addSize p hsum, hc.sizes p, vsizeWhere_append, Nat.add_comm]

/-! ## Cutting it into bins -/

/-- The bins of consecutive parts of a histogram: each has the last rate of its
part and the sum of its sizes. -/
inductive Cuts : List (Nat × Nat) → List FeeHistogramItem → Prop
  | nil {hist : List (Nat × Nat)} : Cuts hist []
  | cons {part hist : List (Nat × Nat)} {last : Nat × Nat} {bins : List FeeHistogramItem} :
      Cuts hist bins → Cuts (part ++ last :: hist)
        (⟨last.1, ((part ++ [last]).map Prod.snd).sum⟩ :: bins)

/-- What was collected since the last bin. -/
structure Pending (prevFeeRate : Option Nat) (cumSize : Nat) (part : List (Nat × Nat)) : Prop where
  size : (part.map Prod.snd).sum = cumSize
  rate : 0 < cumSize → ∃ init last, part = init ++ [last] ∧ prevFeeRate = some last.1

theorem pending_nil (prevFeeRate : Option Nat) : Pending prevFeeRate 0 [] :=
  ⟨rfl, fun h => absurd h (lt_irrefl 0)⟩

theorem pending_append {part : List (Nat × Nat)} {prevFeeRate : Option Nat} {cumSize : Nat}
    (h : Pending prevFeeRate cumSize part) (e : Nat × Nat) :
    Pending (some e.1) (cumSize + e.2) (part ++ [e]) where
  size := by rw [List.map_append, List.sum_append, h.size, List.map_singleton, List.sum_singleton]
  rate _ := ⟨part, e, rfl, rfl⟩

variable (binSize : Nat → ℚ)

/-- A lump adds a bin of what is pending, or nothing. -/
theorem addLump_cases {n : Nat} {prevFeeRate : Option Nat} {cumSize : Nat} (size : Nat)
    {part : List (Nat × Nat)} (h : Pending prevFeeRate cumSize part) :
    addLump binSize n prevFeeRate cumSize size = ([], cumSize, n) ∨
    ∃ init last, part = init ++ [last] ∧
      addLump binSize n prevFeeRate cumSize size = ([⟨last.1, cumSize⟩], 0, n + 1) := by
  unfold addLump
  cases prevFeeRate with
  | none => exact .inl rfl
  | some prev =>
      dsimp only
      split_ifs with hlump
      · obtain ⟨init, last, hpart, hrate⟩ := h.rate hlump.2
        cases hrate
        exact .inr ⟨init, last, hpart, rfl⟩
      · exact .inl rfl

/-- The loop cuts what is pending and what follows. -/
theorem cuts_compact {hist part : List (Nat × Nat)} {n : Nat} {prevFeeRate : Option Nat}
    {cumSize : Nat} (h : Pending prevFeeRate cumSize part)
    (hsum : ((part ++ hist).map Prod.snd).sum < 2 ^ 32) :
    Cuts (part ++ hist) (compact binSize n prevFeeRate cumSize hist) := by
  induction hist generalizing part n prevFeeRate cumSize with
  | nil => exact .nil
  | cons e hist ih =>
      obtain ⟨feeRate, size⟩ := e
      -- the item itself is added to what is pending, and may close a bin
      have hitem : ∀ {part : List (Nat × Nat)} {n : Nat} {prevFeeRate : Option Nat}
          {cumSize : Nat}, Pending prevFeeRate cumSize part →
          ((part ++ (feeRate, size) :: hist).map Prod.snd).sum < 2 ^ 32 →
          Cuts (part ++ (feeRate, size) :: hist)
            (if binSize n < (((cumSize + size) % 2 ^ 32 : Nat) : ℚ) then
              ⟨feeRate, (cumSize + size) % 2 ^ 32⟩ :: compact binSize (n + 1) (some feeRate) 0 hist
            else compact binSize n (some feeRate) ((cumSize + size) % 2 ^ 32) hist) := by
        intro part n prevFeeRate cumSize h hsum
        have hpend := pending_append h (feeRate, size)
        have hlen := hsum
        rw [List.append_cons, List.map_append, List.sum_append, hpend.size] at hlen
        have hmod : (cumSize + size) % 2 ^ 32 = cumSize + size := Nat.mod_eq_of_lt (by
          dsimp only at hlen
          omega)
        rw [hmod]
        split_ifs
        · rw [← hpend.size]
          exact .cons (ih (pending_nil _) (by
            rw [List.nil_append]
            omega))
        · rw [List.append_cons]
          refine ih hpend ?_
          rwa [← List.append_cons]
      rw [compact]
      rcases addLump_cases binSize (n := n) size h with hlump | ⟨init, last, rfl, hlump⟩
      · rw [hlump]
        exact hitem h hsum
      · rw [hlump, List.append_assoc, List.singleton_append, ← h.size]
        rw [List.append_assoc, List.singleton_append, List.map_append, List.sum_append,
          List.map_cons, List.sum_cons] at hsum
        have hrest := @hitem [] (n + 1) _ _ (pending_nil (some last.1)) (by
          rw [List.nil_append]
          omega)
        have hbins := @Cuts.cons init _ last _ hrest
        dsimp only
        split_ifs with hclose
        · rw [if_pos hclose] at hbins
          exact hbins
        · rw [if_neg hclose] at hbins
          exact hbins

theorem sizeWhere_append (p : Nat → Prop) [DecidablePred p] (hist hist' : List (Nat × Nat)) :
    sizeWhere p (hist ++ hist') = sizeWhere p hist + sizeWhere p hist' := by
  simp [sizeWhere]

theorem sizeWhere_of_forall {p : Nat → Prop} [DecidablePred p] {hist : List (Nat × Nat)}
    (h : ∀ e ∈ hist, p e.1) : sizeWhere p hist = (hist.map Prod.snd).sum := by
  rw [sizeWhere, List.filter_eq_self.mpr fun e he => decide_eq_true (h e he)]

theorem sizeWhere_of_none {p : Nat → Prop} [DecidablePred p] {hist : List (Nat × Nat)}
    (h : ∀ e ∈ hist, ¬ p e.1) : sizeWhere p hist = 0 := by
  rw [sizeWhere, List.filter_eq_nil_iff.mpr fun e he => by simpa using h e he]
  rfl

/-- The bins of a collected histogram, at the rates that were collected. -/
theorem binsBelow_of_cuts {hist pre : List (Nat × Nat)} {bins : List FeeHistogramItem}
    {prev : Option Nat} (hc : Collected txs (pre ++ hist)) (hcuts : Cuts hist bins)
    (hprev : ∀ r, (∃ e ∈ hist, e.1 = r) → Below r prev)
    (hpre : ∀ e ∈ pre, ¬ Below e.1 prev) :
    BinsBelow feeRate txs prev bins := by
  induction hcuts generalizing pre prev with
  | nil => trivial
  | @cons part hist last bins hcuts ih =>
      obtain ⟨-, hdesc, hfirst⟩ := List.pairwise_append.mp hc.descending
      obtain ⟨-, hlast, hparts⟩ := List.pairwise_append.mp hdesc
      have hafter : ∀ e ∈ hist, e.1 < last.1 := (List.pairwise_cons.mp hlast).1
      have hbelow : ∀ e ∈ part ++ last :: hist, Below e.1 prev := fun e he => hprev _ ⟨e, he, rfl⟩
      have hpart : ∀ e ∈ part ++ [last], last.1 ≤ e.1 := by
        intro e he
        rcases List.mem_append.mp he with he | he
        · exact (hparts e he last List.mem_cons_self).le
        · rw [List.mem_singleton.mp he]
      have hsplit : part ++ last :: hist = (part ++ [last]) ++ hist := List.append_cons _ _ _
      have hsizes := hc.sizes fun r => last.1 ≤ r ∧ Below r prev
      refine ⟨hbelow last (List.mem_append_right part List.mem_cons_self), ?_, ?_⟩
      · rw [← hsizes, sizeWhere_append, sizeWhere_of_none fun e he hp => hpre e he hp.2, hsplit,
          sizeWhere_append, sizeWhere_of_none fun e (he : e ∈ hist) hp =>
            absurd (hafter e he) (not_lt.mpr hp.1),
          sizeWhere_of_forall fun e he => ⟨hpart e he, hbelow e (by
            rw [hsplit]
            exact List.mem_append_left hist he)⟩]
        simp
      · rw [hsplit, ← List.append_assoc] at hc
        refine ih hc (fun r hr => ?_) fun e he => ?_
        · obtain ⟨e, he, rfl⟩ := hr
          rintro _ ⟨⟩
          exact hafter e he
        · intro hlt
          have hlt' : e.1 < last.1 := hlt last.1 rfl
          rcases List.mem_append.mp he with he | he
          · have hgt := hfirst e he last (List.mem_append_right part List.mem_cons_self)
            omega
          · have hle := hpart e he
            omega

/-- The bins are right for the rates that the code computes. -/
theorem binsBelow_calc (h : Sized txs) :
    BinsBelow feeRate txs none (compact binSize 0 none 0 (histogram txs)) := by
  have hc := collected_histogram h
  have hsum : (([] ++ histogram txs).map Prod.snd).sum < 2 ^ 32 := by
    rw [List.nil_append, sum_eq_sizeWhere, hc.sizes, vsizeWhere_true]
    exact h.total
  have hcuts := cuts_compact binSize (n := 0) (pending_nil none) hsum
  rw [List.nil_append] at hcuts
  rw [← List.nil_append (histogram txs)] at hc
  exact binsBelow_of_cuts hc hcuts (fun r _ => by simp [Below]) (by simp)

/-! ## The true rates -/

/-- Narrowing the fee lowers the rate, if it changes it. -/
theorem feeRate_le (h : Sized txs) (htx : tx ∈ txs) : feeRate tx ≤ trueFeeRate tx := by
  have hfee := h.fee tx htx
  have hsize := h.vsize tx htx
  rw [feeRate, trueFeeRate, max_eq_left hsize]
  refine Nat.div_le_div_right ?_
  obtain ⟨fee, hn⟩ := Int.eq_ofNat_of_zero_le hfee
  rw [hn]
  omega

theorem exists_mem_of_cuts {hist : List (Nat × Nat)} {bins : List FeeHistogramItem}
    (h : Cuts hist bins) : ∀ bin ∈ bins, ∃ e ∈ hist, e.1 = bin.feeRate := by
  induction h with
  | nil => exact fun _ hbin => (List.not_mem_nil hbin).elim
  | @cons part hist last bins _ ih =>
      refine List.forall_mem_cons.mpr
        ⟨⟨last, List.mem_append_right part List.mem_cons_self, rfl⟩, fun bin hbin => ?_⟩
      obtain ⟨e, he, hrate⟩ := ih bin hbin
      exact ⟨e, List.mem_append_right part (List.mem_cons_of_mem last he), hrate⟩

/-- Every bin has the rate of some transaction. -/
theorem exists_tx_of_bin (h : Sized txs) :
    ∀ bin ∈ compact binSize 0 none 0 (histogram txs), ∃ tx ∈ txs, feeRate tx = bin.feeRate := by
  have hc := collected_histogram h
  have hsum : (([] ++ histogram txs).map Prod.snd).sum < 2 ^ 32 := by
    rw [List.nil_append, sum_eq_sizeWhere, hc.sizes, vsizeWhere_true]
    exact h.total
  have hcuts := cuts_compact binSize (n := 0) (pending_nil none) hsum
  intro bin hbin
  obtain ⟨e, he, hrate⟩ := exists_mem_of_cuts hcuts bin hbin
  obtain ⟨tx, htx, htxRate⟩ := hc.rates e he
  exact ⟨tx, htx, htxRate.trans hrate⟩

/-- The fee rate of a fee modulo 2^32. -/
def wrappedRate (tx : Tx) : Nat := (tx.fee % 2 ^ 32).toNat / tx.vsizeBytes

/-- Wrapping the fees moves no transaction below the wrapped rate of another. -/
def KeepsOrder (txs : List Tx) : Prop :=
  ∀ tx ∈ txs, ∀ other ∈ txs, wrappedRate tx < wrappedRate other →
    trueFeeRate tx < wrappedRate other

theorem feeRate_eq_wrappedRate (h : Sized txs) (htx : tx ∈ txs) : feeRate tx = wrappedRate tx := by
  rw [feeRate, wrappedRate, max_eq_left (h.vsize tx htx)]

/-- Bins whose limits no transaction passes are right for the true rates too. -/
theorem binsBelow_true (h : Sized txs) (hkeep : KeepsOrder txs) {bins : List FeeHistogramItem}
    {prev : Option Nat} (hprev : ∀ r ∈ prev, ∃ other ∈ txs, feeRate other = r)
    (hbins : ∀ bin ∈ bins, ∃ other ∈ txs, feeRate other = bin.feeRate)
    (hb : BinsBelow feeRate txs prev bins) : BinsBelow trueFeeRate txs prev bins := by
  have hlimit : ∀ r, (∃ other ∈ txs, feeRate other = r) → ∀ tx ∈ txs,
      (feeRate tx < r ↔ trueFeeRate tx < r) := by
    rintro r ⟨other, hother, rfl⟩ tx htx
    refine ⟨fun hlt => ?_, (feeRate_le h htx).trans_lt⟩
    rw [feeRate_eq_wrappedRate h hother] at hlt ⊢
    rw [feeRate_eq_wrappedRate h htx] at hlt
    exact hkeep tx htx other hother hlt
  induction bins generalizing prev with
  | nil => trivial
  | cons bin bins ih =>
      obtain ⟨hbin, hrest⟩ := List.forall_mem_cons.mp hbins
      obtain ⟨hbelow, hsize, hb⟩ := hb
      refine ⟨hbelow, ?_, ih (by rintro _ ⟨⟩; exact hbin) hrest hb⟩
      rw [hsize]
      refine vsizeWhere_congr fun tx htx => and_congr ?_ ?_
      · rw [← not_lt, ← not_lt, hlimit _ hbin tx htx]
      · exact forall_congr' fun r => forall_congr' fun hr => hlimit r (hprev r hr) tx htx

/-! ## What a histogram promises -/

/-- In how many bins a transaction is counted. -/
def timesCounted (rateOf : Tx → Nat) (tx : Tx) : Option Nat → List FeeHistogramItem → Nat
  | _, [] => 0
  | prev, bin :: bins =>
      (if bin.feeRate ≤ rateOf tx ∧ Below (rateOf tx) prev then 1 else 0) +
        timesCounted rateOf tx (some bin.feeRate) bins

/-- A fee histogram of transactions by their true rates. -/
structure IsFeeHistogram (txs : List Tx) (bins : List FeeHistogramItem) : Prop where
  decreasing : bins.Pairwise fun a b => b.feeRate < a.feeRate
  sums : BinsBelow trueFeeRate txs none bins
  once : ∀ tx ∈ txs, timesCounted trueFeeRate tx none bins ≤ 1
  total : (bins.map FeeHistogramItem.cumulativeSize).sum ≤ (txs.map Tx.vsizeBytes).sum

variable {rateOf : Tx → Nat} {prev : Option Nat} {bins : List FeeHistogramItem}

theorem BinsBelow.below (h : BinsBelow rateOf txs prev bins) :
    ∀ bin ∈ bins, Below bin.feeRate prev := by
  induction bins generalizing prev with
  | nil => exact fun _ hbin => (List.not_mem_nil hbin).elim
  | cons bin bins ih =>
      obtain ⟨hbelow, -, hrest⟩ := h
      refine List.forall_mem_cons.mpr ⟨hbelow, fun b hb r hr => ?_⟩
      have hlt : b.feeRate < bin.feeRate := ih hrest b hb _ rfl
      exact hlt.trans (hbelow r hr)

theorem BinsBelow.decreasing (h : BinsBelow rateOf txs prev bins) :
    bins.Pairwise fun a b => b.feeRate < a.feeRate := by
  induction bins generalizing prev with
  | nil => exact List.Pairwise.nil
  | cons bin bins ih =>
      exact List.pairwise_cons.mpr ⟨fun b hb => h.2.2.below b hb _ rfl, ih h.2.2⟩

theorem BinsBelow.timesCounted_le (h : BinsBelow rateOf txs prev bins) (tx : Tx) :
    timesCounted rateOf tx prev bins ≤ if Below (rateOf tx) prev then 1 else 0 := by
  induction bins generalizing prev with
  | nil => exact Nat.zero_le _
  | cons bin bins ih =>
      obtain ⟨hbelow, -, hrest⟩ := h
      have hle := ih hrest
      have hiff : Below (rateOf tx) (some bin.feeRate) ↔ rateOf tx < bin.feeRate := by
        simp [Below]
      rw [timesCounted]
      by_cases hlow : rateOf tx < bin.feeRate
      · have hall : Below (rateOf tx) prev := fun r hr => hlow.trans (hbelow r hr)
        have hno : ¬ (bin.feeRate ≤ rateOf tx ∧ Below (rateOf tx) prev) := fun hp =>
          absurd hlow (not_lt.mpr hp.1)
        rw [if_neg hno, if_pos hall]
        rw [if_pos (hiff.mpr hlow)] at hle
        omega
      · rw [if_neg (fun hb => hlow (hiff.mp hb))] at hle
        split_ifs with h1 h2 h2
        · omega
        · exact absurd h1.2 h2
        · omega
        · omega

/-- The sizes of the first bins, down to a rate. -/
theorem BinsBelow.sum_prefix {pre post : List FeeHistogramItem} {bin : FeeHistogramItem}
    (h : BinsBelow rateOf txs prev (pre ++ bin :: post)) :
    ((pre ++ [bin]).map FeeHistogramItem.cumulativeSize).sum =
      vsizeWhere (fun tx => bin.feeRate ≤ rateOf tx ∧ Below (rateOf tx) prev) txs := by
  induction pre generalizing prev with
  | nil =>
      rw [List.nil_append, List.map_singleton, List.sum_singleton]
      exact h.2.1
  | cons first pre ih =>
      obtain ⟨hbelow, hsize, hrest⟩ := h
      have hlt : bin.feeRate < first.feeRate :=
        hrest.below bin (List.mem_append_right pre List.mem_cons_self) _ rfl
      rw [List.cons_append, List.map_cons, List.sum_cons, ih hrest, hsize]
      refine vsizeWhere_add (fun tx _ => ?_) fun tx _ hp => ?_
      · have hiff : Below (rateOf tx) (some first.feeRate) ↔ rateOf tx < first.feeRate := by
          simp [Below]
        rw [hiff]
        constructor
        · rintro ⟨hge, hb⟩
          by_cases hfirst : first.feeRate ≤ rateOf tx
          · exact .inl ⟨hfirst, hb⟩
          · exact .inr ⟨hge, not_le.mp hfirst⟩
        · rintro (⟨hge, hb⟩ | ⟨hge, hb⟩)
          · exact ⟨hlt.le.trans hge, hb⟩
          · exact ⟨hge, fun r hr => hb.trans (hbelow r hr)⟩
      · exact absurd (hp.2.2 _ rfl) (not_lt.mpr hp.1.1)

theorem BinsBelow.total_le (h : BinsBelow rateOf txs prev bins) :
    (bins.map FeeHistogramItem.cumulativeSize).sum ≤ (txs.map Tx.vsizeBytes).sum := by
  rw [← vsizeWhere_true txs]
  induction bins using List.reverseRecOn with
  | nil => exact Nat.zero_le _
  | append_singleton pre bin _ =>
      rw [BinsBelow.sum_prefix h]
      exact vsizeWhere_le fun _ _ _ => trivial

theorem isFeeHistogram_of_binsBelow (h : BinsBelow trueFeeRate txs none bins) :
    IsFeeHistogram txs bins where
  decreasing := h.decreasing
  sums := h
  once tx _ := (h.timesCounted_le tx).trans (by split_ifs <;> omega)
  total := h.total_le

/-! ## When narrowing does no harm -/

/-- With a bin size of zero every rate has its own bin. -/
theorem compact_zero {hist : List (Nat × Nat)} (hpos : ∀ e ∈ hist, 0 < e.2)
    (hsum : (hist.map Prod.snd).sum < 2 ^ 32) (n : Nat) (prevFeeRate : Option Nat) :
    compact (fun _ => 0) n prevFeeRate 0 hist = hist.map fun e => ⟨e.1, e.2⟩ := by
  induction hist generalizing n prevFeeRate with
  | nil => rfl
  | cons e hist ih =>
      obtain ⟨feeRate, size⟩ := e
      obtain ⟨hsize, hrest⟩ := List.forall_mem_cons.mp hpos
      rw [List.map_cons, List.sum_cons] at hsum
      have hmod : (0 + size) % 2 ^ 32 = size := by
        rw [Nat.zero_add]
        exact Nat.mod_eq_of_lt (by dsimp only at hsum; omega)
      have hlump : addLump (fun _ => 0) n prevFeeRate 0 size = ([], 0, n) := by
        unfold addLump
        cases prevFeeRate with
        | none => rfl
        | some prev => simp
      have hclose : (0 : ℚ) < (size : ℚ) := by exact_mod_cast hsize
      rw [compact, hlump]
      dsimp only
      rw [hmod, if_pos hclose, ih hrest (by omega)]
      rfl

/-- The rate of a transaction that was collected is a rate of the histogram. -/
theorem exists_mem_histogram (h : Sized txs) (htx : tx ∈ txs) :
    ∃ e ∈ histogram txs, e.1 = feeRate tx := by
  have hc := collected_histogram h
  by_contra hno
  have hzero : sizeWhere (· = feeRate tx) (histogram txs) = 0 :=
    sizeWhere_of_none fun e he heq => hno ⟨e, he, heq⟩
  rw [hc.sizes] at hzero
  have hmem : tx.vsizeBytes ≤ vsizeWhere (fun other => feeRate other = feeRate tx) txs := by
    refine List.single_le_sum (fun _ _ => Nat.zero_le _) _ ?_
    exact List.mem_map_of_mem (List.mem_filter.mpr ⟨htx, by simp⟩)
  have hpos := h.vsize tx htx
  omega

/-- If the bins of size zero are right, no transaction was moved. -/
theorem keepsOrder_of_isFeeHistogram (h : Sized txs)
    (hist : IsFeeHistogram txs (compact (fun _ => 0) 0 none 0 (histogram txs))) :
    KeepsOrder txs := by
  intro tx htx other hother hlt
  rw [← feeRate_eq_wrappedRate h htx, ← feeRate_eq_wrappedRate h hother] at hlt
  rw [← feeRate_eq_wrappedRate h hother]
  by_contra hge
  have hc := collected_histogram h
  have hsum : ((histogram txs).map Prod.snd).sum < 2 ^ 32 := by
    rw [sum_eq_sizeWhere, hc.sizes, vsizeWhere_true]
    exact h.total
  obtain ⟨e, he, hrate⟩ := exists_mem_histogram h hother
  obtain ⟨pre, post, hsplit⟩ := List.append_of_mem he
  have hcode := binsBelow_calc (fun _ => 0) h
  have htrue := hist.sums
  rw [compact_zero hc.pos hsum, hsplit, List.map_append, List.map_cons] at hcode htrue
  have hsame := hcode.sum_prefix.symm.trans htrue.sum_prefix
  refine absurd hsame (ne_of_lt (vsizeWhere_lt (fun x hx hp => ?_) htx ?_ ?_ (h.vsize tx htx)))
  · exact ⟨hp.1.trans (feeRate_le h hx), by simp [Below]⟩
  · rintro ⟨hp, -⟩
    dsimp only at hp
    omega
  · refine ⟨?_, by simp [Below]⟩
    dsimp only
    omega

/-- The transactions of a mempool. -/
def txsOf (m : Mempool) : List Tx := m.txs.toList.map Prod.snd

/-- The histogram of a mempool is right for every growing bin size if and only if
narrowing moves no transaction past another. -/
theorem feeHistogram_iff (m : Mempool) (h : Sized (txsOf m)) :
    (∀ binSize : Nat → ℚ, Monotone binSize →
      IsFeeHistogram (txsOf m) (m.calcCompactFeeHistogram binSize)) ↔ KeepsOrder (txsOf m) := by
  constructor
  · intro hall
    exact keepsOrder_of_isFeeHistogram h (hall (fun _ => 0) monotone_const)
  · intro hkeep binSize _
    exact isFeeHistogram_of_binsBelow (binsBelow_true h hkeep (by simp)
      (exists_tx_of_bin binSize h) (binsBelow_calc binSize h))

/-- A transaction that pays 2^32 satoshis for 200 vbytes. -/
def richTx : Tx := { hash := 1, sizeBytes := 200, vsizeBytes := 200, fee := 2 ^ 32 }

/-- A large transaction that pays 5 satoshis per vbyte. -/
def largeTx : Tx := { hash := 2, sizeBytes := 40000, vsizeBytes := 40000, fee := 200000 }

/-- A transaction that pays 2 satoshis per vbyte. -/
def cheapTx : Tx := { hash := 3, sizeBytes := 300, vsizeBytes := 300, fee := 600 }

/-- A mempool with the large transaction and the cheap one. -/
def largeMempool : Mempool := { txs := ((∅ : TxMap).insert 2 largeTx).insert 3 cheapTx }

/-- A mempool with the rich transaction and the large one. -/
def bothMempool : Mempool := { txs := ((∅ : TxMap).insert 1 richTx).insert 2 largeTx }

theorem txsOf_largeMempool : txsOf largeMempool = [largeTx, cheapTx] := by
  rfl

theorem txsOf_bothMempool : txsOf bothMempool = [richTx, largeTx] := by
  rfl

theorem sized_largeMempool : Sized (txsOf largeMempool) := by
  rw [txsOf_largeMempool]
  exact ⟨by decide, by decide, by decide⟩

theorem keepsOrder_largeMempool : KeepsOrder (txsOf largeMempool) := by
  rw [txsOf_largeMempool]
  unfold KeepsOrder
  decide

theorem feeHistogram_iff_large : KeepsOrder (txsOf largeMempool) ∧
    ((∀ binSize : Nat → ℚ, Monotone binSize →
      IsFeeHistogram (txsOf largeMempool) (largeMempool.calcCompactFeeHistogram binSize)) ↔
    KeepsOrder (txsOf largeMempool)) :=
  ⟨keepsOrder_largeMempool, feeHistogram_iff largeMempool sized_largeMempool⟩

/-- The bin sizes of the code with exact fractions. -/
def exactBinSize (n : Nat) : ℚ := 30000 * (11 / 10) ^ n

theorem monotone_exactBinSize : Monotone exactBinSize := by
  intro a b hab
  unfold exactBinSize
  gcongr
  norm_num

/-- The only bin is at 5 satoshis per vbyte, and the rich transaction is not in it. -/
theorem feeHistogram_wraps : Sized (txsOf bothMempool) ∧ Monotone exactBinSize ∧
    bothMempool.calcCompactFeeHistogram exactBinSize = [⟨5, 40000⟩] ∧
    ¬ IsFeeHistogram (txsOf bothMempool) (bothMempool.calcCompactFeeHistogram exactBinSize) := by
  have hbins : bothMempool.calcCompactFeeHistogram exactBinSize = [⟨5, 40000⟩] := by
    have hhist : histogram (txsOf bothMempool) = [(5, 40000), (0, 200)] := by
      rw [txsOf_bothMempool]
      decide
    have hcalc : bothMempool.calcCompactFeeHistogram exactBinSize =
        compact exactBinSize 0 none 0 (histogram (txsOf bothMempool)) := rfl
    rw [hcalc, hhist]
    norm_num [compact, addLump, exactBinSize]
  refine ⟨?_, monotone_exactBinSize, hbins, fun h => ?_⟩
  · rw [txsOf_bothMempool]
    exact ⟨by decide, by decide, by decide⟩
  · have hsum := h.sums
    rw [hbins, txsOf_bothMempool] at hsum
    exact absurd hsum.2.1 (by decide)

end FeeHistogram
end Shulcrum
