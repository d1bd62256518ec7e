import Mathlib.Data.Set.Card
import Shulcrum.DSProof
import Shulcrum.Lib.TreeMap

/-!
# The two tables of `DSPs` agree

A proof lists the transactions it affects, and the transaction table lists for
every transaction the proofs that affect it.  `Linked` says that the two tables
describe the same relation, that the transaction table has no empty entry and
that every proof affects its own transaction.  Every operation keeps it.

What an operation returns is compared with what it changed: the proofs that
differ between the two states, or the pairs that are linked in one state only.

**Results.**
* `linked_add`, `linked_addTx`, `linked_rm`, `linked_rmTx`: the four operations.
* `linked_run`: the tables agree after every run.
-/

namespace Shulcrum
namespace DSPs

section Links

open TreeMap

variable {d : DSPs} {m : Std.ExtTreeMap TxHash HashSet compare}
variable {ps : Std.ExtTreeMap Hash DSProof compare}

/-- The transaction table lists the proof `h` for `tx`. -/
def Lists (m : Std.ExtTreeMap TxHash HashSet compare) (tx : TxHash) (h : Hash) : Prop :=
  ∃ s, m[tx]? = some s ∧ h ∈ s

/-- The proof `h` is stored and affects `tx`. -/
def Affects (ps : Std.ExtTreeMap Hash DSProof compare) (h : Hash) (tx : TxHash) : Prop :=
  ∃ p, ps[h]? = some p ∧ tx ∈ p.descendants

/-- No transaction has an empty set of proofs. -/
def NoEmpty (m : Std.ExtTreeMap TxHash HashSet compare) : Prop :=
  ∀ (tx : TxHash) (s : HashSet), m[tx]? = some s → ∃ h, h ∈ s

/-- Every stored proof is filed under its hash and affects its own transaction. -/
def Filed (ps : Std.ExtTreeMap Hash DSProof compare) : Prop :=
  ∀ (h : Hash) (p : DSProof), ps[h]? = some p → p.hash = h ∧ p.txHash ∈ p.descendants

/-- The two tables describe the same relation. -/
structure Linked (d : DSPs) : Prop where
  lists_iff : ∀ tx h, Lists d.txDspsMap tx h ↔ Affects d.dsproofs h tx
  noEmpty : NoEmpty d.txDspsMap
  filed : Filed d.dsproofs

theorem linked_empty : Linked {} := by
  constructor
  · intro tx h
    simp [Lists, Affects]
  · intro tx s h
    simp at h
  · intro h p hp
    simp at hp

/-! ## One entry of the transaction table -/

theorem lists_link {t tx : TxHash} {k h : Hash} :
    Lists (link m t k) tx h ↔ (tx = t ∧ h = k) ∨ Lists m tx h := by
  simp only [Lists, link, get_alter]
  by_cases ht : t = tx
  · subst ht
    cases hm : m[t]? with
    | none =>
        have hmem : h ∈ (∅ : HashSet).insert k ↔ h = k ∨ h ∈ (∅ : HashSet) := mem_set_insert
        simp [hmem]
    | some s =>
        have hmem : h ∈ s.insert k ↔ h = k ∨ h ∈ s := mem_set_insert
        simp [hmem]
  · have ht' : tx ≠ t := fun h => ht h.symm
    simp [ht, ht']

theorem noEmpty_link {t : TxHash} {k : Hash} (hm : NoEmpty m) : NoEmpty (link m t k) := by
  intro tx s hs
  simp only [link, get_alter] at hs
  split_ifs at hs with ht
  · refine ⟨k, ?_⟩
    cases hs
    simp
  · exact hm tx s hs

theorem lists_foldl_link {l : List TxHash} {tx : TxHash} {k h : Hash} :
    Lists (l.foldl (fun m t => link m t k) m) tx h ↔ (tx ∈ l ∧ h = k) ∨ Lists m tx h := by
  induction l generalizing m with
  | nil => simp
  | cons t l ih =>
      rw [List.foldl_cons, ih, lists_link, List.mem_cons]
      tauto

theorem noEmpty_foldl_link {l : List TxHash} {k : Hash} (hm : NoEmpty m) :
    NoEmpty (l.foldl (fun m t => link m t k) m) := by
  induction l generalizing m with
  | nil => exact hm
  | cons t l ih => exact ih (noEmpty_link hm)

/-- What one round of the loop of `rm` leaves of the entries. -/
theorem lists_unlink {n : Nat} {t tx : TxHash} {k h : Hash} :
    Lists (unlink k (n, m) t).2 tx h ↔ Lists m tx h ∧ ¬ (tx = t ∧ h = k) := by
  simp only [unlink]
  cases hm : m[t]? with
  | none =>
      simp only [iff_self_and]
      intro hl hth
      obtain ⟨s, hs, -⟩ := hl
      rw [hth.1, hm] at hs
      cases hs
  | some s =>
      by_cases ht : t = tx
      · subst ht
        by_cases he : (s.erase k).isEmpty = true
        · have hall : ∀ h, h ∈ s → h = k := by
            intro h hmem
            by_contra hne
            have hin : h ∈ s.erase k := by
              simp [hmem, Ne.symm hne]
            simp [Std.ExtTreeSet.isEmpty_iff.mp he] at hin
          simp only [Lists, he, if_true, get_erase, hm, Option.some.injEq]
          simp only [reduceCtorEq, false_and, exists_false, true_and, false_iff, not_and, not_not,
            exists_eq_left']
          exact hall h
        · have hmem : h ∈ s.erase k ↔ h ≠ k ∧ h ∈ s := mem_set_erase
          simp only [Lists, he, get_insert, hm, Bool.false_eq_true, if_false, if_true,
            Option.some.injEq, exists_eq_left', hmem]
          tauto
      · have ht' : tx ≠ t := fun h => ht h.symm
        by_cases he : (s.erase k).isEmpty = true
        · simp [Lists, he, get_erase, ht, ht']
        · simp [Lists, he, get_insert, ht, ht']

theorem noEmpty_unlink {n : Nat} {t : TxHash} {k : Hash} (hm : NoEmpty m) :
    NoEmpty (unlink k (n, m) t).2 := by
  simp only [unlink]
  cases ht : m[t]? with
  | none => exact hm
  | some s =>
      intro tx s' hs'
      dsimp only at hs'
      split_ifs at hs' with he
      · rw [get_erase] at hs'
        split_ifs at hs'
        exact hm tx s' hs'
      · rw [get_insert] at hs'
        split_ifs at hs' with htx
        · cases hs'
          by_contra hno
          have hempty : s.erase k = ∅ :=
            Std.ExtTreeSet.eq_empty_iff_forall_not_mem.mpr fun a ha => hno ⟨a, ha⟩
          exact he (Std.ExtTreeSet.isEmpty_iff.mpr hempty)
        · exact hm tx s' hs'

/-! ## The loop of `rm` -/

theorem lists_foldl_unlink {l : List TxHash} {n : Nat} {tx : TxHash} {k h : Hash} :
    Lists (l.foldl (unlink k) (n, m)).2 tx h ↔ Lists m tx h ∧ ¬ (tx ∈ l ∧ h = k) := by
  induction l generalizing n m with
  | nil => simp
  | cons t l ih =>
      rw [List.foldl_cons, ← Prod.mk.eta (p := unlink k (n, m) t), ih, lists_unlink,
        List.mem_cons]
      tauto

theorem noEmpty_foldl_unlink {l : List TxHash} {n : Nat} {k : Hash} (hm : NoEmpty m) :
    NoEmpty (l.foldl (unlink k) (n, m)).2 := by
  induction l generalizing n m with
  | nil => exact hm
  | cons t l ih => exact ih (noEmpty_unlink hm)

theorem mem_unlink_of_ne {n : Nat} {t tx : TxHash} {k : Hash} (hne : tx ≠ t) :
    tx ∈ (unlink k (n, m) t).2 ↔ tx ∈ m := by
  simp only [mem_iff_getElem?, unlink]
  cases hm : m[t]? with
  | none => rfl
  | some s =>
      dsimp only
      split_ifs
      · simp [get_erase, Ne.symm hne]
      · simp [get_insert, Ne.symm hne]

/-- Every round counts one transaction as long as the transactions are linked. -/
theorem fst_foldl_unlink {l : List TxHash} (hl : l.Nodup) {n : Nat} {k : Hash}
    (hm : ∀ t ∈ l, t ∈ m) : (l.foldl (unlink k) (n, m)).1 = n + l.length := by
  induction l generalizing n m with
  | nil => rfl
  | cons t l ih =>
      obtain ⟨htl, hl⟩ := List.nodup_cons.mp hl
      obtain ⟨s, hs⟩ := mem_iff_getElem?.mp (hm t List.mem_cons_self)
      have hfst : (unlink k (n, m) t).1 = n + 1 := by
        simp [unlink, hs]
      rw [List.foldl_cons, ← Prod.mk.eta (p := unlink k (n, m) t), ih hl, hfst, List.length_cons]
      · omega
      · intro t' ht'
        have hne : t' ≠ t := fun h => htl (h ▸ ht')
        exact (mem_unlink_of_ne hne).mpr (hm t' (List.mem_cons_of_mem t ht'))

/-! ## One entry of the table of proofs -/

theorem affects_insert {k h : Hash} {p : DSProof} {tx : TxHash} :
    Affects (ps.insert k p) h tx ↔ (h = k ∧ tx ∈ p.descendants) ∨ (h ≠ k ∧ Affects ps h tx) := by
  simp only [Affects, get_insert]
  by_cases hk : k = h
  · subst hk
    simp
  · simp [hk, Ne.symm hk]

theorem affects_erase {k h : Hash} {tx : TxHash} :
    Affects (ps.erase k) h tx ↔ h ≠ k ∧ Affects ps h tx := by
  simp only [Affects, get_erase]
  by_cases hk : k = h
  · subst hk
    simp
  · simp [hk, Ne.symm hk]

theorem affects_of_get {h : Hash} {p : DSProof} {tx : TxHash} (hp : ps[h]? = some p) :
    Affects ps h tx ↔ tx ∈ p.descendants := by
  simp [Affects, hp]

theorem filed_insert {p : DSProof} (hps : Filed ps) (hown : p.txHash ∈ p.descendants) :
    Filed (ps.insert p.hash p) := by
  intro h q hq
  rw [get_insert] at hq
  split_ifs at hq with hk
  · cases hq
    exact ⟨hk, hown⟩
  · exact hps h q hq

theorem filed_erase {k : Hash} (hps : Filed ps) : Filed (ps.erase k) := by
  intro h q hq
  rw [get_erase] at hq
  split_ifs at hq
  exact hps h q hq

/-! ## What an operation changed -/

/-- The proofs that are not the same in the two states. -/
def changedProofs (d d' : DSPs) : Set Hash := {h | d.dsproofs[h]? ≠ d'.dsproofs[h]?}

/-- The pairs that are linked in one of the two states only. -/
def changedLinks (d d' : DSPs) : Set (TxHash × Hash) :=
  {e | ¬ (Lists d.txDspsMap e.1 e.2 ↔ Lists d'.txDspsMap e.1 e.2)}

theorem mem_changedProofs {d' : DSPs} {h : Hash} :
    h ∈ changedProofs d d' ↔ d.dsproofs[h]? ≠ d'.dsproofs[h]? := Iff.rfl

theorem mem_changedLinks {d' : DSPs} {tx : TxHash} {h : Hash} :
    (tx, h) ∈ changedLinks d d' ↔
      ¬ (Lists d.txDspsMap tx h ↔ Lists d'.txDspsMap tx h) := Iff.rfl

@[simp] theorem ncard_changedProofs_self : (changedProofs d d).ncard = 0 := by
  simp [changedProofs]

@[simp] theorem ncard_changedLinks_self : (changedLinks d d).ncard = 0 := by
  simp [changedLinks]

/-- A set with the elements of a tree set has its size. -/
theorem ncard_of_mem_iff {α : Type} [DecidableEq α] {A : Set α} {s : HashSet} (f : Hash → α)
    (hf : Function.Injective f) (h : ∀ a, a ∈ A ↔ ∃ k ∈ s, f k = a) : A.ncard = s.size := by
  have hA : A = ((s.toList.map f).toFinset : Set α) := by
    ext a
    simp [h]
  rw [hA, Set.ncard_coe_finset, List.toFinset_card_of_nodup ((nodup_set_toList s).map hf),
    List.length_map, Std.ExtTreeSet.length_toList]

/-! ## The operations -/

/-- `add` keeps the tables in agreement and tells whether it stored the proof. -/
theorem linked_add {d' : DSPs} {dsp : DSProof} {b : Bool} (hd : Linked d)
    (h : d.add dsp = .ok (b, d')) :
    Linked d' ∧ b.toNat = (changedProofs d d').ncard := by
  unfold add at h
  split_ifs at h with hown hmem
  · simp only [Except.ok.injEq, Prod.mk.injEq] at h
    obtain ⟨rfl, rfl⟩ := h
    exact ⟨hd, by simp⟩
  · simp only [Except.ok.injEq, Prod.mk.injEq] at h
    obtain ⟨rfl, rfl⟩ := h
    have hnew : d.dsproofs[dsp.hash]? = none := not_mem_iff_getElem?.mp hmem
    constructor
    · constructor
      · intro tx h
        rw [lists_foldl_link, affects_insert, hd.lists_iff, Std.ExtTreeSet.mem_toList]
        by_cases hk : h = dsp.hash
        · subst hk
          simp [Affects, hnew]
        · simp [hk]
      · exact noEmpty_foldl_link hd.noEmpty
      · exact filed_insert hd.filed hown
    · have hset : changedProofs d
          { dsproofs := d.dsproofs.insert dsp.hash dsp
            txDspsMap := dsp.descendants.toList.foldl (fun m t => link m t dsp.hash)
              d.txDspsMap } = {dsp.hash} := by
        ext h
        simp only [mem_changedProofs, get_insert, Set.mem_singleton_iff]
        by_cases hk : dsp.hash = h
        · subst hk
          simp [hnew]
        · simp [hk, Ne.symm hk]
      rw [hset]
      simp

open Classical in
/-- A new link is one change, an old one is none. -/
theorem ncard_changedLinks_link {d' : DSPs} {t : TxHash} {k : Hash}
    (hd' : d'.txDspsMap = link d.txDspsMap t k) :
    (changedLinks d d').ncard = if Lists d.txDspsMap t k then 0 else 1 := by
  split_ifs with hl
  · have hset : changedLinks d d' = ∅ := by
      ext ⟨tx, h⟩
      simp only [mem_changedLinks, hd', lists_link, Set.mem_empty_iff_false, iff_false, not_not]
      constructor
      · exact Or.inr
      · rintro (⟨rfl, rfl⟩ | hl')
        · exact hl
        · exact hl'
    simp [hset]
  · have hset : changedLinks d d' = {(t, k)} := by
      ext ⟨tx, h⟩
      simp only [mem_changedLinks, hd', lists_link, Set.mem_singleton_iff, Prod.mk.injEq]
      by_cases he : tx = t ∧ h = k
      · obtain ⟨rfl, rfl⟩ := he
        simp [hl]
      · simp [he]
    simp [hset]

/-- `addTx` keeps the tables in agreement and tells whether it made a new link. -/
theorem linked_addTx {dspHash : Hash} {txHash : TxHash} (hd : Linked d) :
    Linked (d.addTx dspHash txHash).2 ∧
      (d.addTx dspHash txHash).1.toNat = (changedLinks d (d.addTx dspHash txHash).2).ncard := by
  unfold addTx
  cases hp : d.dsproofs[dspHash]? with
  | none => exact ⟨hd, by simp⟩
  | some p =>
      obtain ⟨rfl, hown⟩ := hd.filed dspHash p hp
      have hlists : Lists d.txDspsMap txHash p.hash ↔ txHash ∈ p.descendants := by
        rw [hd.lists_iff, affects_of_get hp]
      constructor
      · constructor
        · intro tx h
          rw [lists_link, affects_insert, hd.lists_iff]
          by_cases hk : h = p.hash
          · subst hk
            have hmem : tx ∈ p.descendants.insert txHash ↔ tx = txHash ∨ tx ∈ p.descendants :=
              mem_set_insert
            simp [affects_of_get hp, hmem]
          · simp [hk]
        · exact noEmpty_link hd.noEmpty
        · have hown' : p.txHash ∈ p.descendants.insert txHash := by
            simp [hown]
          exact filed_insert (p := { p with descendants := p.descendants.insert txHash })
            hd.filed hown'
      · have hold : p.hash ∈ d.txDspsMap.getD txHash ∅ ↔ txHash ∈ p.descendants := by
          rw [← hlists, Lists, Std.ExtTreeMap.getD_eq_getD_getElem?]
          cases d.txDspsMap[txHash]? with
          | none => simp
          | some s => simp
        by_cases hin : txHash ∈ p.descendants
        · rw [ncard_changedLinks_link rfl, if_pos (hlists.mpr hin)]
          simp [hold, hin]
        · rw [ncard_changedLinks_link rfl, if_neg (mt hlists.mp hin)]
          simp [hold, hin]

/-- What `rm` leaves of the entries of a stored proof. -/
theorem lists_rm {k h : Hash} {p : DSProof} {tx : TxHash} (hp : d.dsproofs[k]? = some p) :
    Lists (d.rm k).2.txDspsMap tx h ↔
      Lists d.txDspsMap tx h ∧ ¬ (tx ∈ p.descendants ∧ h = k) := by
  simp only [rm, hp]
  rw [lists_foldl_unlink, Std.ExtTreeSet.mem_toList]

theorem noEmpty_rm {k : Hash} (hd : NoEmpty d.txDspsMap) : NoEmpty (d.rm k).2.txDspsMap := by
  unfold rm
  cases d.dsproofs[k]? with
  | none => exact hd
  | some p => exact noEmpty_foldl_unlink hd

theorem dsproofs_rm {k : Hash} {p : DSProof} (hp : d.dsproofs[k]? = some p) :
    (d.rm k).2.dsproofs = d.dsproofs.erase k := by
  simp [rm, hp]

/-- `rm` keeps the tables in agreement and returns the number of links it removed. -/
theorem linked_rm {k : Hash} (hd : Linked d) :
    Linked (d.rm k).2 ∧ (d.rm k).1 = (changedLinks d (d.rm k).2).ncard := by
  cases hp : d.dsproofs[k]? with
  | none =>
      have hrm : d.rm k = (0, d) := by simp [rm, hp]
      rw [hrm]
      exact ⟨hd, by simp⟩
  | some p =>
      have hlinked : ∀ tx, Lists d.txDspsMap tx k ↔ tx ∈ p.descendants := by
        intro tx
        rw [hd.lists_iff, affects_of_get hp]
      constructor
      · constructor
        · intro tx h
          rw [lists_rm hp, dsproofs_rm hp, affects_erase, ← hd.lists_iff]
          constructor
          · rintro ⟨hl, hne⟩
            refine ⟨fun hk => hne ⟨?_, hk⟩, hl⟩
            exact (hlinked tx).mp (hk ▸ hl)
          · rintro ⟨hk, hl⟩
            exact ⟨hl, fun he => hk he.2⟩
        · exact noEmpty_rm hd.noEmpty
        · rw [dsproofs_rm hp]
          exact filed_erase hd.filed
      · have hmem : ∀ t ∈ p.descendants.toList, t ∈ d.txDspsMap := by
          intro t ht
          obtain ⟨s, hs, -⟩ := (hlinked t).mpr (Std.ExtTreeSet.mem_toList.mp ht)
          exact mem_iff_getElem?.mpr ⟨s, hs⟩
        have hcount : (d.rm k).1 = p.descendants.size := by
          simp only [rm, hp]
          rw [fst_foldl_unlink (nodup_set_toList _) hmem, Std.ExtTreeSet.length_toList]
          omega
        rw [hcount, ncard_of_mem_iff (fun tx => (tx, k)) (fun _ _ h => (Prod.mk.inj h).1)]
        rintro ⟨tx, h⟩
        rw [mem_changedLinks, lists_rm hp]
        constructor
        · intro hne
          have hch : Lists d.txDspsMap tx h ∧ tx ∈ p.descendants ∧ h = k := by tauto
          exact ⟨tx, hch.2.1, by rw [hch.2.2]⟩
        · rintro ⟨t, ht, he⟩
          obtain ⟨rfl, rfl⟩ := Prod.mk.inj he
          have hl := (hlinked t).mpr ht
          tauto

/-! ## The loop of `rmTx` -/

/-- What becomes of a proof when a transaction leaves: it goes with its own transaction. -/
def detach (txHash : TxHash) (p : DSProof) : Option DSProof :=
  if p.txHash = txHash then none
  else some { p with descendants := p.descendants.erase txHash }

/-- In the loop of `rmTx` the entry of `txHash` is gone, and the proofs in `todo` are the ones
that still list it. -/
structure Detached (txHash : TxHash) (todo : List Hash) (d : DSPs) : Prop where
  lists_iff : ∀ tx h, Lists d.txDspsMap tx h ↔ tx ≠ txHash ∧ Affects d.dsproofs h tx
  affects_iff : ∀ h, Affects d.dsproofs h txHash ↔ h ∈ todo
  noEmpty : NoEmpty d.txDspsMap
  filed : Filed d.dsproofs

/-- The loop of `rmTx` starts with all proofs of the transaction. -/
theorem Linked.detached {txHash : TxHash} {s : HashSet} (hd : Linked d)
    (hs : d.txDspsMap[txHash]? = some s) :
    Detached txHash s.toList { d with txDspsMap := d.txDspsMap.erase txHash } := by
  constructor
  · intro tx h
    simp only [← hd.lists_iff, Lists, get_erase]
    by_cases ht : txHash = tx
    · simp [ht]
    · simp [ht, Ne.symm ht]
  · intro h
    simp only [← hd.lists_iff, Lists, hs, Std.ExtTreeSet.mem_toList]
    simp
  · intro tx s' hs'
    rw [get_erase] at hs'
    split_ifs at hs'
    exact hd.noEmpty tx s' hs'
  · exact hd.filed

theorem Detached.linked {txHash : TxHash} (hd : Detached txHash [] d) : Linked d := by
  constructor
  · intro tx h
    rw [hd.lists_iff]
    refine ⟨fun ha => ha.2, fun ha => ⟨?_, ha⟩⟩
    rintro rfl
    exact List.not_mem_nil ((hd.affects_iff h).mp ha)
  · exact hd.noEmpty
  · exact hd.filed

/-- The round of a proof about `txHash` itself. -/
theorem Detached.rm {txHash : TxHash} {k : Hash} {todo : List Hash} {p : DSProof}
    (hd : Detached txHash (k :: todo) d) (hk : k ∉ todo) (hp : d.dsproofs[k]? = some p) :
    Detached txHash todo (d.rm k).2 := by
  constructor
  · intro tx h
    rw [lists_rm hp, dsproofs_rm hp, affects_erase, hd.lists_iff]
    constructor
    · rintro ⟨⟨ht, ha⟩, hne⟩
      refine ⟨ht, fun hkh => hne ⟨?_, hkh⟩, ha⟩
      exact (affects_of_get hp).mp (hkh ▸ ha)
    · rintro ⟨ht, hkh, ha⟩
      exact ⟨⟨ht, ha⟩, fun he => hkh he.2⟩
  · intro h
    rw [dsproofs_rm hp, affects_erase, hd.affects_iff, List.mem_cons]
    constructor
    · rintro ⟨hne, he | hmem⟩
      · exact absurd he hne
      · exact hmem
    · intro hmem
      exact ⟨fun he => hk (he ▸ hmem), Or.inr hmem⟩
  · exact noEmpty_rm hd.noEmpty
  · rw [dsproofs_rm hp]
    exact filed_erase hd.filed

/-- The round of a proof about another transaction. -/
theorem Detached.erase {txHash : TxHash} {k : Hash} {todo : List Hash} {p : DSProof}
    (hd : Detached txHash (k :: todo) d) (hk : k ∉ todo) (hp : d.dsproofs[k]? = some p)
    (hne : p.txHash ≠ txHash) :
    Detached txHash todo { d with
      dsproofs := d.dsproofs.insert k { p with descendants := p.descendants.erase txHash } } := by
  have herase : ∀ t, t ∈ p.descendants.erase txHash ↔ t ≠ txHash ∧ t ∈ p.descendants :=
    fun t => mem_set_erase
  constructor
  · intro tx h
    rw [hd.lists_iff, affects_insert]
    by_cases hh : h = k
    · subst hh
      simp only [affects_of_get hp, herase]
      tauto
    · simp [hh]
  · intro h
    rw [affects_insert, herase, hd.affects_iff, List.mem_cons]
    by_cases hh : h = k
    · subst hh
      simp [hk]
    · simp [hh]
  · exact hd.noEmpty
  · obtain ⟨rfl, hown⟩ := hd.filed k p hp
    exact filed_insert (p := { p with descendants := p.descendants.erase txHash }) hd.filed
      ((herase p.txHash).mpr ⟨hne, hown⟩)

/-- One round of the loop of `rmTx`. -/
theorem Detached.round {txHash : TxHash} {k : Hash} {todo : List Hash} {n : Nat}
    (hd : Detached txHash (k :: todo) d) (hk : k ∉ todo) :
    (rmTxRound txHash (n, d) k).1 = n + 1 ∧
      Detached txHash todo (rmTxRound txHash (n, d) k).2 ∧
      ∀ h : Hash, (rmTxRound txHash (n, d) k).2.dsproofs[h]? =
        if h = k then d.dsproofs[k]?.bind (detach txHash) else d.dsproofs[h]? := by
  obtain ⟨p, hp, -⟩ := (hd.affects_iff k).mpr List.mem_cons_self
  obtain ⟨hhash, -⟩ := hd.filed k p hp
  unfold rmTxRound
  simp only [hp]
  split_ifs with hown
  · rw [hhash]
    refine ⟨rfl, hd.rm hk hp, ?_⟩
    intro h
    rw [dsproofs_rm hp, get_erase]
    by_cases hh : h = k
    · simp [hh, detach, hown]
    · simp [hh, Ne.symm hh]
  · refine ⟨rfl, hd.erase hk hp hown, ?_⟩
    intro h
    rw [get_insert]
    by_cases hh : h = k
    · simp [hh, detach, hown]
    · simp [hh, Ne.symm hh]

/-- The whole loop of `rmTx`. -/
theorem Detached.loop {txHash : TxHash} {todo : List Hash} {n : Nat} (htodo : todo.Nodup)
    (hd : Detached txHash todo d) :
    (todo.foldl (rmTxRound txHash) (n, d)).1 = n + todo.length ∧
      Linked (todo.foldl (rmTxRound txHash) (n, d)).2 ∧
      ∀ h : Hash, (todo.foldl (rmTxRound txHash) (n, d)).2.dsproofs[h]? =
        if h ∈ todo then d.dsproofs[h]?.bind (detach txHash) else d.dsproofs[h]? := by
  induction todo generalizing n d with
  | nil => exact ⟨rfl, hd.linked, fun h => by simp⟩
  | cons k todo ih =>
      obtain ⟨hk, htodo⟩ := List.nodup_cons.mp htodo
      obtain ⟨hcount, hround, hget⟩ := hd.round (n := n) hk
      obtain ⟨hcounts, hlinked, hgets⟩ := ih (n := (rmTxRound txHash (n, d) k).1) htodo hround
      rw [List.foldl_cons]
      refine ⟨?_, hlinked, ?_⟩
      · rw [hcounts, hcount, List.length_cons]
        omega
      · intro h
        rw [hgets, hget]
        by_cases hh : h = k
        · simp [hh, hk]
        · simp [hh]

/-- A proof that does not list the transaction is left as it is. -/
theorem detach_of_not_mem {txHash : TxHash} {p : DSProof} (hown : p.txHash ∈ p.descendants)
    (h : txHash ∉ p.descendants) : detach txHash p = some p := by
  have hne : p.txHash ≠ txHash := fun he => h (he ▸ hown)
  have herase : p.descendants.erase txHash = p.descendants := by
    apply Std.ExtTreeSet.ext_mem
    intro t
    rw [mem_set_erase]
    refine ⟨fun ht => ht.2, fun ht => ⟨?_, ht⟩⟩
    rintro rfl
    exact h ht
  simp [detach, hne, herase]

theorem detach_ne {txHash : TxHash} {p : DSProof} (h : txHash ∈ p.descendants) :
    detach txHash p ≠ some p := by
  unfold detach
  split_ifs
  · simp
  · intro he
    have hd : p.descendants.erase txHash = p.descendants :=
      congrArg DSProof.descendants (Option.some.inj he)
    rw [← hd] at h
    exact absurd rfl (mem_set_erase.mp h).1

/-- The proofs after `rmTx`. -/
theorem get_dsproofs_rmTx {txHash : TxHash} (hd : Linked d) (h : Hash) :
    (d.rmTx txHash).2.dsproofs[h]? = d.dsproofs[h]?.bind (detach txHash) := by
  have hsame : ¬ Affects d.dsproofs h txHash →
      d.dsproofs[h]? = d.dsproofs[h]?.bind (detach txHash) := by
    intro hno
    cases hp : d.dsproofs[h]? with
    | none => rfl
    | some p =>
        rw [affects_of_get hp] at hno
        simp [detach_of_not_mem (hd.filed h p hp).2 hno]
  unfold rmTx
  cases hs : d.txDspsMap[txHash]? with
  | none =>
      refine hsame fun ha => ?_
      obtain ⟨s, hs', -⟩ := (hd.lists_iff txHash h).mpr ha
      rw [hs] at hs'
      cases hs'
  | some s =>
      dsimp only
      rw [((hd.detached hs).loop (n := 0) (nodup_set_toList s)).2.2 h]
      split_ifs with hmem
      · rfl
      · refine hsame fun ha => ?_
        obtain ⟨s', hs', hh⟩ := (hd.lists_iff txHash h).mpr ha
        rw [hs] at hs'
        cases hs'
        exact hmem (Std.ExtTreeSet.mem_toList.mpr hh)

/-- `rmTx` keeps the tables in agreement and returns the number of proofs it changed. -/
theorem linked_rmTx {txHash : TxHash} (hd : Linked d) :
    Linked (d.rmTx txHash).2 ∧
      (d.rmTx txHash).1 = (changedProofs d (d.rmTx txHash).2).ncard := by
  cases hs : d.txDspsMap[txHash]? with
  | none =>
      have hrm : d.rmTx txHash = (0, d) := by simp [rmTx, hs]
      rw [hrm]
      exact ⟨hd, by simp⟩
  | some s =>
      have hrm : d.rmTx txHash = s.toList.foldl (rmTxRound txHash)
          (0, { d with txDspsMap := d.txDspsMap.erase txHash }) := by
        simp [rmTx, hs]
      obtain ⟨hcount, hlinked, -⟩ := (hd.detached hs).loop (n := 0) (nodup_set_toList s)
      rw [← hrm] at hcount hlinked
      refine ⟨hlinked, ?_⟩
      rw [hcount, Std.ExtTreeSet.length_toList, Nat.zero_add,
        ncard_of_mem_iff id Function.injective_id]
      intro h
      have hmem : h ∈ s ↔ Affects d.dsproofs h txHash := by
        rw [← hd.lists_iff, Lists, hs]
        simp
      simp only [mem_changedProofs, get_dsproofs_rmTx hd, id, exists_eq_right, hmem]
      cases hp : d.dsproofs[h]? with
      | none => simp [Affects, hp]
      | some p =>
          rw [affects_of_get hp, Option.bind_some]
          constructor
          · intro hne
            by_contra hno
            exact hne (detach_of_not_mem (hd.filed h p hp).2 hno).symm
          · intro hin he
            exact detach_ne hin he.symm

/-! ## Reading the tables -/

/-- The entry of a transaction is determined by its links. -/
theorem get_eq_of_lists_iff {m' : Std.ExtTreeMap TxHash HashSet compare} (hm : NoEmpty m)
    (hm' : NoEmpty m') {tx : TxHash} (h : ∀ k, Lists m tx k ↔ Lists m' tx k) :
    m[tx]? = m'[tx]? := by
  unfold Lists at h
  cases hs : m[tx]? with
  | none =>
      cases hs' : m'[tx]? with
      | none => rfl
      | some s' =>
          obtain ⟨k, hk⟩ := hm' tx s' hs'
          have hnone := (h k).mpr ⟨s', hs', hk⟩
          simp [hs] at hnone
  | some s =>
      cases hs' : m'[tx]? with
      | none =>
          obtain ⟨k, hk⟩ := hm tx s hs
          have hnone := (h k).mp ⟨s, hs, hk⟩
          simp [hs'] at hnone
      | some s' =>
          rw [Option.some.injEq]
          apply Std.ExtTreeSet.ext_mem
          intro k
          simpa [hs, hs'] using h k

theorem mem_foldl_dspHashes {l : List TxHash} {acc : HashSet} {h : Hash} :
    h ∈ l.foldl (fun acc txid =>
        ((d.dspHashesForTx txid).getD ∅).toList.foldl (·.insert ·) acc) acc ↔
      h ∈ acc ∨ ∃ u ∈ l, Lists d.txDspsMap u h := by
  have hone : ∀ u, h ∈ (d.dspHashesForTx u).getD ∅ ↔ Lists d.txDspsMap u h := by
    intro u
    rw [dspHashesForTx, Lists]
    cases d.txDspsMap[u]? with
    | none => simp
    | some s => simp
  induction l generalizing acc with
  | nil => simp
  | cons u l ih =>
      rw [List.foldl_cons]
      refine ih.trans ?_
      rw [mem_foldl_insert, Std.ExtTreeSet.mem_toList, hone, or_assoc]
      simp

theorem mem_foldl_descendants {l : List Hash} {acc : HashSet} {tx : TxHash} :
    tx ∈ l.foldl (fun acc dspHash =>
        match d.dsproofs[dspHash]? with
        | none => acc
        | some dsp => dsp.descendants.toList.foldl (·.insert ·) acc) acc ↔
      tx ∈ acc ∨ ∃ h ∈ l, Affects d.dsproofs h tx := by
  induction l generalizing acc with
  | nil => simp
  | cons h l ih =>
      rw [List.foldl_cons, ih]
      cases hp : d.dsproofs[h]? with
      | none => simp [Affects, hp]
      | some p =>
          dsimp only
          rw [mem_foldl_insert, Std.ExtTreeSet.mem_toList, or_assoc]
          simp [affects_of_get hp]

/-- `txsLinkedToTxs` collects the transactions of all proofs the given ones are linked to. -/
theorem mem_txsLinkedToTxs {txids : HashSet} {tx : TxHash} :
    tx ∈ d.txsLinkedToTxs txids ↔
      ∃ u ∈ txids, ∃ h, Lists d.txDspsMap u h ∧ Affects d.dsproofs h tx := by
  refine mem_foldl_descendants.trans ?_
  simp only [Std.ExtTreeSet.mem_toList, mem_foldl_dspHashes, Std.ExtTreeSet.not_mem_empty,
    false_or]
  constructor
  · rintro ⟨h, ⟨u, hu, hl⟩, ha⟩
    exact ⟨u, hu, h, hl, ha⟩
  · rintro ⟨u, hu, h, hl, ha⟩
    exact ⟨h, ⟨u, hu, hl⟩, ha⟩

/-- A transaction with a proof is among those linked to it. -/
theorem Linked.mem_txsLinkedToTxs {txids : HashSet} {tx : TxHash} {h : Hash} (hd : Linked d)
    (htx : tx ∈ txids) (hl : Lists d.txDspsMap tx h) : tx ∈ d.txsLinkedToTxs txids :=
  DSPs.mem_txsLinkedToTxs.mpr ⟨tx, htx, h, hl, (hd.lists_iff tx h).mp hl⟩

/-! ## Runs -/

/-- A call of one of the operations. -/
inductive Op
  | add (dsp : DSProof)
  | addTx (dspHash : Hash) (txHash : TxHash)
  | rm (hash : Hash)
  | rmTx (txHash : TxHash)
  | clear

/-- What a call returns, a flag as `0` or `1`, and the state after it. -/
def apply (d : DSPs) : Op → Except Exception (Option Nat) × DSPs
  | .add dsp =>
      match d.add dsp with
      -- `BadArgs` is thrown before the tables are touched
      | .error e => (.error e, d)
      | .ok (b, d') => (.ok (some b.toNat), d')
  | .addTx dspHash txHash =>
      (.ok (some (d.addTx dspHash txHash).1.toNat), (d.addTx dspHash txHash).2)
  | .rm hash => (.ok (some (d.rm hash).1), (d.rm hash).2)
  | .rmTx txHash => (.ok (some (d.rmTx txHash).1), (d.rmTx txHash).2)
  | .clear => (.ok none, {})

/-- The number of proofs or links that differ after a call, whichever the operation counts. -/
noncomputable def Op.changes (d d' : DSPs) : Op → Nat
  | .add _ => (changedProofs d d').ncard
  | .addTx _ _ => (changedLinks d d').ncard
  | .rm _ => (changedLinks d d').ncard
  | .rmTx _ => (changedProofs d d').ncard
  | .clear => 0

/-- The returned value of a call is the number of its changes, and a failed call has none. -/
def Counted (d : DSPs) (op : Op) : Prop :=
  match (d.apply op).1 with
  | .error _ => (d.apply op).2 = d
  | .ok none => op = .clear
  | .ok (some n) => n = op.changes d (d.apply op).2

/-- The state after a run that starts with no proofs. -/
def run (ops : List Op) : DSPs := ops.foldl (fun d op => (d.apply op).2) {}

/-- One call keeps the tables in agreement and counts its changes. -/
theorem linked_apply (hd : Linked d) (op : Op) : Linked (d.apply op).2 ∧ Counted d op := by
  cases op with
  | add dsp =>
      cases h : d.add dsp with
      | error e =>
          refine ⟨?_, ?_⟩
          · simpa [apply, h] using hd
          · simp [Counted, apply, h]
      | ok r =>
          obtain ⟨b, d'⟩ := r
          obtain ⟨hlinked, hcount⟩ := linked_add hd h
          refine ⟨?_, ?_⟩
          · simpa [apply, h] using hlinked
          · simpa [Counted, apply, h, Op.changes] using hcount
  | addTx dspHash txHash => exact linked_addTx hd
  | rm hash => exact linked_rm hd
  | rmTx txHash => exact linked_rmTx hd
  | clear => exact ⟨linked_empty, rfl⟩

theorem linked_foldl_apply (hd : Linked d) (ops : List Op) :
    Linked (ops.foldl (fun d op => (d.apply op).2) d) := by
  induction ops generalizing d with
  | nil => exact hd
  | cons op ops ih => exact ih (linked_apply hd op).1

/-- After every run the two tables agree, and the next call returns the number of its changes. -/
theorem linked_run (ops : List Op) (op : Op) : Linked (run ops) ∧ Counted (run ops) op := by
  have hrun : Linked (run ops) := linked_foldl_apply linked_empty ops
  exact ⟨hrun, (linked_apply hrun op).2⟩

end Links

end DSPs
end Shulcrum
