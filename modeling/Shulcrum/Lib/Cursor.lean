import Mathlib.Data.List.Basic
import Mathlib.Tactic

/-!
# Readers with a cursor and unchecked views

A reader walks through a buffer of fixed size.  It may look at bytes without
checking that they are there, and it may ask for memory.  A view past the end
and memory that is not there are failures of their own, so that a reader can be
shown never to do anything but accept or reject.

**Results.**
* `Safe.bind`, `Safe.many`: readers built from safe readers are safe.
* `Reads.bind`, `Reads.many`: a sequence of readers reads what stands in the
  buffer one after the other.
-/

namespace Shulcrum
namespace Cursor

/-- How a reader fails. -/
inductive Failure where
  | rejected (msg : String)
  | outOfBounds
  | badAlloc
  deriving DecidableEq, Repr

/-- A reader takes a position and returns a value and the next position. -/
abbrev Reader (α : Type) := Nat → Except Failure (α × Nat)

section Defs

variable {ι α β : Type}

/-- The next `n` bytes, whether they are there or not. -/
def view (b : List ι) (n : Nat) : Reader (List ι) := fun cur =>
  if cur + n ≤ b.length then .ok ((b.drop cur).take n, cur + n) else .error .outOfBounds

/-- Reject the buffer unless the condition holds at the position. -/
def check (c : Nat → Prop) [DecidablePred c] (msg : String) : Reader Unit := fun cur =>
  if c cur then .ok ((), cur) else .error (.rejected msg)

/-- Ask for memory, which is there or not. -/
def reserve (there : Bool) : Reader Unit := fun cur =>
  if there then .ok ((), cur) else .error .badAlloc

/-- One reader after another. -/
def bind (r : Reader α) (f : α → Reader β) : Reader β := fun cur =>
  match r cur with
  | .error e => .error e
  | .ok (a, cur) => f a cur

/-- A value without reading. -/
def ret (a : α) : Reader α := fun cur => .ok (a, cur)

/-- Read a number of items. -/
def many (r : Reader α) : Nat → Reader (List α)
  | 0 => ret []
  | k + 1 => bind r fun a => bind (many r k) fun l => ret (a :: l)

instance : Monad Reader where
  pure := ret
  bind := bind

/-- A check that fails ends the reading. -/
theorem check_bind_of_not {c : Nat → Prop} [DecidablePred c] {msg : String} {f : Unit → Reader β}
    {cur : Nat} (hc : ¬ c cur) : (check c msg >>= f) cur = .error (.rejected msg) := by
  have hdef : (check c msg >>= f) cur = bind (check c msg) f cur := rfl
  rw [hdef, bind, check, if_neg hc]

/-- A check that holds changes nothing. -/
theorem check_bind_of {c : Nat → Prop} [DecidablePred c] {msg : String} {f : Unit → Reader β}
    {cur : Nat} (hc : c cur) : (check c msg >>= f) cur = f () cur := by
  have hdef : (check c msg >>= f) cur = bind (check c msg) f cur := rfl
  rw [hdef, bind, check, if_pos hc]

/-- A reader whose first step succeeds. -/
theorem bind_of_ok {r : Reader α} {f : α → Reader β} {cur next : Nat} {a : α}
    (h : r cur = .ok (a, next)) : (r >>= f) cur = f a next := by
  have hdef : (r >>= f) cur = bind r f cur := rfl
  rw [hdef, bind, h]

/-- A reader whose first step fails. -/
theorem bind_of_error {r : Reader α} {f : α → Reader β} {cur : Nat} {e : Failure}
    (h : r cur = .error e) : (r >>= f) cur = .error e := by
  have hdef : (r >>= f) cur = bind r f cur := rfl
  rw [hdef, bind, h]

end Defs

section Safety

variable {ι α β : Type} {b : List ι}

/-- The reader accepts or rejects from the positions with `pre`, and ends with `post`. -/
def Safe (pre : Nat → Prop) (r : Reader α) (post : Nat → Prop) : Prop :=
  ∀ cur, pre cur → (∀ e, r cur = .error e → ∃ msg, e = .rejected msg) ∧
    ∀ a next, r cur = .ok (a, next) → post next

theorem Safe.view {n : Nat} : Safe (fun cur => cur + n ≤ b.length) (view b n)
    (fun cur => cur ≤ b.length) := by
  intro cur hcur
  rw [Cursor.view, if_pos hcur]
  refine ⟨by simp, ?_⟩
  intro a next h
  cases h
  exact hcur

/-- A view at a known position. -/
theorem Safe.view_at {c n : Nat} (h : c + n ≤ b.length) :
    Safe (fun cur => cur = c) (Cursor.view b n) (fun cur => cur = c + n) := by
  rintro cur rfl
  rw [Cursor.view, if_pos h]
  refine ⟨by simp, ?_⟩
  intro a next hok
  cases hok
  rfl

theorem Safe.check {c : Nat → Prop} [DecidablePred c] {msg : String} {pre : Nat → Prop} :
    Safe pre (check c msg) (fun cur => pre cur ∧ c cur) := by
  intro cur hcur
  unfold Cursor.check
  split_ifs with hc
  · refine ⟨by simp, ?_⟩
    intro a next h
    cases h
    exact ⟨hcur, hc⟩
  · refine ⟨by simp, ?_⟩
    intro a next h
    cases h

theorem Safe.reserve {there : Bool} {pre : Nat → Prop} (hthere : there = true) :
    Safe pre (reserve there) pre := by
  intro cur hcur
  rw [Cursor.reserve, if_pos hthere]
  refine ⟨by simp, ?_⟩
  intro a next h
  cases h
  exact hcur

theorem Safe.ret {a : α} {pre : Nat → Prop} : Safe pre (ret a) pre := by
  intro cur hcur
  refine ⟨by simp [Cursor.ret], ?_⟩
  intro a' next h
  cases h
  exact hcur

theorem Safe.bind {r : Reader α} {f : α → Reader β} {pre mid post : Nat → Prop}
    (hr : Safe pre r mid) (hf : ∀ a, Safe mid (f a) post) : Safe pre (r >>= f) post := by
  intro cur hcur
  obtain ⟨hrej, hnext⟩ := hr cur hcur
  have hdef : (r >>= f) cur = Cursor.bind r f cur := rfl
  rw [hdef, Cursor.bind]
  cases hread : r cur with
  | error e =>
      refine ⟨?_, ?_⟩
      · intro e' h
        cases h
        exact hrej e hread
      · intro a next h
        cases h
  | ok p => exact hf p.1 p.2 (hnext p.1 p.2 hread)

theorem Safe.weaken {r : Reader α} {pre pre' post post' : Nat → Prop} (h : Safe pre r post)
    (hpre : ∀ cur, pre' cur → pre cur) (hpost : ∀ cur, post cur → post' cur) :
    Safe pre' r post' := by
  intro cur hcur
  obtain ⟨hrej, hnext⟩ := h cur (hpre cur hcur)
  exact ⟨hrej, fun a next ha => hpost next (hnext a next ha)⟩

theorem Safe.many {r : Reader α} {inv : Nat → Prop} (h : Safe inv r inv) (k : Nat) :
    Safe inv (many r k) inv := by
  induction k with
  | zero => exact Safe.ret
  | succ k ih => exact h.bind fun a => ih.bind fun l => Safe.ret

end Safety

section Reads

variable {ι α β : Type} {b : List ι}

/-- Where `x` and then `rest` remain of the buffer, the reader reads `x` as `a`. -/
def Reads (b : List ι) (r : Reader α) (x rest : List ι) (a : α) : Prop :=
  ∀ cur, cur ≤ b.length → b.drop cur = x ++ rest → r cur = .ok (a, cur + x.length)

/-- How much remains of the buffer. -/
theorem add_length_eq {cur : Nat} {x : List ι} (hcur : cur ≤ b.length) (h : b.drop cur = x) :
    cur + x.length = b.length := by
  have hlen := congrArg List.length h
  rw [List.length_drop] at hlen
  omega

theorem Reads.ret (a : α) (rest : List ι) : Reads b (ret a) [] rest a := by
  intro cur _ _
  rfl

theorem Reads.view {x : List ι} {n : Nat} (hn : x.length = n) (rest : List ι) :
    Reads b (view b n) x rest x := by
  intro cur hcur h
  have hlen := add_length_eq hcur h
  rw [List.length_append] at hlen
  have hin : cur + n ≤ b.length := by omega
  rw [Cursor.view, if_pos hin, h, ← hn, List.take_left]

theorem Reads.bind {r : Reader α} {f : α → Reader β} {x y rest : List ι} {a : α} {c : β}
    (hr : Reads b r x (y ++ rest) a) (hf : Reads b (f a) y rest c) :
    Reads b (r >>= f) (x ++ y) rest c := by
  intro cur hcur h
  rw [List.append_assoc] at h
  have hlen := add_length_eq hcur h
  rw [List.length_append] at hlen
  have hdef : (r >>= f) cur = Cursor.bind r f cur := rfl
  have hdrop : b.drop (cur + x.length) = y ++ rest := by
    rw [← List.drop_drop, h, List.drop_left]
  rw [hdef, Cursor.bind, hr cur hcur h]
  simp only [hf _ (by omega) hdrop, List.length_append, Nat.add_assoc]

/-- The last reader of a sequence reads nothing. -/
theorem Reads.map {r : Reader α} {f : α → Reader β} {x rest : List ι} {a : α} {c : β}
    (hr : Reads b r x rest a) (hf : Reads b (f a) [] rest c) : Reads b (r >>= f) x rest c := by
  have hbind := Reads.bind (y := []) hr hf
  rw [List.append_nil] at hbind
  exact hbind

/-- A check that holds where the buffer has this much left. -/
theorem Reads.check {c : Nat → Prop} [DecidablePred c] {msg : String} {f : Unit → Reader β}
    {x rest : List ι} {a : β}
    (hc : ∀ cur, cur + (x ++ rest).length = b.length → c cur) (hr : Reads b (f ()) x rest a) :
    Reads b (check c msg >>= f) x rest a := by
  intro cur hcur h
  have hdef : (Cursor.check c msg >>= f) cur =
      Cursor.bind (Cursor.check c msg) f cur := rfl
  rw [hdef, Cursor.bind, Cursor.check, if_pos (hc cur (add_length_eq hcur h))]
  exact hr cur hcur h

/-- Memory that is there. -/
theorem Reads.reserve {there : Bool} {f : Unit → Reader β} {x rest : List ι} {a : β}
    (hthere : there = true) (hr : Reads b (f ()) x rest a) :
    Reads b (reserve there >>= f) x rest a := by
  intro cur hcur h
  have hdef : (Cursor.reserve there >>= f) cur = Cursor.bind (Cursor.reserve there) f cur := rfl
  rw [hdef, Cursor.bind, Cursor.reserve, if_pos hthere]
  exact hr cur hcur h

theorem Reads.many {r : Reader α} {enc : α → List ι} {l : List α} {rest : List ι}
    (h : ∀ a ∈ l, ∀ rest, Reads b r (enc a) rest a) :
    Reads b (many r l.length) (l.flatMap enc) rest l := by
  induction l with
  | nil => exact Reads.ret [] rest
  | cons a l ih =>
      have hl := ih fun a' ha' => h a' (List.mem_cons_of_mem _ ha')
      exact (h a List.mem_cons_self _).bind (hl.map (Reads.ret (a :: l) rest))

end Reads

end Cursor
end Shulcrum
