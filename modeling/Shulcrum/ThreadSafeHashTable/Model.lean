import Mathlib.Data.Fintype.Basic
import Mathlib.Logic.Function.Basic
import Shulcrum.Lib.Invariant

/-!
# The table of shared objects

`ThreadSafeHashTable` maps keys to weak references.  `getOrCreate` looks a key up
under the shared lock, and if that fails once more under the exclusive lock,
where it may create the object and insert it.  The deleter of an object runs in
the thread that drops the last reference to it, and removes the entry of its key
under the exclusive lock.

A thread is a stack of calls, each at one of its steps.  A deleter that is run in
the middle of another call lies on top of it.  An object is referred to by the
callers of `getOrCreate` and by the calls in progress; it is alive as long as
something refers to it.  The locks are held by the calls that are past the one and
before the other of their two steps.  The table outlives its objects.
-/

namespace Shulcrum
namespace ThreadSafeHashTable

/-- An object, with the key that its deleter has captured. -/
structure Obj (Key : Type) where
  key : Key
  id : Nat
  deriving DecidableEq

/-- A call in progress, named by the step it has taken last. -/
inductive Frame (Key : Type) where
  | getOrCreate (key : Key) (createIfMissing : Bool)
  | sharedLocked (key : Key) (createIfMissing : Bool)
  | sharedFound (key : Key) (createIfMissing : Bool) (ret : Option (Obj Key))
  /-- The shared lock is released, and the exclusive one is needed. -/
  | wantExclusive (key : Key)
  | exclusiveLocked (key : Key)
  /-- The second search has failed as well. -/
  | missing (key : Key)
  /-- The object exists, but it is not in the table yet. -/
  | created (ret : Obj Key)
  | ready (ret : Obj Key)
  /-- No lock is held any more. -/
  | returning (ret : Option (Obj Key))
  | deleter (p : Obj Key)
  | deleterLocked (p : Obj Key)
  /-- The entry of the key is a weak reference to `entry`. -/
  | deleterFound (p entry : Obj Key)
  | deleterUpgraded (p : Obj Key) (existingRef : Option (Obj Key))
  /-- The entry is erased or left, but `existingRef` is still in scope. -/
  | deleterDecided (p : Obj Key) (existingRef : Option (Obj Key))
  | deleterDone (p : Obj Key)
  deriving DecidableEq

namespace Frame

variable {Key : Type}

/-- The reference that a call holds. -/
def ref : Frame Key → Option (Obj Key)
  | sharedFound _ _ ret => ret
  | created ret => some ret
  | ready ret => some ret
  | returning ret => ret
  | deleterUpgraded _ existingRef => existingRef
  | deleterDecided _ existingRef => existingRef
  | _ => none

def holdsShared : Frame Key → Bool
  | sharedLocked _ _ => true
  | sharedFound _ _ _ => true
  | _ => false

def holdsExclusive : Frame Key → Bool
  | exclusiveLocked _ => true
  | missing _ => true
  | created _ => true
  | ready _ => true
  | deleterLocked _ => true
  | deleterFound _ _ => true
  | deleterUpgraded _ _ => true
  | deleterDecided _ _ => true
  | deleterDone _ => true
  | _ => false

/-- The call is that of a deleter. -/
def isDeleter : Frame Key → Bool
  | deleter _ => true
  | deleterLocked _ => true
  | deleterFound _ _ => true
  | deleterUpgraded _ _ => true
  | deleterDecided _ _ => true
  | deleterDone _ => true
  | _ => false

/-- What follows the search under the shared lock. -/
def afterShared (key : Key) (createIfMissing : Bool) : Option (Obj Key) → Frame Key
  | none => if createIfMissing then wantExclusive key else returning none
  | some o => returning (some o)

/-- What follows the search under the exclusive lock. -/
def afterExclusive (key : Key) : Option (Obj Key) → Frame Key
  | none => missing key
  | some o => ready o

/-- What follows the search of a deleter. -/
def afterFind (p : Obj Key) : Option (Obj Key) → Frame Key
  | none => deleterDone p
  | some entry => deleterFound p entry

end Frame

/-- The table, the references of the callers, and the calls of every thread. -/
structure State (Tid Key : Type) where
  table : Key → Option (Obj Key) := fun _ => none
  next : Nat := 0
  users : List (Obj Key) := []
  stack : Tid → List (Frame Key) := fun _ => []

namespace State

variable {Tid Key : Type}

/-- Something refers to the object. -/
def Live (s : State Tid Key) (o : Obj Key) : Prop :=
  o ∈ s.users ∨ ∃ t, ∃ f ∈ s.stack t, f.ref = some o

instance [Fintype Tid] [DecidableEq Key] (s : State Tid Key) (o : Obj Key) :
    Decidable (s.Live o) :=
  inferInstanceAs (Decidable (_ ∨ _))

def HoldsShared (s : State Tid Key) (t : Tid) : Prop :=
  ∃ f ∈ s.stack t, f.holdsShared = true

def HoldsExclusive (s : State Tid Key) (t : Tid) : Prop :=
  ∃ f ∈ s.stack t, f.holdsExclusive = true

/-- The lock is not held. -/
def Free (s : State Tid Key) : Prop := ∀ t, ¬ s.HoldsShared t ∧ ¬ s.HoldsExclusive t

/-- `lock` of a weak reference. -/
def Upgrade (s : State Tid Key) (o : Obj Key) : Option (Obj Key) → Prop
  | none => ¬ s.Live o
  | some r => r = o ∧ s.Live o

/-- The search for a key, with `lock` of what is found. -/
def Lookup (s : State Tid Key) (key : Key) (ret : Option (Obj Key)) : Prop :=
  (s.table key = none ∧ ret = none) ∨ ∃ o, s.table key = some o ∧ s.Upgrade o ret

/-- The calls of a thread are replaced. -/
def setStack [DecidableEq Tid] (s : State Tid Key) (t : Tid) (l : List (Frame Key)) :
    State Tid Key :=
  { s with stack := Function.update s.stack t l }

/-- A deleter runs in a thread that holds the lock. -/
def LockedDeleter (s : State Tid Key) (t : Tid) : Prop :=
  ∃ f rest, s.stack t = f :: rest ∧ f.isDeleter = true ∧
    ∃ g ∈ rest, g.holdsShared = true ∨ g.holdsExclusive = true

end State

section Step

variable {Tid Key : Type}

/-- The steps that change the call alone. -/
inductive Move (s : State Tid Key) : Frame Key → Frame Key → Prop
  | lockShared {key : Key} {createIfMissing : Bool} (h : ∀ t, ¬ s.HoldsExclusive t) :
      Move s (.getOrCreate key createIfMissing) (.sharedLocked key createIfMissing)
  | lookupShared {key : Key} {createIfMissing : Bool} {ret : Option (Obj Key)}
      (h : s.Lookup key ret) :
      Move s (.sharedLocked key createIfMissing) (.sharedFound key createIfMissing ret)
  | unlockShared {key : Key} {createIfMissing : Bool} {ret : Option (Obj Key)} :
      Move s (.sharedFound key createIfMissing ret) (.afterShared key createIfMissing ret)
  | lockExclusive {key : Key} (h : s.Free) :
      Move s (.wantExclusive key) (.exclusiveLocked key)
  | lookupExclusive {key : Key} {ret : Option (Obj Key)} (h : s.Lookup key ret) :
      Move s (.exclusiveLocked key) (.afterExclusive key ret)
  | unlockExclusive {ret : Obj Key} : Move s (.ready ret) (.returning (some ret))
  | lockDeleter {p : Obj Key} (h : s.Free) : Move s (.deleter p) (.deleterLocked p)
  | find {p : Obj Key} : Move s (.deleterLocked p) (.afterFind p (s.table p.key))
  | upgrade {p entry : Obj Key} {ret : Option (Obj Key)} (h : s.Upgrade entry ret) :
      Move s (.deleterFound p entry) (.deleterUpgraded p ret)
  -- the entry belongs to another object, and stays
  | keep {p q : Obj Key} (h : q ≠ p) :
      Move s (.deleterUpgraded p (some q)) (.deleterDecided p (some q))
  | dropNone {p : Obj Key} : Move s (.deleterDecided p none) (.deleterDone p)

variable [DecidableEq Tid] [DecidableEq Key]

/-- The steps of a thread. -/
inductive Step (t : Tid) : State Tid Key → State Tid Key → Prop
  | call {s : State Tid Key} (key : Key) (createIfMissing : Bool) (h : s.stack t = []) :
      Step t s (s.setStack t [.getOrCreate key createIfMissing])
  | move {s : State Tid Key} {f f' : Frame Key} {rest : List (Frame Key)}
      (h : s.stack t = f :: rest) (hmove : Move s f f') : Step t s (s.setStack t (f' :: rest))
  | create {s : State Tid Key} {key : Key} {rest : List (Frame Key)}
      (h : s.stack t = .missing key :: rest) :
      Step t s ({ s with next := s.next + 1 }.setStack t (.created ⟨key, s.next⟩ :: rest))
  | insert {s : State Tid Key} {ret : Obj Key} {rest : List (Frame Key)}
      (h : s.stack t = .created ret :: rest) :
      Step t s ({ s with table := Function.update s.table ret.key (some ret) }.setStack t
        (.ready ret :: rest))
  | finish {s : State Tid Key} {ret : Option (Obj Key)} {rest : List (Frame Key)}
      (h : s.stack t = .returning ret :: rest) :
      Step t s ({ s with users := ret.toList ++ s.users }.setStack t rest)
  | copy {s : State Tid Key} {o : Obj Key} (h : s.stack t = []) (ho : o ∈ s.users) :
      Step t s { s with users := o :: s.users }
  | drop {s : State Tid Key} {o : Obj Key} (h : s.stack t = []) (ho : o ∈ s.users)
      (hlive : { s with users := s.users.erase o }.Live o) :
      Step t s { s with users := s.users.erase o }
  | dropLast {s : State Tid Key} {o : Obj Key} (h : s.stack t = []) (ho : o ∈ s.users)
      (hlast : ¬ { s with users := s.users.erase o }.Live o) :
      Step t s ({ s with users := s.users.erase o }.setStack t [.deleter o])
  | erase {s : State Tid Key} {p : Obj Key} {existingRef : Option (Obj Key)}
      {rest : List (Frame Key)} (h : s.stack t = .deleterUpgraded p existingRef :: rest)
      (hown : existingRef = none ∨ existingRef = some p) :
      Step t s ({ s with table := Function.update s.table p.key none }.setStack t
        (.deleterDecided p existingRef :: rest))
  | dropTemp {s : State Tid Key} {p q : Obj Key} {rest : List (Frame Key)}
      (h : s.stack t = .deleterDecided p (some q) :: rest)
      (hlive : (s.setStack t (.deleterDone p :: rest)).Live q) :
      Step t s (s.setStack t (.deleterDone p :: rest))
  -- the deleter of the other object is run before the lock is released
  | dropTempLast {s : State Tid Key} {p q : Obj Key} {rest : List (Frame Key)}
      (h : s.stack t = .deleterDecided p (some q) :: rest)
      (hlast : ¬ (s.setStack t (.deleterDone p :: rest)).Live q) :
      Step t s (s.setStack t (.deleter q :: .deleterDone p :: rest))
  | unlockDeleter {s : State Tid Key} {p : Obj Key} {rest : List (Frame Key)}
      (h : s.stack t = .deleterDone p :: rest) : Step t s (s.setStack t rest)

/-- The start: an empty table, and no thread in a call. -/
def Initial (s : State Tid Key) : Prop := s = {}

/-- A step of any thread. -/
def AnyStep (s s' : State Tid Key) : Prop := ∃ t, Step t s s'

end Step

end ThreadSafeHashTable
end Shulcrum
