import Mathlib.Order.Bounds.Basic
import Shulcrum.Header
import Shulcrum.Lib.Invariant

/-!
# The cached BLAKE2b activation height

`blake2bActivationHeight` finds the first 164-byte header by binary search and
caches the answer in an atomic integer.  A query reads the cache and the
headers in one step and stores its answer in a later one, so other queries,
block additions and header truncations can happen in between.

**Results.**
* `isActivation_search`: the binary search finds the least v2 height.
* `inv_of_reachable`: the invariant of the runs in which no block step moves
  the activation height while an answer waits to be stored.
* `queryAnswer_of_reachable`: in such a run, at rest, the next query is right.
-/

namespace Shulcrum
namespace Storage
namespace Activation

open BTC Invariant

/-- `kNoBlake2bHeightCached`: the least 64-bit integer. -/
def noHeightCached : Int := -9223372036854775808

/-- The header at a height exists and has the v2 layout. -/
def IsV2At (headers : List Header) (h : Nat) : Prop :=
  ∃ hdr, headers[h]? = some hdr ∧ isHeaderV2 hdr = true

/-- The lambda `isV2` of the query. -/
def isV2 (headers : List Header) (h : Nat) : Bool :=
  (headers[h]?).any isHeaderV2

/-- The loop of the binary search; `fuel` bounds the number of rounds. -/
def searchLoop (headers : List Header) : Nat → Nat → Nat → Nat
  | 0, lo, _ => lo
  | fuel + 1, lo, hi =>
      if lo < hi then
        let mid := lo + (hi - lo) / 2
        if isV2 headers mid then searchLoop headers fuel lo mid
        else searchLoop headers fuel (mid + 1) hi
      else lo

/-- The answer computed from the headers when nothing is cached. -/
def search (headers : List Header) : Option Nat :=
  match headers.length with
  | 0 => none
  | tip + 1 => if isV2 headers tip then some (searchLoop headers tip 0 tip) else none

/-- The value stored in the cache for an answer. -/
def encode : Option Nat → Int
  | some h => h
  | none => -1

/--
The header store, the cache, the answers of queries that have not stored them
yet, and the height of a block whose cache update is still to come.
-/
structure State where
  headers : List Header := []
  cache : Int := noHeightCached
  queries : List (Option Nat) := []
  pendingAdd : Option Nat := none

namespace State

/-- What a query that runs alone returns. -/
def queryAnswer (s : State) : Option Nat :=
  if s.cache ≠ noHeightCached then
    if s.cache < 0 then none else some s.cache.toNat
  else search s.headers

/-- First step of `blake2bActivationHeight`.  A cached answer is returned at once. -/
def queryRead (s : State) : State :=
  if s.cache ≠ noHeightCached ∨ s.headers = [] then s
  else { s with queries := search s.headers :: s.queries }

/-- Second step of the `i`-th query in flight: store the answer. -/
def queryStore (s : State) (i : Nat) : Option State :=
  match s.queries[i]? with
  | none => none
  | some ans => some { s with cache := encode ans, queries := s.queries.eraseIdx i }

/-- `addBlock` up to the batch write.  The layout never switches back. -/
def addWrite (s : State) (hdr : CBlockHeader) : Option State :=
  if s.pendingAdd = none ∧ (hdr.headerV2 = true ∨ ∀ h ∈ s.headers, isHeaderV2 h = false) then
    some { s with headers := s.headers ++ [hdr.serialize], pendingAdd := some s.headers.length }
  else none

/-- The cache update of `addBlock`. -/
def addCache (s : State) : Option State :=
  match s.pendingAdd with
  | none => none
  | some height =>
      if s.cache = -1 ∧ isV2 s.headers height then
        some { s with cache := height, pendingAdd := none }
      else some { s with pendingAdd := none }

/-- `deleteHeadersPastHeight`. -/
def deleteHeadersPastHeight (s : State) (height : Nat) : Option State :=
  if s.pendingAdd = none ∧ height + 1 ≤ s.headers.length then
    some { s with
      cache := if s.cache ≥ 0 ∧ s.cache.toNat > height then noHeightCached else s.cache
      headers := s.headers.take (height + 1) }
  else none

end State

/-- The atomic steps. -/
inductive Op where
  | queryRead
  | queryStore (i : Nat)
  | addWrite (hdr : CBlockHeader)
  | addCache
  | deletePast (height : Nat)

def State.apply (s : State) : Op → Option State
  | .queryRead => some s.queryRead
  | .queryStore i => s.queryStore i
  | .addWrite hdr => s.addWrite hdr
  | .addCache => s.addCache
  | .deletePast height => s.deleteHeadersPastHeight height

/-- Above a v2 header all headers are v2. -/
def Monotone (headers : List Header) : Prop :=
  ∀ i j, i ≤ j → j < headers.length → IsV2At headers i → IsV2At headers j

/-- A database just loaded: its headers switch layout at most once, and the cache is warm. -/
def Init (s : State) : Prop :=
  Monotone s.headers ∧ s.queries = [] ∧ s.pendingAdd = none ∧
    s.cache = if s.headers = [] then noHeightCached else encode (search s.headers)

/--
No answer waits to be stored when the first v2 header is added, or when the
activation header is removed.
-/
def Calm (s : State) : Op → Prop
  | .addWrite hdr => s.queries = [] ∨ hdr.headerV2 = false ∨ ∃ i, IsV2At s.headers i
  | .deletePast height =>
      s.queries = [] ∨ (∀ i, ¬ IsV2At s.headers i) ∨ ∃ i, i ≤ height ∧ IsV2At s.headers i
  | _ => True

/-- The answer is the least height of a v2 header, or none without one. -/
def IsActivation (headers : List Header) : Option Nat → Prop
  | some h => IsLeast {i | IsV2At headers i} h
  | none => ∀ i, ¬ IsV2At headers i

theorem isV2_iff {headers : List Header} {h : Nat} :
    isV2 headers h = true ↔ IsV2At headers h := by
  simp only [isV2, IsV2At, Option.any_eq_true]

theorem IsV2At.lt {headers : List Header} {h : Nat} (hv : IsV2At headers h) :
    h < headers.length := by
  obtain ⟨hdr, hget, -⟩ := hv
  exact (List.getElem?_eq_some_iff.mp hget).1

/-- The loop keeps the least v2 height between its bounds. -/
theorem isLeast_searchLoop {headers : List Header} (hmono : Monotone headers)
    (fuel lo hi : Nat) (hfuel : hi - lo ≤ fuel) (hle : lo ≤ hi) (hhi : IsV2At headers hi)
    (hlo : ∀ i, i < lo → ¬ IsV2At headers i) :
    IsLeast {i | IsV2At headers i} (searchLoop headers fuel lo hi) := by
  induction fuel generalizing lo hi with
  | zero =>
      obtain rfl : lo = hi := by omega
      refine ⟨hhi, fun i hi' => ?_⟩
      by_contra hlt
      exact hlo i (by simpa [searchLoop] using hlt) hi'
  | succ fuel ih =>
      simp only [searchLoop]
      split_ifs with hlt hmid
      · exact ih lo _ (by omega) (by omega) (isV2_iff.mp hmid) hlo
      · refine ih _ hi (by omega) (by omega) hhi fun i hi' hv => hmid ?_
        exact isV2_iff.mpr (hmono i _ (by omega) (by have := hhi.lt; omega) hv)
      · obtain rfl : lo = hi := by omega
        refine ⟨hhi, fun i hi' => ?_⟩
        by_contra hlt'
        exact hlo i (not_le.mp hlt') hi'

/-- The binary search finds the activation height. -/
theorem isActivation_search {headers : List Header} (hmono : Monotone headers) :
    IsActivation headers (search headers) := by
  unfold search
  cases hlen : headers.length with
  | zero =>
      intro i hv
      have := hv.lt
      omega
  | succ tip =>
      by_cases htip : isV2 headers tip = true
      · simp only [htip, if_true]
        exact isLeast_searchLoop hmono tip 0 tip (by omega) (by omega) (isV2_iff.mp htip)
          (fun i hi => by omega)
      · simp only [if_neg htip]
        intro i hv
        have hlt := hv.lt
        exact htip (isV2_iff.mpr (hmono i tip (by omega) (by omega) hv))

theorem isV2At_append {headers : List Header} {hdr : Header} {i : Nat} :
    IsV2At (headers ++ [hdr]) i ↔
      IsV2At headers i ∨ (i = headers.length ∧ isHeaderV2 hdr = true) := by
  rcases Nat.lt_trichotomy i headers.length with hlt | rfl | hgt
  · have hne : i ≠ headers.length := by omega
    simp [IsV2At, List.getElem?_append_left hlt, hne]
  · simp [IsV2At]
  · have hne : i ≠ headers.length := by omega
    have hnone : (headers ++ [hdr])[i]? = none := by
      rw [List.getElem?_eq_none_iff, List.length_append, List.length_singleton]
      omega
    simp [IsV2At, hnone, hne, List.getElem?_eq_none hgt.le]

theorem isV2At_take {headers : List Header} {n i : Nat} :
    IsV2At (headers.take n) i ↔ i < n ∧ IsV2At headers i := by
  simp only [IsV2At, List.getElem?_take]
  split_ifs with h
  · simp [h]
  · simp [h]

/-- A new header leaves the activation height alone unless it is the first v2 header. -/
theorem IsActivation.append {headers : List Header} {a : Option Nat} {hdr : Header}
    (ha : IsActivation headers a)
    (hold : isHeaderV2 hdr = false ∨ ∃ i, IsV2At headers i) :
    IsActivation (headers ++ [hdr]) a := by
  cases a with
  | none =>
      have hv1 : isHeaderV2 hdr = false := by
        rcases hold with h | ⟨i, hi⟩
        · exact h
        · exact absurd hi (ha i)
      intro i hi
      rcases isV2At_append.mp hi with hi | ⟨-, hv⟩
      · exact ha i hi
      · rw [hv1] at hv
        cases hv
  | some h =>
      refine ⟨isV2At_append.mpr (.inl ha.1), ?_⟩
      intro i hi
      rcases isV2At_append.mp hi with hi | ⟨rfl, -⟩
      · exact ha.2 hi
      · exact ha.1.lt.le

/-- Truncation leaves the activation height alone if it keeps that header. -/
theorem IsActivation.take {headers : List Header} {a : Option Nat} {n : Nat}
    (ha : IsActivation headers a) (hkeep : ∀ h, a = some h → h < n) :
    IsActivation (headers.take n) a := by
  cases a with
  | none =>
      intro i hi
      exact ha i (isV2At_take.mp hi).2
  | some h =>
      refine ⟨isV2At_take.mpr ⟨hkeep h rfl, ha.1⟩, ?_⟩
      intro i hi
      exact ha.2 (isV2At_take.mp hi).2

theorem Monotone.append {headers : List Header} {hdr : Header} (hm : Monotone headers)
    (hv : isHeaderV2 hdr = true ∨ ∀ i, ¬ IsV2At headers i) :
    Monotone (headers ++ [hdr]) := by
  intro i j hij hj hi
  rw [List.length_append, List.length_singleton] at hj
  rw [isV2At_append] at hi ⊢
  rcases hi with hi | ⟨rfl, hv2⟩
  · by_cases hlast : j = headers.length
    · rcases hv with hv | hv
      · exact .inr ⟨hlast, hv⟩
      · exact absurd hi (hv i)
    · exact .inl (hm i j hij (by omega) hi)
  · exact .inr ⟨by omega, hv2⟩

theorem Monotone.take {headers : List Header} (hm : Monotone headers) (n : Nat) :
    Monotone (headers.take n) := by
  intro i j hij hj hi
  rw [List.length_take] at hj
  rw [isV2At_take] at hi ⊢
  exact ⟨by omega, hm i j hij (by omega) hi.2⟩

/-- A cached value is unset or the encoded activation height. -/
def CacheOk (headers : List Header) (cache : Int) : Prop :=
  cache = noHeightCached ∨ ∃ a, IsActivation headers a ∧ cache = encode a

/-- The invariant of calm runs. -/
structure Inv (s : State) : Prop where
  mono : Monotone s.headers
  queries : ∀ a ∈ s.queries, IsActivation s.headers a
  cache : s.pendingAdd = none → CacheOk s.headers s.cache
  pending : ∀ n, s.pendingAdd = some n → CacheOk s.headers s.cache ∨
    (s.cache = -1 ∧ IsActivation s.headers (some n))

theorem Inv.queryRead {s : State} (h : Inv s) : Inv s.queryRead := by
  unfold State.queryRead
  split_ifs
  · exact h
  · refine ⟨h.mono, ?_, h.cache, h.pending⟩
    intro a ha
    rcases List.mem_cons.mp ha with rfl | ha
    · exact isActivation_search h.mono
    · exact h.queries a ha

theorem Inv.queryStore {s t : State} (h : Inv s) {i : Nat} (ht : s.queryStore i = some t) :
    Inv t := by
  unfold State.queryStore at ht
  cases hget : s.queries[i]? with
  | none => simp [hget] at ht
  | some ans =>
      have hans : IsActivation s.headers ans := h.queries ans (List.mem_of_getElem? hget)
      simp only [hget, Option.some.injEq] at ht
      subst ht
      refine ⟨h.mono, ?_, fun _ => .inr ⟨ans, hans, rfl⟩, fun n _ => .inl (.inr ⟨ans, hans, rfl⟩)⟩
      intro a ha
      exact h.queries a (List.mem_of_mem_eraseIdx ha)

theorem Inv.addWrite {s t : State} (h : Inv s) {hdr : CBlockHeader}
    (hcalm : Calm s (.addWrite hdr)) (ht : s.addWrite hdr = some t) : Inv t := by
  unfold State.addWrite at ht
  split_ifs at ht with hcond
  obtain ⟨hnone, hlayout⟩ := hcond
  simp only [Option.some.injEq] at ht
  subst ht
  have hmono : Monotone (s.headers ++ [hdr.serialize]) := by
    apply h.mono.append
    rcases hlayout with hv | hall
    · exact .inl (by rw [isHeaderV2_serialize, hv])
    · right
      rintro i ⟨x, hx, hv⟩
      rw [hall x (List.mem_of_getElem? hx)] at hv
      cases hv
  by_cases hold : isHeaderV2 hdr.serialize = false ∨ ∃ i, IsV2At s.headers i
  · -- the activation height stays, so every answer and the cache stay right
    refine ⟨hmono, fun a ha => (h.queries a ha).append hold, by simp, fun n _ => .inl ?_⟩
    rcases h.cache hnone with hc | ⟨a, ha, hc⟩
    · exact .inl hc
    · exact .inr ⟨a, ha.append hold, hc⟩
  · -- the first v2 header: no answer is in flight, and a cached answer is "none"
    rw [not_or, not_exists, Bool.not_eq_false] at hold
    obtain ⟨hv2, hno⟩ := hold
    have hq : s.queries = [] := by
      rcases hcalm with hq | hv1 | ⟨i, hi⟩
      · exact hq
      · rw [isHeaderV2_serialize, hv1] at hv2
        cases hv2
      · exact absurd hi (hno i)
    have hact : IsActivation (s.headers ++ [hdr.serialize]) (some s.headers.length) := by
      refine ⟨isV2At_append.mpr (.inr ⟨rfl, hv2⟩), ?_⟩
      intro i hi
      rcases isV2At_append.mp hi with hi | ⟨rfl, -⟩
      · exact absurd hi (hno i)
      · exact le_rfl
    refine ⟨hmono, by simp [hq], by simp, ?_⟩
    intro n hn
    obtain rfl : s.headers.length = n := by simpa using hn
    rcases h.cache hnone with hc | ⟨a, ha, hc⟩
    · exact .inl (.inl hc)
    · cases a with
      | none => exact .inr ⟨hc, hact⟩
      | some g => exact absurd ha.1 (hno g)

theorem Inv.addCache {s t : State} (h : Inv s) (ht : s.addCache = some t) : Inv t := by
  unfold State.addCache at ht
  cases hp : s.pendingAdd with
  | none => simp [hp] at ht
  | some n =>
      simp only [hp] at ht
      split_ifs at ht with hcond
      · cases ht
        refine ⟨h.mono, h.queries, fun _ => ?_, by simp⟩
        rcases h.pending n hp with hok | ⟨-, hact⟩
        · -- a cached "none" contradicts the v2 header just added
          rcases hok with hc | ⟨a, ha, hc⟩
          · rw [hc] at hcond
            exact absurd hcond.1 (by decide)
          · cases a with
            | none => exact absurd (isV2_iff.mp hcond.2) (ha n)
            | some g =>
                rw [hcond.1, encode] at hc
                omega
        · exact .inr ⟨some n, hact, rfl⟩
      · cases ht
        refine ⟨h.mono, h.queries, fun _ => ?_, by simp⟩
        rcases h.pending n hp with hok | ⟨hc, hact⟩
        · exact hok
        · exact absurd ⟨hc, isV2_iff.mpr hact.1⟩ hcond

theorem Inv.deletePast {s t : State} (h : Inv s) {height : Nat}
    (hcalm : Calm s (.deletePast height)) (ht : s.deleteHeadersPastHeight height = some t) :
    Inv t := by
  by_cases hcond : s.pendingAdd = none ∧ height + 1 ≤ s.headers.length
  case neg =>
    rw [State.deleteHeadersPastHeight, if_neg hcond] at ht
    cases ht
  rw [State.deleteHeadersPastHeight, if_pos hcond] at ht
  cases ht
  refine ⟨h.mono.take _, ?_, fun _ => ?_, by simp [hcond.1]⟩
  · intro a ha
    have hact := h.queries a ha
    refine hact.take fun g hg => ?_
    subst hg
    rcases hcalm with hq | hno | ⟨i, hi, hv⟩
    · simp [hq] at ha
    · exact absurd hact.1 (hno g)
    · have := hact.2 hv
      omega
  · rcases h.cache hcond.1 with hc | ⟨a, ha, hc⟩
    · left
      simp [hc, noHeightCached]
    · cases a with
      | none =>
          right
          refine ⟨none, ha.take (by simp), ?_⟩
          simp [hc, encode]
      | some g =>
          by_cases hg : g > height
          · left
            simp [hc, encode, hg]
          · right
            refine ⟨some g, ha.take (by simp; omega), ?_⟩
            simp [hc, encode, hg]

theorem Inv.apply {s t : State} (h : Inv s) {op : Op} (hcalm : Calm s op)
    (ht : s.apply op = some t) : Inv t := by
  cases op with
  | queryRead =>
      cases ht
      exact h.queryRead
  | queryStore i => exact h.queryStore ht
  | addWrite hdr => exact h.addWrite hcalm ht
  | addCache => exact h.addCache ht
  | deletePast height => exact h.deletePast hcalm ht

/-- One atomic step. -/
def Step (s t : State) : Prop := ∃ op, s.apply op = some t

/-- One atomic step that meets `Calm`. -/
def CalmStep (s t : State) : Prop := ∃ op, Calm s op ∧ s.apply op = some t

theorem Init.inv {s : State} (h : Init s) : Inv s := by
  obtain ⟨hmono, hq, hp, hc⟩ := h
  refine ⟨hmono, by simp [hq], fun _ => ?_, by simp [hp]⟩
  rw [hc]
  split_ifs
  · exact .inl rfl
  · exact .inr ⟨_, isActivation_search hmono, rfl⟩

theorem inv_of_reachable {s : State} (hs : Reachable Init CalmStep s) : Inv s := by
  refine hs.invariant (fun s h => h.inv) ?_
  rintro s t hst ⟨op, hcalm, hop⟩
  exact hst.apply hcalm hop

theorem CacheOk.queryAnswer {s : State} (h : CacheOk s.headers s.cache)
    (hm : Monotone s.headers) : IsActivation s.headers s.queryAnswer := by
  unfold State.queryAnswer
  rcases h with hc | ⟨a, ha, hc⟩
  · rw [if_neg (by simp [hc])]
    exact isActivation_search hm
  · cases a with
    | none =>
        rw [if_pos (by simp [hc, encode, noHeightCached]), if_pos (by simp [hc, encode])]
        exact ha
    | some g =>
        have hne : ¬ (g : Int) < 0 := by omega
        rw [if_pos (by rw [hc, encode, noHeightCached]; omega), if_neg (by rw [hc]; exact hne),
          hc, encode, Int.toNat_natCast]
        exact ha

/--
In every run in which no block step moves the activation height while an answer
waits to be stored: with no query and no block operation in flight, the next
query returns the least height of a v2 header, or none if there is none.
-/
theorem queryAnswer_of_reachable {s : State} (hs : Reachable Init CalmStep s)
    (hrest : s.queries = [] ∧ s.pendingAdd = none) :
    IsActivation s.headers s.queryAnswer := by
  have hinv := inv_of_reachable hs
  exact (hinv.cache hrest.2).queryAnswer hinv.mono

theorem init_empty : Init {} := by
  simp [Init, Monotone]

/-- Two headers added to the empty store with no query in flight. -/
theorem reachable_two_headers {a : CBlockHeader} (ha : a.headerV2 = false) (b : CBlockHeader) :
    Reachable Init CalmStep { headers := [a.serialize, b.serialize] } := by
  have h1 : CalmStep {} { headers := [a.serialize], pendingAdd := some 0 } :=
    ⟨.addWrite a, .inl rfl, by simp [State.apply, State.addWrite]⟩
  have h2 : CalmStep { headers := [a.serialize], pendingAdd := some 0 }
      { headers := [a.serialize] } :=
    ⟨.addCache, trivial, by simp [State.apply, State.addCache, noHeightCached]⟩
  have h3 : CalmStep { headers := [a.serialize] }
      { headers := [a.serialize, b.serialize], pendingAdd := some 1 } :=
    ⟨.addWrite b, .inl rfl, by simp [State.apply, State.addWrite, ha]⟩
  have h4 : CalmStep { headers := [a.serialize, b.serialize], pendingAdd := some 1 }
      { headers := [a.serialize, b.serialize] } :=
    ⟨.addCache, trivial, by simp [State.apply, State.addCache, noHeightCached]⟩
  exact .next (.next (.next (.next (.start init_empty) h1) h2) h3) h4

theorem queryAnswer_two_headers :
    ∃ s : State, s.headers = [(sampleHeader false).serialize, (sampleHeader true).serialize] ∧
      IsActivation s.headers s.queryAnswer :=
  ⟨_, rfl, queryAnswer_of_reachable (reachable_two_headers rfl _) ⟨rfl, rfl⟩⟩

/-- A query reads after the v1 header `a` and stores after the v2 header `b`. -/
theorem reachable_late_store {a b : CBlockHeader} (ha : a.headerV2 = false)
    (hb : b.headerV2 = true) :
    Reachable Init Step { headers := [a.serialize, b.serialize], cache := -1 } := by
  have hsearch : search [a.serialize] = none := by
    simp [search, isV2, ha]
  have h1 : Step {} { headers := [a.serialize], pendingAdd := some 0 } :=
    ⟨.addWrite a, by simp [State.apply, State.addWrite]⟩
  have h2 : Step { headers := [a.serialize], pendingAdd := some 0 }
      { headers := [a.serialize] } :=
    ⟨.addCache, by simp [State.apply, State.addCache, noHeightCached]⟩
  have h3 : Step { headers := [a.serialize] } { headers := [a.serialize], queries := [none] } :=
    ⟨.queryRead, by simp [State.apply, State.queryRead, hsearch]⟩
  have h4 : Step { headers := [a.serialize], queries := [none] }
      { headers := [a.serialize, b.serialize], queries := [none], pendingAdd := some 1 } :=
    ⟨.addWrite b, by simp [State.apply, State.addWrite, hb]⟩
  have h5 : Step
      { headers := [a.serialize, b.serialize], queries := [none], pendingAdd := some 1 }
      { headers := [a.serialize, b.serialize], queries := [none] } :=
    ⟨.addCache, by simp [State.apply, State.addCache, noHeightCached]⟩
  have h6 : Step { headers := [a.serialize, b.serialize], queries := [none] }
      { headers := [a.serialize, b.serialize], cache := -1 } :=
    ⟨.queryStore 0, by simp [State.apply, State.queryStore, encode]⟩
  exact .next (.next (.next (.next (.next (.next (.start init_empty) h1) h2) h3) h4) h5) h6

/--
A query that read a chain of one v1 header stores "none" after the first v2
header was added; from then on every query returns none.
-/
theorem late_store_hides_activation :
    ¬ ∀ s : State, Reachable Init Step s → s.queries = [] ∧ s.pendingAdd = none →
      IsActivation s.headers s.queryAnswer := by
  intro h
  have ha : (sampleHeader false).headerV2 = false := rfl
  have hb : (sampleHeader true).headerV2 = true := rfl
  generalize sampleHeader false = a at ha
  generalize sampleHeader true = b at hb
  have hnone := h _ (reachable_late_store ha hb) ⟨rfl, rfl⟩
  simp only [State.queryAnswer, noHeightCached] at hnone
  exact hnone 1 ⟨b.serialize, rfl, by rw [isHeaderV2_serialize, hb]⟩

end Activation
end Storage
end Shulcrum
