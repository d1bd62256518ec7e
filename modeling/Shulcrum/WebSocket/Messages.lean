import Shulcrum.WebSocket.Frames

/-!
# Messages and their fragments

`wrapPayload` cuts a message into fragments: the first one carries the opcode of
the message, the others that of a continuation frame, and the last one the FIN
bit.  The receiver accepts the frames of a message when the last one is there and
collapses them into one frame.

**Results.**
* `SentMessage.frames_fragmented`, `SentMessage.frames_payload`: the frames of a
  message and what they carry.
* `acceptDataFrames_messages`: whole messages are accepted, the frames of an
  unfinished one are kept.
* `collapse_messages`: accepted frames collapse into the messages.
-/

namespace Shulcrum
namespace WebSocket

/-- A call of `wrapPayload` with the masking keys it draws. -/
structure SentMessage where
  data : Bytes
  type : FrameType
  isMasked : Bool
  fragmentSize : Nat
  masks : Nat → Mask

namespace SentMessage

/-- The fragments as they are sent. -/
def fragments (m : SentMessage) : Except Error (List Bytes) :=
  Ser.wrapFragments m.data m.type m.isMasked m.fragmentSize m.masks

/-- What the receiver should get. -/
def frame (m : SentMessage) : Deser.Frame := ⟨m.type, m.isMasked, m.data⟩

/-- The masking key of a fragment. -/
def mask (m : SentMessage) (i : Nat) : Option Mask := if m.isMasked then some (m.masks i) else none

/-- The size of the fragments of a message. -/
def size (m : SentMessage) : Nat :=
  max (min m.data.length (if m.type.isControl then 125 else m.fragmentSize)) 1

end SentMessage

/-- The frames that the loop of `wrapPayload` writes. -/
def cut (size : Nat) (mask : Nat → Option Mask) :
    (left i : Nat) → (type : FrameType) → (src : Bytes) → List SentFrame
  | 0, _, _, _ => []
  | left + 1, i, type, src =>
      ⟨type, left == 0, mask i, src.take size⟩ ::
        cut size mask left (i + 1) .continuation (src.drop size)

/-- The frames of a message. -/
def SentMessage.frames (m : SentMessage) : List SentFrame :=
  cut m.size m.mask (Ser.nFragments m.data.length m.size) 0 m.type m.data

/-- The frames of a message of the type: the first one has its opcode, the others that of
a continuation frame, and only the last one has the FIN bit. -/
inductive Fragmented : FrameType → List SentFrame → Prop where
  | last {type : FrameType} {f : SentFrame} :
      f.type = type → f.fin = true → Fragmented type [f]
  | more {type : FrameType} {f : SentFrame} {g : List SentFrame} :
      f.type = type → f.fin = false → Fragmented .continuation g → Fragmented type (f :: g)

section Cut

variable {size : Nat} {mask : Nat → Option Mask}

theorem writeFragments_eq (left i : Nat) (type : FrameType) (src : Bytes) :
    Ser.writeFragments size mask left i type.opcode src =
      (cut size mask left i type src).map SentFrame.wire := by
  induction left generalizing i type src with
  | zero => rfl
  | succ left ih =>
      rw [Ser.writeFragments, cut, List.map_cons, ih]
      rfl

theorem cut_fragmented {left i : Nat} {type : FrameType} {src : Bytes} (hleft : 0 < left) :
    Fragmented type (cut size mask left i type src) := by
  induction left generalizing i type src with
  | zero => omega
  | succ left ih =>
      rw [cut]
      cases left with
      | zero => exact .last rfl rfl
      | succ left => exact .more rfl rfl (ih (by omega))

theorem cut_payload {left i : Nat} {type : FrameType} {src : Bytes}
    (hsrc : src.length ≤ left * size) :
    (cut size mask left i type src).flatMap SentFrame.payload = src := by
  induction left generalizing i type src with
  | zero =>
      rw [Nat.zero_mul, Nat.le_zero, List.length_eq_zero_iff] at hsrc
      rw [hsrc]
      rfl
  | succ left ih =>
      rw [Nat.succ_mul] at hsrc
      rw [cut, List.flatMap_cons, ih (by rw [List.length_drop]; omega)]
      exact List.take_append_drop size src

theorem mem_cut {left i : Nat} {type : FrameType} {src : Bytes} {f : SentFrame}
    (hf : f ∈ cut size mask left i type src) :
    (∃ j, f.mask = mask j) ∧ (f.type = type ∨ f.type = .continuation) ∧
      f.payload.length ≤ min size src.length := by
  induction left generalizing i type src with
  | zero => simp [cut] at hf
  | succ left ih =>
      rw [cut, List.mem_cons] at hf
      rcases hf with rfl | hf
      · refine ⟨⟨i, rfl⟩, .inl rfl, ?_⟩
        simp
      · obtain ⟨hmask, htype, hlen⟩ := ih hf
        refine ⟨hmask, ?_, ?_⟩
        · rcases htype with h | h
          · exact .inr h
          · exact .inr h
        · rw [List.length_drop] at hlen
          omega

end Cut

section Fits

/-- The number of fragments is enough for the data. -/
theorem le_nFragments (dsize : Nat) {size : Nat} (hsize : 0 < size) :
    dsize ≤ Ser.nFragments dsize size * size := by
  have hdiv : size * (dsize / size) + dsize % size = dsize := Nat.div_add_mod dsize size
  have hmod : dsize % size < size := Nat.mod_lt dsize hsize
  have hcount : dsize / size + (if 1 < size ∧ dsize % size ≠ 0 then 1 else 0) ≤
      Ser.nFragments dsize size := Nat.le_max_right _ _
  refine le_trans ?_ (Nat.mul_le_mul_right size hcount)
  rw [Nat.add_mul, Nat.mul_comm (dsize / size)]
  split_ifs with h
  · omega
  · have hzero : dsize % size = 0 := by
      by_cases h1 : 1 < size
      · by_contra hne
        exact h ⟨h1, hne⟩
      · omega
    omega

theorem SentMessage.size_pos (m : SentMessage) : 0 < m.size := by
  unfold SentMessage.size
  omega

theorem SentMessage.frames_fragmented (m : SentMessage) : Fragmented m.type m.frames := by
  apply cut_fragmented
  unfold Ser.nFragments
  omega

theorem SentMessage.frames_payload (m : SentMessage) :
    m.frames.flatMap SentFrame.payload = m.data :=
  cut_payload (le_nFragments _ m.size_pos)

/-- A message that `wrapPayload` accepts. -/
structure SentMessage.Fits (m : SentMessage) : Prop where
  control : m.type.isControl = true → m.data.length ≤ 125
  retSize : m.data.length + Ser.perFragmentOverhead m.isMasked m.size *
    Ser.nFragments m.data.length m.size ≤ intMax

/-- What `wrapPayload` writes. -/
theorem SentMessage.fragments_ok {m : SentMessage} {fs : List Bytes} (h : m.fragments = .ok fs) :
    m.Fits ∧ fs = m.frames.map SentFrame.wire := by
  have hmask : m.mask = fun i => if m.isMasked then some (m.masks i) else none := rfl
  unfold SentMessage.fragments Ser.wrapFragments at h
  rw [SentMessage.frames, ← writeFragments_eq, hmask]
  have hfits : (m.type.isControl = true → m.data.length ≤ 125) →
      (m.data.length + Ser.perFragmentOverhead m.isMasked m.size *
        Ser.nFragments m.data.length m.size ≤ intMax) → m.Fits := fun h1 h2 => ⟨h1, h2⟩
  unfold SentMessage.size at hfits ⊢
  simp only at h
  generalize (if m.type.isControl then 125 else m.fragmentSize) = limit at h hfits ⊢
  split at h
  · cases h
  split at h
  · cases h
  split at h
  · cases h
  rename_i hctl
  split at h
  · cases h
  rename_i hsize
  rw [Except.ok.injEq] at h
  refine ⟨hfits (fun hc => ?_) (by omega), h.symm⟩
  by_contra hlen
  exact hctl ⟨hc, by omega⟩

/-- A longer payload does not have a shorter extended length. -/
theorem length_extended_mono {a b : Nat} (h : a ≤ b) :
    (extended a).length ≤ (extended b).length := by
  unfold extended
  split_ifs <;> simp <;> omega

theorem SentFrame.length_wire_le {f : SentFrame} {size : Nat} (h : f.payload.length ≤ size) :
    f.wire.length ≤ f.payload.length + Ser.perFragmentOverhead f.mask.isSome size := by
  have hext := length_extended_mono h
  have hsize : baseHeader f.mask.isSome + (extended size).length =
      Ser.perFragmentOverhead f.mask.isSome size := by
    unfold baseHeader extended Ser.perFragmentOverhead
    cases f.mask.isSome <;> simp <;> split_ifs <;> first | omega | simp
  rw [f.length_wire]
  omega

theorem SentMessage.mem_frames {m : SentMessage} {f : SentFrame} (hf : f ∈ m.frames) :
    f.mask.isSome = m.isMasked ∧ (f.type = m.type ∨ f.type = .continuation) ∧
      f.payload.length ≤ min m.size m.data.length := by
  obtain ⟨⟨j, hj⟩, htype, hlen⟩ := mem_cut hf
  refine ⟨?_, htype, hlen⟩
  rw [hj]
  unfold SentMessage.mask
  cases m.isMasked <;> simp

/-- The frames of a message fit the receiver. -/
theorem SentMessage.Fits.wire_le {m : SentMessage} (hm : m.Fits) {f : SentFrame}
    (hf : f ∈ m.frames) : f.wire.length ≤ intMax := by
  obtain ⟨hmask, -, hlen⟩ := SentMessage.mem_frames hf
  have hret := hm.retSize
  have hwire := SentFrame.length_wire_le (f := f) (le_trans hlen (Nat.min_le_left _ _))
  rw [hmask] at hwire
  have hcount : 1 ≤ Ser.nFragments m.data.length m.size := Nat.le_max_left _ _
  have hmul : Ser.perFragmentOverhead m.isMasked m.size * 1 ≤
      Ser.perFragmentOverhead m.isMasked m.size * Ser.nFragments m.data.length m.size :=
    Nat.mul_le_mul_left _ hcount
  omega

/-- A control frame is not fragmented. -/
theorem SentMessage.Fits.frames_control {m : SentMessage} (hm : m.Fits)
    (hctl : m.type.isControl = true) : m.frames = [⟨m.type, true, m.mask 0, m.data⟩] := by
  have hlen := hm.control hctl
  have hsize : m.size = max m.data.length 1 := by
    unfold SentMessage.size
    rw [if_pos hctl]
    omega
  have hcount : Ser.nFragments m.data.length m.size = 1 := by
    rw [hsize]
    unfold Ser.nFragments
    rcases Nat.eq_zero_or_pos m.data.length with h | h
    · rw [h]
      rfl
    · rw [Nat.max_eq_left (by omega : 1 ≤ m.data.length), Nat.div_self h, Nat.mod_self]
      simp
  unfold SentMessage.frames
  rw [hcount, cut, cut, List.take_of_length_le (by omega)]
  rfl

/-- The frames of a message that was accepted by the sender are accepted by the parser. -/
theorem SentMessage.Fits.valid {maskEnforcement : Deser.MaskEnforcement} {m : SentMessage}
    (hm : m.Fits) (hadmits : maskEnforcement.Admits m.isMasked) {f : SentFrame}
    (hf : f ∈ m.frames) : f.Valid maskEnforcement := by
  obtain ⟨hmask, htype, -⟩ := SentMessage.mem_frames hf
  refine ⟨by rw [hmask]; exact hadmits, fun hctl => ?_, hm.wire_le hf⟩
  have hmctl : m.type.isControl = true := by
    rcases htype with h | h
    · rw [← h]
      exact hctl
    · rw [h] at hctl
      exact absurd hctl (by decide)
  rw [hm.frames_control hmctl, List.mem_singleton] at hf
  rw [hf]
  exact ⟨rfl, hm.control hmctl⟩

end Fits

section Accept

open Deser

/-- The frames of a message are found up to the FIN bit. -/
theorem searchFin_fragmented {type : FrameType} {g : List SentFrame} (hg : Fragmented type g)
    (rest : List PartialFrame) :
    searchFin (decide (type ≠ .continuation)) (g.map SentFrame.view ++ rest) =
      .ok (some (g.map SentFrame.view, rest)) := by
  induction hg with
  | last htype hfin => simp [searchFin, SentFrame.view, htype, hfin]
  | more htype hfin _ ih =>
      have ih' : searchFin false (List.map SentFrame.view _ ++ rest) = _ := ih
      simp [searchFin, ih', SentFrame.view, htype, hfin]

/-- There is no FIN bit before the last frame of a message. -/
theorem searchFin_initial {type : FrameType} {g : List SentFrame} (hg : Fragmented type g)
    {p : List SentFrame} (hp : p <+: g) (hlen : p.length < g.length) :
    searchFin (decide (type ≠ .continuation)) (p.map SentFrame.view) = .ok none := by
  induction hg generalizing p with
  | last _ hfin =>
      have hnil : p = [] := by
        rw [← List.length_eq_zero_iff]
        simpa using hlen
      rw [hnil]
      rfl
  | more htype hfin _ ih =>
      cases p with
      | nil => rfl
      | cons f' p =>
          obtain ⟨rfl, hp'⟩ := List.cons_prefix_cons.mp hp
          have ih' : searchFin false (p.map SentFrame.view) = _ := ih hp' (by simpa using hlen)
          simp [searchFin, ih', SentFrame.view, htype, hfin]

/-- A text or binary message. -/
def SentMessage.IsData (m : SentMessage) : Prop := m.type = .text ∨ m.type = .binary

theorem SentMessage.IsData.ne_continuation {m : SentMessage} (h : m.IsData) :
    m.type ≠ .continuation := by
  rcases h with h | h <;> rw [h] <;> decide

/-- A message of one frame has the FIN bit at once. -/
theorem Fragmented.fin_head {type : FrameType} {f : SentFrame} {g : List SentFrame}
    (h : Fragmented type (f :: g)) : f.type = type ∧ (f.fin = true ↔ g = []) := by
  cases h with
  | last htype hfin => exact ⟨htype, by simp [hfin]⟩
  | more htype hfin hg =>
      refine ⟨htype, ?_⟩
      cases hg <;> simp [hfin]

theorem SentMessage.frames_ne_nil (m : SentMessage) : m.frames ≠ [] := by
  intro hnil
  have hg := m.frames_fragmented
  rw [hnil] at hg
  cases hg

/-- The frames of an unfinished message are kept. -/
theorem acceptDataFrames_initial {m : SentMessage} (hm : m.IsData) {p : List SentFrame}
    (hp : p <+: m.frames) (hlen : p.length < m.frames.length) (n : Nat) :
    acceptDataFrames n (p.map SentFrame.view) = .ok ([], p.map SentFrame.view) := by
  have hg := m.frames_fragmented
  have hsearch := searchFin_initial hg hp hlen
  rw [decide_eq_true hm.ne_continuation] at hsearch
  cases n with
  | zero => rfl
  | succ n =>
      cases p with
      | nil => rfl
      | cons f p =>
          obtain ⟨q, hq⟩ := hp
          rw [← hq, List.cons_append] at hg
          rw [← hq] at hlen
          have hfin : f.fin = false := by
            rw [Bool.eq_false_iff, ne_eq, hg.fin_head.2]
            rintro hnil
            rw [List.cons_append, hnil] at hlen
            simp at hlen
          rw [List.map_cons] at hsearch ⊢
          rw [acceptDataFrames, hsearch, show f.view.fin = false from hfin]
          rfl

/-- The frames of a whole message are accepted. -/
theorem acceptDataFrames_frames {m : SentMessage} (hm : m.IsData) {n : Nat}
    {rest accepted kept : List PartialFrame}
    (hrest : acceptDataFrames n rest = .ok (accepted, kept)) :
    acceptDataFrames (n + 1) (m.frames.map SentFrame.view ++ rest) =
      .ok (m.frames.map SentFrame.view ++ accepted, kept) := by
  have hg := m.frames_fragmented
  have hsearch := searchFin_fragmented hg rest
  rw [decide_eq_true hm.ne_continuation] at hsearch
  cases hframes : m.frames with
  | nil => exact absurd hframes m.frames_ne_nil
  | cons f g =>
      rw [hframes] at hg hsearch
      obtain ⟨htype, hfin⟩ := hg.fin_head
      rw [List.map_cons, List.cons_append] at hsearch ⊢
      rw [acceptDataFrames]
      by_cases hnil : g = []
      · rw [if_pos (show f.view.fin = true from hfin.mpr hnil),
          if_neg (fun h : f.view.type = .continuation =>
            hm.ne_continuation (htype.symm.trans h)), hnil]
        simp [hrest]
      · rw [if_neg (fun h : f.view.fin = true => hnil (hfin.mp h)), hsearch]
        simp [hrest]

/-- Whole messages are accepted, the frames of an unfinished one are kept. -/
theorem acceptDataFrames_messages {whole todo : List SentMessage} {pending : List SentFrame}
    (hdata : ∀ m ∈ whole ++ todo, m.IsData)
    (hrem : Framing.Remainder SentMessage.frames todo pending) :
    ∀ {n : Nat}, (whole.flatMap SentMessage.frames ++ pending).length ≤ n →
      acceptDataFrames n ((whole.flatMap SentMessage.frames ++ pending).map SentFrame.view) =
        .ok ((whole.flatMap SentMessage.frames).map SentFrame.view,
          pending.map SentFrame.view) := by
  induction whole with
  | nil =>
      intro n _
      cases todo with
      | nil =>
          rw [hrem.tail_eq_nil]
          cases n <;> rfl
      | cons m rest =>
          have hshort := hrem.short m rest rfl
          have hprefix : pending <+: m.frames :=
            List.prefix_of_prefix_length_le hrem.isPrefix (List.prefix_append _ _)
              (by omega)
          exact acceptDataFrames_initial (hdata m (by simp)) hprefix hshort n
  | cons m whole ih =>
      intro n hn
      have hpos : 0 < m.frames.length := List.length_pos_iff.mpr m.frames_ne_nil
      rw [List.flatMap_cons, List.append_assoc, List.length_append] at hn
      obtain ⟨n, rfl⟩ : ∃ k, n = k + 1 := ⟨n - 1, by omega⟩
      have hrest := ih (fun m hm => hdata m (by simp [List.mem_append.mp hm]))
        (n := n) (by omega)
      have hm := acceptDataFrames_frames (hdata m (by simp)) hrest
      rw [List.flatMap_cons, List.append_assoc, List.map_append, hm, List.map_append]

end Accept

section Collapse

open Deser

/-- The frames of a message are collapsed into the frame that the first one opens. -/
theorem collapse_fragmented {type : FrameType} {g : List SentFrame} (hg : Fragmented type g)
    {rest : List PartialFrame} {frames : List Frame} (hrest : collapse none rest = .ok frames) :
    ∀ {tmpFrame : Option Frame} {f₀ : Frame},
      (∀ f ∈ g.head?, destination tmpFrame f.view = .ok f₀) →
      f₀.payload.length + (g.flatMap SentFrame.payload).length ≤ intMax →
      collapse tmpFrame (g.map SentFrame.view ++ rest) =
        .ok ({ f₀ with payload := f₀.payload ++ g.flatMap SentFrame.payload } :: frames) := by
  induction hg with
  | @last _ f htype hfin =>
      intro tmpFrame f₀ hdest hsize
      have hdest' := hdest f rfl
      rw [List.flatMap_cons, List.flatMap_nil, List.append_nil] at hsize
      have hsize' : ¬intMax < f₀.payload.length + f.view.payloadSrc.length := by
        simp only [SentFrame.view, SentFrame.length_payloadSrc]
        omega
      rw [List.map_cons, List.map_nil, List.cons_append, List.nil_append, collapse, hdest']
      simp only [if_neg hsize', show f.view.fin = true from hfin, if_true, hrest,
        SentFrame.data_view, List.flatMap_cons, List.flatMap_nil, List.append_nil]
  | @more _ f g htype hfin hg ih =>
      intro tmpFrame f₀ hdest hsize
      have hdest' := hdest f rfl
      rw [List.flatMap_cons, List.length_append] at hsize
      have hsize' : ¬intMax < f₀.payload.length + f.view.payloadSrc.length := by
        simp only [SentFrame.view, SentFrame.length_payloadSrc]
        omega
      -- the rest of the frames goes on with what is there so far
      have hnext : ∀ f' ∈ g.head?,
          destination (some { f₀ with payload := f₀.payload ++ f.payload }) f'.view =
            .ok { f₀ with payload := f₀.payload ++ f.payload } := by
        intro f' hf'
        have htype' : f'.view.type = .continuation := by
          cases g with
          | nil => simp at hf'
          | cons f'' g =>
              simp only [List.head?_cons, Option.mem_def, Option.some.injEq] at hf'
              rw [← hf']
              exact hg.fin_head.1
        simp [destination, htype']
      have ih' := ih hnext (by simp only [List.length_append]; omega)
      rw [List.map_cons, List.cons_append, collapse, hdest']
      simp only [if_neg hsize', show f.view.fin = false from hfin, Bool.false_eq_true, if_false,
        SentFrame.data_view, ih', List.flatMap_cons, List.append_assoc]

/-- Accepted frames collapse into the messages. -/
theorem collapse_messages {ms : List SentMessage} (hdata : ∀ m ∈ ms, m.IsData)
    (hfits : ∀ m ∈ ms, m.Fits) :
    collapse none ((ms.flatMap SentMessage.frames).map SentFrame.view) =
      .ok (ms.map SentMessage.frame) := by
  induction ms with
  | nil => rfl
  | cons m ms ih =>
      rw [List.forall_mem_cons] at hdata hfits
      have hdest : ∀ f ∈ m.frames.head?,
          destination none f.view = .ok ⟨m.type, m.isMasked, []⟩ := by
        intro f hf
        obtain ⟨g, hg⟩ : ∃ g, m.frames = f :: g := List.head?_eq_some_iff.mp hf
        have htype : f.view.type = m.type := by
          have h := m.frames_fragmented
          rw [hg] at h
          exact h.fin_head.1
        have hmask : f.view.masked = m.isMasked :=
          (SentMessage.mem_frames (f := f) (by rw [hg]; simp)).1
        have hm : f.view.type = .text ∨ f.view.type = .binary := by
          rw [htype]
          exact hdata.1
        unfold destination
        rw [if_pos hm, htype, hmask]
      have hsize : ([] : Bytes).length + (m.frames.flatMap SentFrame.payload).length ≤ intMax := by
        have hret := hfits.1.retSize
        rw [m.frames_payload, List.length_nil]
        omega
      rw [List.flatMap_cons, List.map_append,
        collapse_fragmented m.frames_fragmented (ih hdata.2 hfits.2) hdest hsize,
        m.frames_payload]
      rfl

end Collapse

end WebSocket
end Shulcrum
