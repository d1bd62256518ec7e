import Shulcrum.WebSocket.Messages

/-!
# Streams cut into chunks

The sender writes the fragments of its messages with control frames between them;
the receiver appends each chunk to its buffer and parses it.  Between two chunks
the buffer holds the frames of the unfinished message, without the control frames
among them, and the bytes of an unfinished frame.

**Results.**
* `Link.step`: one chunk.
* `parseChunks_delivers`: the messages and the control frames are delivered in
  their order however the stream is cut.
-/

namespace Shulcrum
namespace WebSocket

open Deser

/-- The receiver between two chunks: the messages and control frames that are still to be
delivered, the frames of the unfinished message in the buffer, the frames that are still
to come, and the bytes of the first of these in the buffer. -/
structure Link (maskEnforcement : MaskEnforcement) (messages controls : List SentMessage)
    (pending todo : List SentFrame) (tail : Bytes) : Prop where
  isData : ∀ m ∈ messages, m.IsData
  fits : ∀ m ∈ messages, m.Fits
  fitsControl : ∀ c ∈ controls, c.type.isControl = true ∧ c.Fits
  valid : ∀ f ∈ pending ++ todo, f.Valid maskEnforcement
  pendingData : ∀ f ∈ pending, f.type.isControl = false
  dataFrames : pending ++ todo.filter (fun f => !f.type.isControl) =
    messages.flatMap SentMessage.frames
  controlFrames : todo.filter (fun f => f.type.isControl) = controls.flatMap SentMessage.frames
  unfinishedMessage : Framing.Remainder SentMessage.frames messages pending
  unfinishedFrame : Framing.Remainder SentFrame.wire todo tail

section Buffer

/-- The number of bytes kept at the end is right as long as it is an `int`. -/
theorem keepAtEndLen_eq {len pos n : Nat} (h : len = pos + n) (hn : n ≤ intMax) :
    keepAtEndLen len pos = n := by
  unfold keepAtEndLen toInt32 intMax at *
  subst h
  rw [Int.bmod_sub_bmod, Int.sub_bmod_bmod]
  rw [show ((pos + n : Nat) : Int) - pos = n by push_cast; omega]
  rw [Int.bmod_eq_of_le] <;> omega

/-- The control frames are returned as they were sent. -/
theorem map_toFrame_controls {cs : List SentMessage}
    (hcs : ∀ c ∈ cs, c.type.isControl = true ∧ c.Fits) :
    ((cs.flatMap SentMessage.frames).map SentFrame.view).map PartialFrame.toFrame =
      cs.map SentMessage.frame := by
  induction cs with
  | nil => rfl
  | cons c cs ih =>
      rw [List.forall_mem_cons] at hcs
      have hone := hcs.1.2.frames_control hcs.1.1
      have hmasked : (c.mask 0).isSome = c.isMasked := by
        unfold SentMessage.mask
        cases c.isMasked <;> rfl
      rw [List.flatMap_cons, hone, List.map_append, List.map_append, ih hcs.2]
      simp only [List.map_cons, List.map_nil, List.cons_append, List.nil_append,
        List.cons.injEq, and_true]
      unfold PartialFrame.toFrame
      rw [SentFrame.data_view]
      simp only [SentFrame.view, hmasked, SentMessage.frame]

/-- A control frame is one frame, so an initial part of the control frames is made of whole
ones. -/
theorem controls_split {cs : List SentMessage}
    (hcs : ∀ c ∈ cs, c.type.isControl = true ∧ c.Fits) {p q : List SentFrame}
    (h : p ++ q = cs.flatMap SentMessage.frames) :
    ∃ cs₁ cs₂, cs = cs₁ ++ cs₂ ∧ p = cs₁.flatMap SentMessage.frames ∧
      q = cs₂.flatMap SentMessage.frames := by
  obtain ⟨cs₁, cs₂, rest, rfl, hp, hrem⟩ :=
    Framing.exists_remainder SentMessage.frames cs (t := p) ⟨q, h⟩
  have hrest : rest = [] := by
    cases cs₂ with
    | nil => exact hrem.tail_eq_nil
    | cons c cs₂ =>
        have hshort := hrem.short c cs₂ rfl
        have hc := hcs c (by simp)
        rw [hc.2.frames_control hc.1] at hshort
        rw [← List.length_eq_zero_iff]
        simpa using hshort
  rw [hrest, List.append_nil] at hp
  refine ⟨cs₁, cs₂, rfl, hp, ?_⟩
  rw [hp, List.flatMap_append] at h
  exact List.append_cancel_left h

end Buffer

section Run

variable {maskEnforcement : MaskEnforcement} {messages controls : List SentMessage}
  {pending todo : List SentFrame} {tail : Bytes}

/-- The bytes of an unfinished frame are few enough for an `int`. -/
theorem Link.length_tail_le (h : Link maskEnforcement messages controls pending todo tail) :
    tail.length ≤ intMax := by
  cases todo with
  | nil =>
      rw [h.unfinishedFrame.tail_eq_nil]
      exact Nat.zero_le _
  | cons f rest =>
      have hshort := h.unfinishedFrame.short f rest rfl
      have hsize := (h.valid f (by simp)).size
      omega

/-- Parsing a buffer that holds some frames and the beginning of the next one. -/
theorem parseBuffer_eq (frames : List SentFrame) {todo pending' : List SentFrame} {tail : Bytes}
    {ms ms' cs : List SentMessage}
    (hvalid : ∀ f ∈ frames ++ todo, f.Valid maskEnforcement)
    (htail : Framing.Remainder SentFrame.wire todo tail) (hlen : tail.length ≤ intMax)
    (hdata : ∀ m ∈ ms ++ ms', m.IsData) (hfits : ∀ m ∈ ms, m.Fits)
    (hcontrols : ∀ c ∈ cs, c.type.isControl = true ∧ c.Fits)
    (hdataFrames : frames.filter (fun f => !f.type.isControl) =
      ms.flatMap SentMessage.frames ++ pending')
    (hctlFrames : frames.filter (fun f => f.type.isControl) = cs.flatMap SentMessage.frames)
    (hpending : Framing.Remainder SentMessage.frames ms' pending') :
    parseBuffer maskEnforcement (frames.flatMap SentFrame.wire ++ tail) =
      .ok (cs.map SentMessage.frame ++ ms.map SentMessage.frame,
        pending'.flatMap SentFrame.wire ++ tail) := by
  have hgreedy := Framing.greedy_taken parseFrame_recognizes hvalid htail (le_refl _)
  have hctl : (frames.map SentFrame.view).filter (fun pf => pf.type.isControl) =
      (cs.flatMap SentMessage.frames).map SentFrame.view := by
    rw [List.filter_map, ← hctlFrames]
    rfl
  have hdat : (frames.map SentFrame.view).filter (fun pf => !pf.type.isControl) =
      (ms.flatMap SentMessage.frames ++ pending').map SentFrame.view := by
    rw [List.filter_map, ← hdataFrames]
    rfl
  have hkeep : keepAtEndLen (frames.flatMap SentFrame.wire ++ tail).length
      (frames.flatMap SentFrame.wire).length = tail.length :=
    keepAtEndLen_eq List.length_append hlen
  have haccept := acceptDataFrames_messages hdata hpending
    (n := ((ms.flatMap SentMessage.frames ++ pending').map SentFrame.view).length) (by simp)
  have hwires : (pending'.map SentFrame.view).flatMap (fun pf => pf.wire) =
      pending'.flatMap SentFrame.wire := by
    rw [List.flatMap_map]
    rfl
  have hmessages := collapse_messages (fun m hm => hdata m (by simp [hm])) hfits
  unfold parseBuffer
  simp only [hgreedy, bind, Except.bind, hctl, hdat, haccept, hmessages, hkeep,
    map_toFrame_controls hcontrols, hwires]
  rw [if_neg (by omega), List.drop_left, Int.toNat_natCast, List.take_length]
  rfl

/-- One chunk. -/
theorem Link.step (h : Link maskEnforcement messages controls pending todo tail) {chunk : Bytes}
    (hchunk : tail ++ chunk <+: todo.flatMap SentFrame.wire) :
    ∃ ms₁ ms₂ cs₁ cs₂ taken pending' todo' tail',
      messages = ms₁ ++ ms₂ ∧ controls = cs₁ ++ cs₂ ∧ todo = taken ++ todo' ∧
      tail ++ chunk = taken.flatMap SentFrame.wire ++ tail' ∧
      Link maskEnforcement ms₂ cs₂ pending' todo' tail' ∧
      parseBuffer maskEnforcement (pending.flatMap SentFrame.wire ++ tail ++ chunk) =
        .ok (cs₁.map SentMessage.frame ++ ms₁.map SentMessage.frame,
          pending'.flatMap SentFrame.wire ++ tail') := by
  obtain ⟨taken, todo', tail', rfl, htail, hrem⟩ := Framing.exists_remainder _ _ hchunk
  have hdataFrames := h.dataFrames
  have hctlFrames := h.controlFrames
  rw [List.filter_append] at hdataFrames hctlFrames
  rw [← List.append_assoc] at hdataFrames
  -- the data frames that are there make up whole messages and the new unfinished one
  obtain ⟨ms₁, ms₂, pending', rfl, hpending, hremMsg⟩ :=
    Framing.exists_remainder _ _ ⟨_, hdataFrames⟩
  obtain ⟨cs₁, cs₂, rfl, hcs₁, hcs₂⟩ := controls_split h.fitsControl hctlFrames
  have hpendingFilter : pending.filter (fun f => !f.type.isControl) = pending :=
    List.filter_eq_self.mpr fun f hf => by simp [h.pendingData f hf]
  have hpendingControl : pending.filter (fun f => f.type.isControl) = [] :=
    List.filter_eq_nil_iff.mpr fun f hf => by simp [h.pendingData f hf]
  have hlink : Link maskEnforcement ms₂ cs₂ pending' todo' tail' :=
    { isData := fun m hm => h.isData m (by simp [hm])
      fits := fun m hm => h.fits m (by simp [hm])
      fitsControl := fun c hc => h.fitsControl c (by simp [hc])
      valid := by
        intro f hf
        rw [List.mem_append] at hf
        apply h.valid f
        rcases hf with hf | hf
        · have hmem : f ∈ pending ++ taken.filter (fun f => !f.type.isControl) := by
            rw [hpending]
            simp [hf]
          simp only [List.mem_append, List.mem_filter] at hmem ⊢
          tauto
        · simp [hf]
      pendingData := by
        intro f hf
        have hmem : f ∈ pending ++ taken.filter (fun f => !f.type.isControl) := by
          rw [hpending]
          simp [hf]
        rw [List.mem_append, List.mem_filter] at hmem
        rcases hmem with hmem | hmem
        · exact h.pendingData f hmem
        · simpa using hmem.2
      dataFrames := by
        rw [hpending, List.flatMap_append, List.append_assoc] at hdataFrames
        exact List.append_cancel_left hdataFrames
      controlFrames := hcs₂
      unfinishedMessage := hremMsg
      unfinishedFrame := hrem }
  have hparse := parseBuffer_eq (pending ++ taken)
    (fun f hf => h.valid f (by simpa using hf)) hrem hlink.length_tail_le h.isData
    (fun m hm => h.fits m (by simp [hm]))
    (fun c (hc : c ∈ cs₁) => h.fitsControl c (by simp [hc]))
    (by rw [List.filter_append, hpendingFilter, hpending])
    (by rw [List.filter_append, hpendingControl, List.nil_append, hcs₁]) hremMsg
  refine ⟨ms₁, ms₂, cs₁, cs₂, taken, pending', todo', tail', rfl, rfl, rfl, htail, hlink, ?_⟩
  rw [List.append_assoc, htail, ← List.append_assoc, ← List.flatMap_append]
  exact hparse

/-- Everything is delivered by the end of the stream. -/
theorem Link.run {chunks : List Bytes} :
    ∀ {messages controls : List SentMessage} {pending todo : List SentFrame} {tail : Bytes},
      Link maskEnforcement messages controls pending todo tail →
      tail ++ chunks.flatten = todo.flatMap SentFrame.wire →
      ∃ delivered,
        parseChunks maskEnforcement (pending.flatMap SentFrame.wire ++ tail) chunks =
          .ok (delivered, []) ∧
        delivered.filter (fun f => !f.isControl) = messages.map SentMessage.frame ∧
        delivered.filter (fun f => f.isControl) = controls.map SentMessage.frame := by
  induction chunks with
  | nil =>
      intro messages controls pending todo tail h hall
      rw [List.flatten_nil, List.append_nil] at hall
      have htodo := h.unfinishedFrame.todo_eq_nil hall
      subst htodo
      have htail := h.unfinishedFrame.tail_eq_nil
      have hdata := h.dataFrames
      rw [List.filter_nil, List.append_nil] at hdata
      have hmessages := h.unfinishedMessage.todo_eq_nil hdata
      subst hmessages
      have hpending := h.unfinishedMessage.tail_eq_nil
      have hcontrols : controls = [] := by
        have hctl := h.controlFrames
        rw [List.filter_nil, eq_comm, List.flatMap_eq_nil_iff] at hctl
        rw [List.eq_nil_iff_forall_not_mem]
        intro c hc
        exact c.frames_ne_nil (hctl c hc)
      subst htail hpending hcontrols
      exact ⟨[], rfl, rfl, rfl⟩
  | cons chunk chunks ih =>
      intro messages controls pending todo tail h hall
      rw [List.flatten_cons, ← List.append_assoc] at hall
      obtain ⟨ms₁, ms₂, cs₁, cs₂, taken, pending', todo', tail', rfl, rfl, rfl, htail, hlink,
        hparse⟩ := h.step ⟨chunks.flatten, hall⟩
      rw [htail, List.flatMap_append, List.append_assoc] at hall
      obtain ⟨delivered, hrun, hdata, hctl⟩ := ih hlink (List.append_cancel_left hall)
      have hms : ∀ m ∈ ms₁.map SentMessage.frame, m.isControl = false := by
        intro f hf
        obtain ⟨m, hm, rfl⟩ := List.mem_map.mp hf
        rcases h.isData m (by simp [hm]) with ht | ht <;>
          simp [Frame.isControl, SentMessage.frame, ht] <;> decide
      have hcs : ∀ c ∈ cs₁.map SentMessage.frame, c.isControl = true := by
        intro f hf
        obtain ⟨c, hc, rfl⟩ := List.mem_map.mp hf
        exact (h.fitsControl c (by simp [hc])).1
      refine ⟨cs₁.map SentMessage.frame ++ ms₁.map SentMessage.frame ++ delivered, ?_, ?_, ?_⟩
      · rw [parseChunks, hparse]
        simp only [bind, Except.bind, hrun]
        rfl
      · rw [List.filter_append, List.filter_append, hdata,
          List.filter_eq_nil_iff.mpr (fun f hf => by simp [hcs f hf]),
          List.filter_eq_self.mpr (fun f hf => by simp [hms f hf]), List.nil_append,
          List.map_append]
      · rw [List.filter_append, List.filter_append, hctl,
          List.filter_eq_self.mpr (fun f hf => by simp [hcs f hf]),
          List.filter_eq_nil_iff.mpr (fun f hf => by simp [hms f hf]), List.append_nil,
          List.map_append]

end Run

section Delivery

/-- What the sender writes for some messages. -/
theorem fragments_mapM {ms : List SentMessage} :
    ∀ {fs : List (List Bytes)}, ms.mapM SentMessage.fragments = .ok fs →
      (∀ m ∈ ms, m.Fits) ∧ fs.flatten = (ms.flatMap SentMessage.frames).map SentFrame.wire := by
  induction ms with
  | nil =>
      intro fs h
      rw [List.mapM_nil] at h
      cases h
      exact ⟨by simp, rfl⟩
  | cons m ms ih =>
      intro fs h
      rw [List.mapM_cons] at h
      cases hm : m.fragments with
      | error e =>
          rw [hm] at h
          cases h
      | ok g =>
          cases hms : ms.mapM SentMessage.fragments with
          | error e =>
              rw [hm, hms] at h
              cases h
          | ok gs =>
              rw [hm, hms] at h
              cases h
              obtain ⟨hfits, hg⟩ := SentMessage.fragments_ok hm
              obtain ⟨hall, hgs⟩ := ih hms
              refine ⟨List.forall_mem_cons.mpr ⟨hfits, hall⟩, ?_⟩
              rw [List.flatten_cons, List.flatMap_cons, List.map_append, hg, hgs]

/-- The type of every frame of a message tells whether it is a control frame. -/
theorem SentMessage.isControl_frames {m : SentMessage} {f : SentFrame} (hf : f ∈ m.frames)
    (hm : m.IsData) : f.type.isControl = false := by
  obtain ⟨-, htype, -⟩ := SentMessage.mem_frames hf
  rcases htype with h | h
  · rcases hm with hm | hm <;> rw [h, hm] <;> rfl
  · rw [h]
    rfl

/-- However the messages are fragmented and masked, wherever control frames are sent
between the fragments, and however the stream is cut into chunks: the messages and the
control frames are delivered, each in their order, and nothing is left in the buffer. -/
theorem parseChunks_delivers {maskEnforcement : MaskEnforcement}
    {messages controls : List SentMessage}
    (hdata : ∀ m ∈ messages, m.IsData) (hcontrol : ∀ c ∈ controls, c.type.isControl = true)
    (hmask : ∀ m ∈ messages ++ controls, maskEnforcement.Admits m.isMasked)
    {fragments ctlFragments : List (List Bytes)}
    (hmessages : messages.mapM SentMessage.fragments = .ok fragments)
    (hcontrols : controls.mapM SentMessage.fragments = .ok ctlFragments)
    {stream chunks : List Bytes}
    (hstream : Framing.Interleave fragments.flatten ctlFragments.flatten stream)
    (hchunks : chunks.flatten = stream.flatten) :
    ∃ delivered, parseChunks maskEnforcement [] chunks = .ok (delivered, []) ∧
      delivered.filter (fun f => !f.isControl) = messages.map SentMessage.frame ∧
      delivered.filter (fun f => f.isControl) = controls.map SentMessage.frame := by
  obtain ⟨hfits, hfragments⟩ := fragments_mapM hmessages
  obtain ⟨hfitsControl, hctlFragments⟩ := fragments_mapM hcontrols
  rw [hfragments, hctlFragments] at hstream
  obtain ⟨frames, rfl, hframes⟩ := hstream.exists_map
  have hdataType : ∀ f ∈ messages.flatMap SentMessage.frames, f.type.isControl = false := by
    intro f hf
    obtain ⟨m, hm, hf⟩ := List.mem_flatMap.mp hf
    exact SentMessage.isControl_frames hf (hdata m hm)
  have hctlType : ∀ f ∈ controls.flatMap SentMessage.frames, f.type.isControl = true := by
    intro f hf
    obtain ⟨c, hc, hf⟩ := List.mem_flatMap.mp hf
    rw [(hfitsControl c hc).frames_control (hcontrol c hc), List.mem_singleton] at hf
    rw [hf]
    exact hcontrol c hc
  have hvalid : ∀ f ∈ frames, f.Valid maskEnforcement := by
    refine hframes.forall_mem (fun f hf => ?_) (fun f hf => ?_)
    · obtain ⟨m, hm, hf⟩ := List.mem_flatMap.mp hf
      exact (hfits m hm).valid (hmask m (by simp [hm])) hf
    · obtain ⟨c, hc, hf⟩ := List.mem_flatMap.mp hf
      exact (hfitsControl c hc).valid (hmask c (by simp [hc])) hf
  have hlink : Link maskEnforcement messages controls [] frames [] :=
    { isData := hdata
      fits := hfits
      fitsControl := fun c hc => ⟨hcontrol c hc, hfitsControl c hc⟩
      valid := hvalid
      pendingData := by simp
      dataFrames := hframes.symm.filter_right (fun f hf => by simp [hctlType f hf])
        (fun f hf => by simp [hdataType f hf])
      controlFrames := hframes.filter_right hdataType hctlType
      unfinishedMessage := ⟨List.nil_prefix, fun m _ _ =>
        List.length_pos_iff.mpr m.frames_ne_nil⟩
      unfinishedFrame := ⟨List.nil_prefix, fun f _ _ =>
        List.length_pos_iff.mpr f.wire_ne_nil⟩ }
  refine hlink.run ?_
  rw [List.nil_append, hchunks, List.flatMap_def]

/-- A masked text message in three fragments with a ping after the first one, cut inside
the header of the ping. -/
theorem parseChunks_delivers_ping :
    ∃ delivered,
      parseChunks .requireMasked []
        [[1, 130, 1, 2, 3, 4, 73, 103, 137], [129, 1, 2, 3, 4, 8, 0, 130, 1, 2, 3, 4, 109, 110],
          [128, 129, 1, 2, 3, 4, 110]] = .ok (delivered, []) ∧
      delivered.filter (fun f => !f.isControl) = [⟨.text, true, [72, 101, 108, 108, 111]⟩] ∧
      delivered.filter (fun f => f.isControl) = [⟨.ctlPing, true, [9]⟩] := by
  refine @parseChunks_delivers .requireMasked
    [⟨[72, 101, 108, 108, 111], .text, true, 2, fun _ => ⟨[1, 2, 3, 4], rfl⟩⟩]
    [⟨[9], .ctlPing, true, 2, fun _ => ⟨[1, 2, 3, 4], rfl⟩⟩]
    ?_ ?_ ?_ _ _ rfl rfl
    [[1, 130, 1, 2, 3, 4, 73, 103], [137, 129, 1, 2, 3, 4, 8],
      [0, 130, 1, 2, 3, 4, 109, 110], [128, 129, 1, 2, 3, 4, 110]] _
    (.left _ (.right _ (.left _ (.left _ .nil)))) rfl
  · simp [SentMessage.IsData]
  · simp
    decide
  · simp [MaskEnforcement.Admits]

end Delivery

end WebSocket
end Shulcrum
