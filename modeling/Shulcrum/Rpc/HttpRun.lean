import Mathlib.Data.Prod.Lex
import Mathlib.Order.WellFounded
import Shulcrum.Rpc.Http

/-!
# Replies cut into chunks

The bytes of a sequence of replies arrive in chunks, and the calls of
`on_readyRead` come in any order.

**Results.**
* `onReadyRead_spec`: what a call hands over, and when it leaves nothing to do.
* `Inv.step`: no step loses, merges or repeats a reply.
* `http_framing`: all replies are handed over, each once and in order.
-/

namespace Shulcrum
namespace Rpc
namespace Http

open Invariant

variable {lim : Limits}

section Call

/-- There is nothing to do before more bytes arrive. -/
def HttpConnection.Waits (c : HttpConnection) : Prop :=
  if c.sm.state = .readingContent then
    c.buffer = [] ∧ (c.sm.content.length : Int) < c.sm.contentLength
  else readLine c.buffer = none

/-- What a call does with the replies that are still to be handed over. -/
structure Progress (c c' : HttpConnection) (inFlight : List UInt8) (out rs : List Response) :
    Prop where
  good : c'.good = c.good
  handed : c'.handed = c.handed ++ out.map Response.body
  pos : Pos c'.sm (c'.buffer ++ inFlight) rs
  queued : c'.queued = c.queued ∧ out = [] ∨ out.length = 1
  waits : c'.queued = 0 → c'.Waits

/-- A call hands over a reply, or leaves nothing to do. -/
theorem onReadyRead_spec {c : HttpConnection} {inFlight : List UInt8} {rs : List Response}
    (hmax : lim.maxBuffer ≤ 0) (hv : ∀ r ∈ rs, r.Valid lim)
    (hpos : Pos c.sm (c.buffer ++ inFlight) rs) :
    ∃ out rs', rs = out ++ rs' ∧ Progress c (c.onReadyRead lim) inFlight out rs' := by
  obtain ⟨sm, buffer, hread, hpos', hstop⟩ := pos_readLines hmax hv hpos le_rfl
  have hnolimit : ∀ n : Nat, ¬ (lim.maxBuffer > 0 ∧ (n : Int) > lim.maxBuffer) := by
    intro n
    omega
  by_cases hstate : sm.state = .readingContent
  · -- the machine is in the body of the next reply
    generalize hbytes : buffer ++ inFlight = bytes at hpos'
    cases hpos' with
    | between => cases hstate
    | @inside _ r rest rs h =>
        cases h with
        | header _ hst => cases hst.symm.trans hstate
        | content hbody hst hlength =>
            have hmissing : (sm.contentLength - sm.content.length).toNat = rest.length := by
              have hlen := congrArg List.length hbody
              rw [List.length_append] at hlen
              omega
            by_cases hle : rest.length ≤ buffer.length
            · -- all of it is there
              have htake : buffer.take rest.length = rest := by
                have h := congrArg (List.take rest.length) hbytes
                rwa [List.take_append_of_le_length hle, List.take_left] at h
              have hdrop : buffer.drop rest.length ++ inFlight = rs.flatMap Response.bytes := by
                have h := congrArg (List.drop rest.length) hbytes
                rwa [List.drop_append_of_le_length hle, List.drop_left] at h
              have hfull : ((sm.content ++ rest).length : Int) ≥ sm.contentLength := by
                rw [← hbody, hlength]
              refine ⟨[r], rs, rfl, ?_⟩
              have hcall : c.onReadyRead lim =
                  { c with
                    sm := {}
                    buffer := buffer.drop rest.length
                    handed := c.handed ++ [r.body]
                    queued :=
                      if buffer.drop rest.length ≠ [] then c.queued + 1 else c.queued } := by
                have hlim : lim.maxBuffer ≤ 0 ∨
                    ((buffer.drop rest.length).length : Int) ≤ lim.maxBuffer := Or.inl hmax
                simp only [HttpConnection.onReadyRead, hread, readContent, hstate, if_true,
                  hmissing, htake, hfull, and_self, hbody, hlim, and_true]
                exact if_neg (hnolimit _)
              rw [hcall]
              refine ⟨rfl, rfl, ?_, Or.inr rfl, ?_⟩
              · simp only [hdrop]
                exact .between
              · intro hq
                have hnil : buffer.drop rest.length = [] := by
                  by_contra hne
                  simp only [if_pos hne] at hq
                  omega
                simp [HttpConnection.Waits, hnil, readLine]
            · -- only a part of it is there
              have htake : buffer.take rest.length = buffer := List.take_of_length_le (by omega)
              have hdrop : buffer.drop rest.length = [] := List.drop_eq_nil_of_le (by omega)
              obtain ⟨more, hmore⟩ : ∃ more, rest = buffer ++ more := by
                refine ⟨rest.drop buffer.length, ?_⟩
                have h := congrArg (List.take buffer.length) hbytes
                rw [List.take_left, List.take_append_of_le_length (by omega)] at h
                conv_lhs => rw [← List.take_append_drop buffer.length rest, ← h]
              have hinFlight : inFlight = more ++ rs.flatMap Response.bytes := by
                rw [hmore, List.append_assoc] at hbytes
                exact List.append_cancel_left hbytes
              have hbody' : r.body = (sm.content ++ buffer) ++ more := by
                rw [hbody, hmore, List.append_assoc]
              have hpart : ((sm.content ++ buffer).length : Int) < sm.contentLength := by
                have hlen := congrArg List.length hbody
                rw [List.length_append] at hlen
                rw [hlength, List.length_append]
                omega
              refine ⟨[], r :: rs, rfl, ?_⟩
              have hcall : c.onReadyRead lim =
                  { c with sm := { sm with content := sm.content ++ buffer }, buffer := [] } := by
                have hnot : ¬ (((sm.content ++ buffer).length : Int) ≥ sm.contentLength) := by
                  omega
                simp only [HttpConnection.onReadyRead, hread, readContent, hstate, if_true,
                  hmissing, htake, hdrop, hnot, and_false, if_false]
                exact if_neg (hnolimit _)
              rw [hcall]
              refine ⟨rfl, by simp, ?_, Or.inl ⟨rfl, rfl⟩, ?_⟩
              · rw [List.nil_append, hinFlight]
                exact .inside (.content hbody' hstate hlength)
              · intro _
                simp only [HttpConnection.Waits, hstate, if_true]
                exact ⟨trivial, hpart⟩
  · -- there is no further line
    have hnone := hstop.resolve_left hstate
    refine ⟨[], rs, rfl, ?_⟩
    have hcall : c.onReadyRead lim = { c with sm := sm, buffer := buffer } := by
      simp only [HttpConnection.onReadyRead, hread, readContent, hstate, if_false, false_and]
      exact if_neg (hnolimit _)
    rw [hcall]
    refine ⟨rfl, by simp, hpos', Or.inl ⟨rfl, rfl⟩, ?_⟩
    intro _
    simp only [HttpConnection.Waits, hstate, if_false]
    exact hnone

end Call

section Run

variable {all : List Response} {s s' : Link}

/-- The invariant of all runs on a sequence of replies. -/
structure Inv (lim : Limits) (all : List Response) (s : Link) : Prop where
  good : s.conn.good = true
  pos : ∃ out rs, all = out ++ rs ∧ s.conn.handed = out.map Response.body ∧
    Pos s.conn.sm (s.conn.buffer ++ s.inFlight) rs
  waits : s.readyReads = 0 → s.conn.queued = 0 → s.conn.Waits

/-- The start: nothing has arrived. -/
def Start (all : List Response) (s : Link) : Prop :=
  s = { inFlight := all.flatMap Response.bytes }

theorem Inv.start (h : Start all s) : Inv lim all s := by
  subst h
  exact ⟨rfl, ⟨[], all, rfl, rfl, .between⟩, fun _ _ => rfl⟩

/-- A call of `on_readyRead` keeps the invariant. -/
theorem Inv.call (hmax : lim.maxBuffer ≤ 0) (hv : ∀ r ∈ all, r.Valid lim) {c : HttpConnection}
    {n : Nat} (hgood : c.good = true)
    (hpos : ∃ out rs, all = out ++ rs ∧ c.handed = out.map Response.body ∧
      Pos c.sm (c.buffer ++ s.inFlight) rs) :
    Inv lim all { s with conn := c.onReadyRead lim, readyReads := n } := by
  obtain ⟨out, rs, rfl, hhanded, hpos⟩ := hpos
  have hrs : ∀ r ∈ rs, r.Valid lim := fun r hr => hv r (List.mem_append_right out hr)
  obtain ⟨out', rs', rfl, hprogress⟩ := onReadyRead_spec hmax hrs hpos
  refine ⟨hprogress.good.trans hgood, ?_, fun _ hq => hprogress.waits hq⟩
  refine ⟨out ++ out', rs', (List.append_assoc _ _ _).symm, ?_, hprogress.pos⟩
  rw [hprogress.handed, hhanded, List.map_append]

/-- No step loses, merges or repeats a reply. -/
theorem Inv.step (hmax : lim.maxBuffer ≤ 0) (hv : ∀ r ∈ all, r.Valid lim) (hinv : Inv lim all s)
    (h : Step lim s s') : Inv lim all s' := by
  obtain ⟨hgood, hpos, hwaits⟩ := hinv
  cases h with
  | arrive hne hflight hevents hle =>
      refine ⟨hgood, ?_, ?_⟩
      · rw [hflight] at hpos
        simpa only [List.append_assoc] using hpos
      · intro hzero
        exact absurd hzero hevents.ne'
  | readyRead hread => exact Inv.call hmax hv hgood hpos
  | @followUp n hqueued => exact Inv.call (c := { s.conn with queued := n }) hmax hv hgood hpos

/-- The invariant holds in all runs. -/
theorem Inv.reachable (hmax : lim.maxBuffer ≤ 0) (hv : ∀ r ∈ all, r.Valid lim)
    (h : Reachable (Start all) (Step lim) s) : Inv lim all s := by
  refine h.invariant ?_ ?_
  · intro s hs
    exact Inv.start hs
  · intro s s' hinv hstep
    exact hinv.step hmax hv hstep

/-- When there is nothing to do and nothing on its way, all replies were handed over. -/
theorem Pos.done {sm : StateMachine} {buffer : List UInt8} {rs : List Response}
    (hpos : Pos sm buffer rs)
    (hwaits : if sm.state = .readingContent then
        buffer = [] ∧ (sm.content.length : Int) < sm.contentLength
      else readLine buffer = none) :
    rs = [] ∧ sm.state = .begin ∧ buffer = [] := by
  cases hpos with
  | between =>
      cases rs with
      | nil => exact ⟨rfl, rfl, rfl⟩
      | cons r rs =>
          rw [if_neg (by simp), readLine_eq_none_iff] at hwaits
          refine absurd ?_ hwaits
          simp [Response.bytes, Response.statusLine, LineEnd.mem_bytes]
  | @inside _ r rest rs h =>
      cases h with
      | header _ hst =>
          rw [if_neg (by simp [hst]), readLine_eq_none_iff] at hwaits
          refine absurd ?_ hwaits
          simp [Response.after, LineEnd.mem_bytes]
      | content hbody hst hlength =>
          rw [if_pos hst] at hwaits
          have hrest : rest = [] := (List.append_eq_nil_iff.mp hwaits.1).1
          rw [hrest, List.append_nil] at hbody
          rw [hlength, hbody] at hwaits
          exact absurd hwaits.2 (lt_irrefl _)

/-- What a step leaves to be done: bytes to arrive, replies to hand over, and calls. -/
def todo (all : List Response) (s : Link) : Nat ×ₗ Nat ×ₗ Nat :=
  toLex (s.inFlight.length,
    toLex (all.length - s.conn.handed.length, s.readyReads + s.conn.queued))

/-- Every step leaves less to be done. -/
theorem todo_lt (hmax : lim.maxBuffer ≤ 0) (hv : ∀ r ∈ all, r.Valid lim) (hinv : Inv lim all s)
    (h : Step lim s s') : todo all s' < todo all s := by
  have hcall : ∀ (c : HttpConnection) (n : Nat), c.handed = s.conn.handed →
      c.sm = s.conn.sm → c.buffer = s.conn.buffer →
      n + c.queued < s.readyReads + s.conn.queued →
      todo all { s with conn := c.onReadyRead lim, readyReads := n } < todo all s := by
    intro c n hhanded hsm hbuffer hlt
    obtain ⟨out, rs, rfl, hout, hpos⟩ := hinv.pos
    rw [← hsm, ← hbuffer] at hpos
    have hrs : ∀ r ∈ rs, r.Valid lim := fun r hr => hv r (List.mem_append_right out hr)
    obtain ⟨out', rs', rfl, hprogress⟩ := onReadyRead_spec hmax hrs hpos
    refine Prod.Lex.toLex_lt_toLex.mpr (Or.inr ⟨rfl, Prod.Lex.toLex_lt_toLex.mpr ?_⟩)
    have hlen := congrArg List.length hprogress.handed
    rw [List.length_append, List.length_map, hhanded] at hlen
    have hlen' := congrArg List.length hout
    rw [List.length_map] at hlen'
    simp only [List.length_append]
    rcases hprogress.queued with ⟨hq, rfl⟩ | hone
    · rw [List.length_nil] at hlen
      refine Or.inr ⟨by omega, ?_⟩
      rw [hq]
      exact hlt
    · exact Or.inl (by omega)
  cases h with
  | arrive hne hflight hevents hle =>
      refine Prod.Lex.toLex_lt_toLex.mpr (Or.inl ?_)
      have hpos := List.length_pos_iff.mpr hne
      simp only [hflight, List.length_append]
      omega
  | readyRead hread => exact hcall _ _ rfl rfl rfl (by omega)
  | @followUp n hqueued =>
      exact hcall { s.conn with queued := n } s.readyReads rfl rfl rfl (by
        simp only
        omega)

/--
For every sequence of replies, every way of cutting it into chunks and every order
of the calls: the connection stays up, the bodies are handed over in order, each
once, and when all bytes have arrived and no call is pending, all of them were and
the machine is back at its start with an empty buffer.  Every run comes to that end.
-/
theorem http_framing (lim : Limits) (hmax : lim.maxBuffer ≤ 0) (all : List Response)
    (hv : ∀ r ∈ all, r.Valid lim) :
    (∀ s, Reachable (Start all) (Step lim) s →
      s.conn.good = true ∧ s.conn.handed <+: all.map Response.body ∧
      (s.inFlight = [] → s.readyReads = 0 → s.conn.queued = 0 →
        s.conn.handed = all.map Response.body ∧ s.conn.sm.state = .begin ∧
          s.conn.buffer = [])) ∧
    WellFounded fun s' s => Reachable (Start all) (Step lim) s ∧ Step lim s s' := by
  constructor
  · intro s hs
    obtain ⟨hgood, ⟨out, rs, hall, hhanded, hpos⟩, hwaits⟩ := Inv.reachable hmax hv hs
    refine ⟨hgood, ?_, ?_⟩
    · rw [hhanded, hall, List.map_append]
      exact List.prefix_append _ _
    · intro hflight hreads hqueued
      rw [hflight, List.append_nil] at hpos
      obtain ⟨rfl, hstate, hbuffer⟩ := hpos.done (hwaits hreads hqueued)
      rw [List.append_nil] at hall
      exact ⟨by rw [hhanded, hall], hstate, hbuffer⟩
  · refine Subrelation.wf ?_ (InvImage.wf (todo all) wellFounded_lt)
    rintro s' s ⟨hs, hstep⟩
    exact todo_lt hmax hv (Inv.reachable hmax hv hs) hstep

end Run

section Witness

/-- No limit, and sizes of 64 bits. -/
def noLimit : Limits := ⟨2 ^ 63 - 1, 0⟩

/-- A reply whose body has a line feed. -/
def smallReply : Response where
  proto := ascii "HTTP/1.1"
  code := ascii "200"
  reason := ascii "OK"
  statusEnd := .crlf
  headers :=
    [⟨ascii "Content-Length", ascii " 3", .lf⟩, ⟨ascii "content-type", ascii " a/b", .crlf⟩]
  headersEnd := .crlf
  body := [123, 10, 125]

theorem valid_smallReply : smallReply.Valid noLimit where
  proto := by decide
  code := ⟨200, ⟨by decide, by decide +kernel, by decide⟩, by decide, by decide⟩
  reason := ⟨by decide, 79, by decide, by decide⟩
  headers := by
    intro h hh
    rcases List.mem_pair.mp hh with rfl | rfl
    · exact ⟨by decide, by decide +kernel, by decide⟩
    · exact ⟨by decide, by decide +kernel, by decide⟩
  contentType := ⟨_, List.mem_cons_of_mem _ List.mem_cons_self, by decide⟩
  contentTypes := by decide +kernel
  contentLength := ⟨_, List.mem_cons_self, by decide⟩
  contentLengths := by
    intro h hh hname
    rcases List.mem_pair.mp hh with rfl | rfl
    · exact ⟨by decide, by decide +kernel, by decide⟩
    · exact absurd hname (by decide)
  body := by decide

/-- Two replies in three pieces, cut inside a header line and inside the first body. -/
def chunks : List (List UInt8) :=
  [smallReply.bytes.take 20, (smallReply.bytes.drop 20).dropLast, 125 :: smallReply.bytes]

/-- A piece arrives, and the call for it runs. -/
def received (c : HttpConnection) (chunk : List UInt8) : HttpConnection :=
  HttpConnection.onReadyRead noLimit { c with buffer := c.buffer ++ chunk }

theorem reachable_received {all : List Response} {l : List (List UInt8)} (hne : ∀ x ∈ l, x ≠ [])
    {c : HttpConnection}
    (h : Reachable (Start all) (Step noLimit) { conn := c, inFlight := l.flatten }) :
    Reachable (Start all) (Step noLimit) { conn := l.foldl received c, inFlight := [] } := by
  induction l generalizing c with
  | nil => exact h
  | cons x l ih =>
      obtain ⟨hx, hl⟩ := List.forall_mem_cons.mp hne
      have harrive := h.next (.arrive hx rfl Nat.one_pos (Nat.zero_le 1))
      exact ih hl (harrive.next (.readyRead rfl))

/-- The second reply is handed over by the call that the first one has queued. -/
theorem http_framing_twoReplies :
    (HttpConnection.onReadyRead noLimit { chunks.foldl received {} with queued := 0 }).handed =
      [smallReply.body, smallReply.body] := by
  have hvalid : ∀ r ∈ [smallReply, smallReply], r.Valid noLimit := by
    intro r hr
    rcases List.mem_pair.mp hr with rfl | rfl <;> exact valid_smallReply
  have hstart : [smallReply, smallReply].flatMap Response.bytes = chunks.flatten := by decide
  have h1 := reachable_received (by decide) (.start (congrArg (Link.mk {} · 0) hstart.symm))
  have h2 := h1.next (.followUp (n := 0) (by decide))
  exact (((http_framing noLimit (by decide) _ hvalid).1 _ h2).2.2 rfl rfl (by decide)).1

end Witness

end Http
end Rpc
end Shulcrum
