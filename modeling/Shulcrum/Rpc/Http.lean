import Mathlib.Logic.Relation
import Shulcrum.Lib.Invariant
import Shulcrum.Rpc.HttpText

/-!
# Replies over HTTP

`HttpConnection` reads a status line and header lines, and then as many bytes as
the header has announced.  One call of `on_readyRead` reads at most one reply.  If
there is more in the socket afterwards, the function queues a call of itself.

What is only logged is left out: the status message, the unexpected codes and
content types, and the connection header.

**Results.**
* `Inside`, `Pos`: where the machine is in the stream of replies.
* `pos_handleLine`: a line that is there moves the machine on.
* `pos_readLines`: so do all lines that are there.
-/

namespace Shulcrum
namespace Rpc
namespace Http

open Invariant

section Model

/-- `StateMachine::State`. -/
inductive St where
  | begin
  | header
  | readingContent
  deriving DecidableEq

/-- `HttpConnection::StateMachine`. -/
structure StateMachine where
  state : St := .begin
  status : Int := 0
  /-- The text by its bytes, without a byte order mark. -/
  contentType : List UInt8 := []
  content : List UInt8 := []
  contentLength : Int := 0
  gotLength : Bool := false

/-- The bytes of an ASCII string. -/
def ascii (s : String) : List UInt8 := s.toList.map fun c => UInt8.ofNat c.toNat

/-- The greatest `QByteArray::size_type`, and `MAX_BUFFER`. -/
structure Limits where
  sizeMax : Nat
  maxBuffer : Int

/-- The first line of a buffer with its line feed, and the rest; `none` if `canReadLine` is
false. -/
def readLine : List UInt8 → Option (List UInt8 × List UInt8)
  | [] => none
  | b :: bs =>
      if b = 10 then some ([b], bs)
      else (readLine bs).map fun r => (b :: r.1, r.2)

/-- `QString::fromUtf8` drops a byte order mark. -/
def dropByteOrderMark (ba : List UInt8) : List UInt8 :=
  if ba.take 3 = [0xef, 0xbb, 0xbf] then ba.drop 3 else ba

/-- The status line. -/
def handleStatusLine (sm : StateMachine) (data : List UInt8) : Except String StateMachine :=
  match split 32 data with
  | proto :: code :: _ :: _ =>
      if toUpper proto ≠ ascii "HTTP/1.1" then .error "Protocol not HTTP/1.1"
      else
        let status := (toIntegral (2 ^ 31 - 1) code).getD 0
        if status = 0 then .error "Could not parse status code"
        else .ok { sm with status := status, state := .header }
  | _ => .error "Expected HTTP/1.1 line"

/-- A header line that is not empty. -/
def handleHeaderLine (lim : Limits) (sm : StateMachine) (data : List UInt8) :
    Except String StateMachine :=
  match split 58 data with
  | name :: v :: vs =>
      let name := toLower (simplified name)
      let value := simplified (join 58 (v :: vs))
      if name = ascii "content-type" then .ok { sm with contentType := dropByteOrderMark value }
      else if name = ascii "content-length" then
        match toIntegral lim.sizeMax value with
        | none => .error "Could not parse content-length"
        | some contentLength =>
            if contentLength < 0 then .error "Could not parse content-length"
            else if lim.maxBuffer > 0 ∧ contentLength > lim.maxBuffer then
              .error "Peer wants to send us too much, exceeding our buffer limit"
            else .ok { sm with contentLength := contentLength, gotLength := true }
      else .ok sm
  | _ => .error "Expected header line"

/-- A line in one of the first two states. -/
def handleLine (lim : Limits) (sm : StateMachine) (data : List UInt8) :
    Except String StateMachine :=
  match sm.state with
  | .begin => handleStatusLine sm data
  | .header =>
      if data ≠ [] then handleHeaderLine lim sm data
      else if sm.contentType = [] ∨ sm.gotLength = false then
        .error "Premature header end; did not receive BOTH content-type and content-length"
      else .ok { sm with state := .readingContent }
  | .readingContent => .ok sm

/-- The loop over the lines; the number bounds the rounds, each of which takes a byte or more. -/
def readLines (lim : Limits) : Nat → StateMachine → List UInt8 →
    Except String (StateMachine × List UInt8)
  | 0, sm, buffer => .ok (sm, buffer)
  | n + 1, sm, buffer =>
      if sm.state = .readingContent then .ok (sm, buffer)
      else
        match readLine buffer with
        | none => .ok (sm, buffer)
        | some (line, rest) =>
            match handleLine lim sm (simplified line) with
            | .error e => .error e
            | .ok sm => readLines lim n sm rest

/-- The loop over the content, which ends after a round: it takes what is there, or what is
missing. -/
def readContent (sm : StateMachine) (buffer : List UInt8) : StateMachine × List UInt8 :=
  if sm.state = .readingContent then
    let n2read := (sm.contentLength - sm.content.length).toNat
    ({ sm with content := sm.content ++ buffer.take n2read }, buffer.drop n2read)
  else (sm, buffer)

/-- The connection: the machine, the bytes in the socket, the calls that the function has queued
for itself, and what was given to `processJson`. -/
structure HttpConnection where
  sm : StateMachine := {}
  buffer : List UInt8 := []
  queued : Nat := 0
  handed : List (List UInt8) := []
  good : Bool := true

/-- An exception ends the connection. -/
def HttpConnection.fail (c : HttpConnection) : HttpConnection :=
  { c with sm := {}, buffer := [], good := false }

/-- `HttpConnection::on_readyRead`. -/
def HttpConnection.onReadyRead (lim : Limits) (c : HttpConnection) : HttpConnection :=
  match readLines lim c.buffer.length c.sm c.buffer with
  | .error _ => c.fail
  | .ok (sm, buffer) =>
      let (sm, buffer) := readContent sm buffer
      let c :=
        if sm.state = .readingContent ∧ sm.content.length ≥ sm.contentLength then
          { c with
            sm := {}
            buffer := buffer
            handed := c.handed ++ [sm.content]
            queued :=
              if buffer ≠ [] ∧ (lim.maxBuffer ≤ 0 ∨ buffer.length ≤ lim.maxBuffer) then
                c.queued + 1
              else c.queued }
        else { c with sm := sm, buffer := buffer }
      if lim.maxBuffer > 0 ∧ c.buffer.length > lim.maxBuffer then c.fail else c

/-- A connection together with the bytes that are on their way, and the `readyRead` events that
were not delivered yet. -/
structure Link where
  conn : HttpConnection := {}
  inFlight : List UInt8
  readyReads : Nat := 0

/--
The steps.  When bytes arrive there is at least one event afterwards; the socket
may merge it with one that is still to be delivered.
-/
inductive Step (lim : Limits) : Link → Link → Prop
  | arrive {s : Link} {chunk rest : List UInt8} {events : Nat} (hne : chunk ≠ [])
      (h : s.inFlight = chunk ++ rest) (hpos : 0 < events) (hle : s.readyReads ≤ events) :
      Step lim s
        { s with
          conn := { s.conn with buffer := s.conn.buffer ++ chunk }
          inFlight := rest
          readyReads := events }
  | readyRead {s : Link} {n : Nat} (h : s.readyReads = n + 1) :
      Step lim s { s with conn := s.conn.onReadyRead lim, readyReads := n }
  | followUp {s : Link} {n : Nat} (h : s.conn.queued = n + 1) :
      Step lim s { s with conn := { s.conn with queued := n }.onReadyRead lim }

end Model

section Responses

/-- The two line ends. -/
inductive LineEnd where
  | crlf
  | lf

def LineEnd.bytes : LineEnd → List UInt8
  | .crlf => [13, 10]
  | .lf => [10]

/-- A header line. -/
structure Header where
  name : List UInt8
  value : List UInt8
  lineEnd : LineEnd

def Header.bytes (h : Header) : List UInt8 :=
  h.name ++ 58 :: (h.value ++ h.lineEnd.bytes)

/-- A reply, in the notation of the sender. -/
structure Response where
  proto : List UInt8
  code : List UInt8
  reason : List UInt8
  statusEnd : LineEnd
  headers : List Header
  headersEnd : LineEnd
  body : List UInt8

namespace Response

def statusLine (r : Response) : List UInt8 :=
  r.proto ++ 32 :: (r.code ++ 32 :: (r.reason ++ r.statusEnd.bytes))

/-- What follows the status line and some of the header lines. -/
def after (r : Response) (todo : List Header) : List UInt8 :=
  todo.flatMap Header.bytes ++ (r.headersEnd.bytes ++ r.body)

def bytes (r : Response) : List UInt8 := r.statusLine ++ r.after r.headers

end Response

/-- A header line: the name is a token, and the value stays on the line. -/
structure Header.Valid (h : Header) : Prop where
  name_ne : h.name ≠ []
  name : ∀ x ∈ h.name, isSpace x = false ∧ x ≠ 58
  value : 10 ∉ h.value

/--
A reply of HTTP/1.1 with a numeric code and a reason phrase, whose headers tell a
content type and the length of the body.
-/
structure Response.Valid (lim : Limits) (r : Response) : Prop where
  proto : toUpper r.proto = ascii "HTTP/1.1"
  code : ∃ n, IsNumber r.code n ∧ 0 < n ∧ n ≤ 2 ^ 31 - 1
  reason : 10 ∉ r.reason ∧ ∃ x ∈ r.reason, isSpace x = false
  headers : ∀ h ∈ r.headers, h.Valid
  contentType : ∃ h ∈ r.headers, toLower h.name = ascii "content-type"
  contentTypes : ∀ h ∈ r.headers, toLower h.name = ascii "content-type" →
    simplified h.value ≠ [] ∧ ∀ x ∈ simplified h.value, x < 128
  contentLength : ∃ h ∈ r.headers, toLower h.name = ascii "content-length"
  contentLengths : ∀ h ∈ r.headers, toLower h.name = ascii "content-length" →
    IsNumber (simplified h.value) r.body.length
  /-- A `QByteArray` can hold the body. -/
  body : r.body.length ≤ lim.sizeMax

end Responses

section ReadLine

variable {a b t l rest : List UInt8}

theorem readLine_append (h : readLine a = some (l, rest)) (b : List UInt8) :
    readLine (a ++ b) = some (l, rest ++ b) := by
  induction a generalizing l rest with
  | nil => cases h
  | cons c a ih =>
      rw [readLine] at h
      rw [List.cons_append, readLine]
      split_ifs at h ⊢ with hc
      · cases h
        rfl
      · obtain ⟨r, hr, hpair⟩ := Option.map_eq_some_iff.mp h
        cases hpair
        rw [ih hr]
        rfl

theorem readLine_of_notMem (h : 10 ∉ t) (rest : List UInt8) :
    readLine (t ++ 10 :: rest) = some (t ++ [10], rest) := by
  induction t with
  | nil => rfl
  | cons c t ih =>
      rw [List.mem_cons, not_or] at h
      rw [List.cons_append, readLine, if_neg (Ne.symm h.1), ih h.2]
      rfl

theorem length_rest_lt (h : readLine a = some (l, rest)) : rest.length < a.length := by
  induction a generalizing l rest with
  | nil => cases h
  | cons c a ih =>
      rw [readLine] at h
      split_ifs at h with hc
      · cases h
        exact Nat.lt_succ_self _
      · obtain ⟨r, hr, hpair⟩ := Option.map_eq_some_iff.mp h
        cases hpair
        exact Nat.lt_succ_of_lt (ih hr)

theorem readLine_eq_none_iff : readLine a = none ↔ 10 ∉ a := by
  constructor
  · intro h hmem
    obtain ⟨u, v, rfl, hu⟩ := List.eq_append_cons_of_mem hmem
    rw [readLine_of_notMem hu] at h
    cases h
  · intro h
    induction a with
    | nil => rfl
    | cons c a ih =>
        rw [List.mem_cons, not_or] at h
        rw [readLine, if_neg (Ne.symm h.1), ih h.2]
        rfl

theorem LineEnd.mem_bytes (e : LineEnd) : 10 ∈ e.bytes := by
  cases e <;> decide

theorem LineEnd.isSpace (e : LineEnd) : ∀ x ∈ e.bytes, Http.isSpace x = true := by
  cases e with
  | crlf => exact List.forall_mem_cons.mpr ⟨rfl, List.forall_mem_singleton.mpr rfl⟩
  | lf => exact List.forall_mem_singleton.mpr rfl

/-- A line with its end. -/
theorem readLine_line (h : 10 ∉ t) (e : LineEnd) (rest : List UInt8) :
    readLine (t ++ e.bytes ++ rest) = some (t ++ e.bytes, rest) := by
  cases e with
  | lf =>
      rw [LineEnd.bytes, List.append_assoc]
      exact readLine_of_notMem h rest
  | crlf =>
      have ht : 10 ∉ t ++ [13] := by simp [h]
      have hread := readLine_of_notMem ht rest
      simpa [LineEnd.bytes] using hread

end ReadLine

section Position

/-- The machine is in the middle of a reply, of which these bytes are to be read yet. -/
inductive Inside (r : Response) : StateMachine → List UInt8 → Prop
  | header {sm : StateMachine} {done todo : List Header} (hheaders : r.headers = done ++ todo)
      (hstate : sm.state = .header) (hcontent : sm.content = [])
      (htype : ∀ h ∈ done, toLower h.name = ascii "content-type" → sm.contentType ≠ [])
      (hlength : ∀ h ∈ done, toLower h.name = ascii "content-length" →
        sm.gotLength = true ∧ sm.contentLength = r.body.length) :
      Inside r sm (r.after todo)
  | content {sm : StateMachine} {rest : List UInt8} (hbody : r.body = sm.content ++ rest)
      (hstate : sm.state = .readingContent) (hlength : sm.contentLength = r.body.length) :
      Inside r sm rest

/-- Where the machine is in a stream of replies. -/
inductive Pos : StateMachine → List UInt8 → List Response → Prop
  | between {rs : List Response} : Pos {} (rs.flatMap Response.bytes) rs
  | inside {sm : StateMachine} {r : Response} {bytes : List UInt8} {rs : List Response}
      (h : Inside r sm bytes) : Pos sm (bytes ++ rs.flatMap Response.bytes) (r :: rs)

variable {lim : Limits} {sm : StateMachine} {r : Response} {rs : List Response} {h : Header}
  {done todo : List Header}

theorem ascii_proto : ascii "HTTP/1.1" = [72, 84, 84, 80, 47, 49, 46, 49] := by decide

/-- The first word of the status line. -/
theorem Response.Valid.proto_noSpace (hv : r.Valid lim) :
    r.proto ≠ [] ∧ ∀ x ∈ r.proto, isSpace x = false := by
  have hproto := hv.proto
  rw [ascii_proto] at hproto
  constructor
  · intro hnil
    rw [hnil] at hproto
    cases hproto
  · intro x hx
    by_contra hspace
    rw [Bool.not_eq_false] at hspace
    -- upper case leaves white space alone
    have hall : ∀ y : UInt8, isSpace y = true → (if 97 ≤ y ∧ y ≤ 122 then y - 32 else y) = y ∧
        y ∉ [(72 : UInt8), 84, 84, 80, 47, 49, 46, 49] := by
      intro y hy
      simp only [isSpace, Bool.or_eq_true, beq_iff_eq, Bool.and_eq_true, decide_eq_true_eq] at hy
      constructor
      · rw [if_neg]
        rintro ⟨hge, -⟩
        rcases hy with rfl | ⟨-, hle⟩
        · exact absurd hge (by decide)
        · exact absurd (UInt8.le_trans hge hle) (by decide)
      · intro hmem
        simp only [List.mem_cons, List.not_mem_nil, or_false] at hmem
        rcases hy with rfl | ⟨-, hle⟩
        · revert hmem
          decide
        · rcases hmem with rfl | rfl | rfl | rfl | rfl | rfl | rfl | rfl <;>
            exact absurd hle (by decide)
    obtain ⟨hsame, hnot⟩ := hall x hspace
    refine hnot ?_
    rw [← hproto, toUpper, List.mem_map]
    exact ⟨x, hx, hsame⟩

theorem noSpace_of_isNumber {ba : List UInt8} {n : Nat} (h : IsNumber ba n) :
    ∀ x ∈ ba, isSpace x = false := by
  intro x hx
  have hdigit := h.2.1 x hx
  simp only [isDigit, Bool.and_eq_true, decide_eq_true_eq] at hdigit
  by_contra hspace
  rw [Bool.not_eq_false] at hspace
  simp only [isSpace, Bool.or_eq_true, beq_iff_eq, Bool.and_eq_true, decide_eq_true_eq] at hspace
  rcases hspace with rfl | ⟨-, hle⟩
  · exact absurd hdigit.1 (by decide)
  · exact absurd (UInt8.le_trans hdigit.1 hle) (by decide)

theorem notMem_lineFeed {w : List UInt8} (h : ∀ x ∈ w, isSpace x = false) : 10 ∉ w := by
  intro hmem
  cases h 10 hmem

/-- The status line is accepted. -/
theorem handleLine_statusLine (hv : r.Valid lim) :
    ∃ status, handleLine lim {} (simplified r.statusLine) =
      .ok { status := status, state := .header } := by
  obtain ⟨n, hcode, hpos, hmax⟩ := hv.code
  obtain ⟨hne, hproto⟩ := hv.proto_noSpace
  have hwords : words r.statusLine = r.proto :: r.code :: words r.reason := by
    rw [Response.statusLine, words_append_cons rfl, words_append_cons rfl,
      words_of_noSpace hproto, if_neg hne, words_of_noSpace (noSpace_of_isNumber hcode),
      if_neg hcode.1, words_append_space (LineEnd.isSpace _)]
    rfl
  have hreason := words_ne_nil hv.reason.2
  have hsplit : split 32 (simplified r.statusLine) = words r.statusLine :=
    split_simplified (by rw [hwords]; simp)
  refine ⟨n, ?_⟩
  rw [handleLine, handleStatusLine, hsplit, hwords]
  cases hw : words r.reason with
  | nil => exact absurd hw hreason
  | cons w ws =>
      have hzero : (n : Int) ≠ 0 := by omega
      simp only [if_neg (not_not_intro hv.proto), toIntegral_of_isNumber hcode hmax,
        Option.getD_some, if_neg hzero]

theorem dropByteOrderMark_ne_nil {ba : List UInt8} (hne : ba ≠ []) (h : ∀ x ∈ ba, x < 128) :
    dropByteOrderMark ba ≠ [] := by
  rw [dropByteOrderMark, if_neg]
  · exact hne
  · intro htake
    have hmem : 0xef ∈ ba.take 3 := by
      rw [htake]
      decide
    exact absurd (h _ (List.mem_of_mem_take hmem)) (by decide)

/-- A header line is accepted, and what it says is noted. -/
theorem handleLine_header (hv : r.Valid lim) (hmax : lim.maxBuffer ≤ 0)
    (hheaders : r.headers = done ++ h :: todo) (hstate : sm.state = .header)
    (hcontent : sm.content = [])
    (htype : ∀ g ∈ done, toLower g.name = ascii "content-type" → sm.contentType ≠ [])
    (hlength : ∀ g ∈ done, toLower g.name = ascii "content-length" →
      sm.gotLength = true ∧ sm.contentLength = r.body.length) :
    ∃ sm', handleLine lim sm (simplified h.bytes) = .ok sm' ∧ Inside r sm' (r.after todo) := by
  have hmem : h ∈ r.headers := by simp [hheaders]
  have hh := hv.headers h hmem
  have hheaders' : r.headers = (done ++ [h]) ++ todo := by simp [hheaders]
  have hline : simplified h.bytes = simplified (h.name ++ 58 :: h.value) := by
    have hassoc : h.bytes = (h.name ++ 58 :: h.value) ++ h.lineEnd.bytes := by
      simp [Header.bytes]
    rw [simplified, hassoc, words_append_space (LineEnd.isSpace _), ← simplified]
  have hne : simplified h.bytes ≠ [] := by
    rw [hline, Ne, simplified_eq_nil_iff]
    exact words_ne_nil ⟨58, by simp, rfl⟩
  obtain ⟨tail, hsplit, hname, hvalue⟩ := split_header hh.name_ne hh.name h.value
  obtain ⟨v, vs, hvs⟩ := List.exists_cons_of_ne_nil (List.splitOn_ne_nil 58 tail)
  rw [split, hvs] at hvalue
  have hhandle : handleLine lim sm (simplified h.bytes) =
      handleHeaderLine lim sm (simplified h.bytes) := by
    rw [handleLine, hstate]
    exact if_pos hne
  have htoks : split 58 (simplified h.bytes) = h.name :: v :: vs := by
    rw [hline, hsplit, split, hvs]
  rw [hhandle, handleHeaderLine, htoks]
  simp only [hname, hvalue]
  have hdistinct : ascii "content-length" ≠ ascii "content-type" := by decide
  by_cases hct : toLower h.name = ascii "content-type"
  · obtain ⟨htne, htascii⟩ := hv.contentTypes h hmem hct
    refine ⟨_, if_pos hct, .header hheaders' hstate hcontent ?_ ?_⟩
    · intro _ _ _
      exact dropByteOrderMark_ne_nil htne htascii
    · intro g hg hgname
      rcases List.mem_append.mp hg with hg | hg
      · exact hlength g hg hgname
      · rw [List.mem_singleton.mp hg, hct] at hgname
        exact absurd hgname.symm hdistinct
  · rw [if_neg hct]
    by_cases hcl : toLower h.name = ascii "content-length"
    · have hnum := toIntegral_of_isNumber (hv.contentLengths h hmem hcl) hv.body
      have hneg : ¬ ((r.body.length : Int) < 0) := by omega
      have hnolimit : ¬ (lim.maxBuffer > 0 ∧ (r.body.length : Int) > lim.maxBuffer) := by omega
      rw [if_pos hcl, hnum]
      simp only [if_neg hneg, if_neg hnolimit]
      refine ⟨_, rfl, .header hheaders' hstate hcontent ?_ fun _ _ _ => ⟨rfl, rfl⟩⟩
      intro g hg hgname
      rcases List.mem_append.mp hg with hg | hg
      · exact htype g hg hgname
      · rw [List.mem_singleton.mp hg] at hgname
        exact absurd hgname hct
    · rw [if_neg hcl]
      refine ⟨_, rfl, .header hheaders' hstate hcontent ?_ ?_⟩
      · intro g hg hgname
        rcases List.mem_append.mp hg with hg | hg
        · exact htype g hg hgname
        · rw [List.mem_singleton.mp hg] at hgname
          exact absurd hgname hct
      · intro g hg hgname
        rcases List.mem_append.mp hg with hg | hg
        · exact hlength g hg hgname
        · rw [List.mem_singleton.mp hg] at hgname
          exact absurd hgname hcl

/-- The empty line after the headers is accepted. -/
theorem handleLine_headersEnd (hv : r.Valid lim) (hstate : sm.state = .header)
    (hcontent : sm.content = [])
    (htype : ∀ g ∈ r.headers, toLower g.name = ascii "content-type" → sm.contentType ≠ [])
    (hlength : ∀ g ∈ r.headers, toLower g.name = ascii "content-length" →
      sm.gotLength = true ∧ sm.contentLength = r.body.length) :
    ∃ sm', handleLine lim sm (simplified r.headersEnd.bytes) = .ok sm' ∧ Inside r sm' r.body := by
  have hempty : simplified r.headersEnd.bytes = [] := by
    rw [simplified_eq_nil_iff]
    have hspace := words_append_space (a := []) (LineEnd.isSpace r.headersEnd)
    rwa [List.nil_append] at hspace
  obtain ⟨g, hg, hgname⟩ := hv.contentType
  obtain ⟨k, hk, hkname⟩ := hv.contentLength
  obtain ⟨hgot, hlen⟩ := hlength k hk hkname
  have hboth : ¬ (sm.contentType = [] ∨ sm.gotLength = false) := by
    rintro (h | h)
    · exact htype g hg hgname h
    · rw [hgot] at h
      cases h
  refine ⟨{ sm with state := .readingContent }, ?_, .content ?_ rfl hlen⟩
  · rw [handleLine, hstate, hempty]
    simp only [ne_eq, not_true_eq_false, if_false, if_neg hboth]
  · rw [hcontent, List.nil_append]

/-- A line that is there moves the machine on in the stream. -/
theorem pos_handleLine {bytes l rest : List UInt8} (hmax : lim.maxBuffer ≤ 0)
    (hv : ∀ r ∈ rs, r.Valid lim) (hpos : Pos sm bytes rs) (hstate : sm.state ≠ .readingContent)
    (hl : readLine bytes = some (l, rest)) :
    ∃ sm', handleLine lim sm (simplified l) = .ok sm' ∧ Pos sm' rest rs := by
  cases hpos with
  | between =>
      cases rs with
      | nil => cases hl
      | cons r rs =>
          have hr := hv r List.mem_cons_self
          have hproto := hr.proto_noSpace
          obtain ⟨n, hcode, -⟩ := hr.code
          have hno : 10 ∉ r.proto ++ 32 :: (r.code ++ 32 :: r.reason) := by
            simp [notMem_lineFeed hproto.2, notMem_lineFeed (noSpace_of_isNumber hcode),
              hr.reason.1]
          have hread := readLine_line hno r.statusEnd
            (r.after r.headers ++ rs.flatMap Response.bytes)
          have hbytes : (r :: rs).flatMap Response.bytes =
              r.proto ++ 32 :: (r.code ++ 32 :: r.reason) ++ r.statusEnd.bytes ++
                (r.after r.headers ++ rs.flatMap Response.bytes) := by
            simp [Response.bytes, Response.statusLine]
          rw [hbytes, hread] at hl
          cases hl
          obtain ⟨status, hstatus⟩ := handleLine_statusLine hr
          refine ⟨{ status := status, state := .header }, ?_, ?_⟩
          · have hline : r.proto ++ 32 :: (r.code ++ 32 :: r.reason) ++ r.statusEnd.bytes =
                r.statusLine := by
              simp [Response.statusLine]
            rw [hline]
            exact hstatus
          · exact .inside (@Inside.header _ _ [] _ rfl rfl rfl (by simp) (by simp))
  | @inside _ r bytes rs h =>
      have hr := hv r List.mem_cons_self
      cases h with
      | @header done todo hheaders hst hcontent htype hlength =>
          cases todo with
          | nil =>
              have hread := readLine_line (t := []) (by simp) r.headersEnd
                (r.body ++ rs.flatMap Response.bytes)
              have hbytes : r.after [] ++ rs.flatMap Response.bytes =
                  [] ++ r.headersEnd.bytes ++ (r.body ++ rs.flatMap Response.bytes) := by
                simp [Response.after]
              rw [hbytes, hread] at hl
              cases hl
              rw [List.append_nil] at hheaders
              rw [← hheaders] at htype hlength
              obtain ⟨sm', hsm', hinside⟩ := handleLine_headersEnd hr hst hcontent htype hlength
              exact ⟨sm', hsm', .inside hinside⟩
          | cons h todo =>
              have hh := hr.headers h (by simp [hheaders])
              have hno : 10 ∉ h.name ++ 58 :: h.value := by
                simp [notMem_lineFeed fun x hx => (hh.name x hx).1, hh.value]
              have hread := readLine_line hno h.lineEnd
                (r.after todo ++ rs.flatMap Response.bytes)
              have hbytes : r.after (h :: todo) ++ rs.flatMap Response.bytes =
                  h.name ++ 58 :: h.value ++ h.lineEnd.bytes ++
                    (r.after todo ++ rs.flatMap Response.bytes) := by
                simp [Response.after, Header.bytes]
              rw [hbytes, hread] at hl
              cases hl
              obtain ⟨sm', hsm', hinside⟩ :=
                handleLine_header hr hmax hheaders hst hcontent htype hlength
              refine ⟨sm', ?_, .inside hinside⟩
              have hline : h.name ++ 58 :: h.value ++ h.lineEnd.bytes = h.bytes := by
                simp [Header.bytes]
              rwa [hline]
      | content _ hst _ => exact absurd hst hstate

/-- The loop over the lines moves the machine on until there is no line, or the content is next. -/
theorem pos_readLines {n : Nat} {buffer inFlight : List UInt8} (hmax : lim.maxBuffer ≤ 0)
    (hv : ∀ r ∈ rs, r.Valid lim) (hpos : Pos sm (buffer ++ inFlight) rs)
    (hn : buffer.length ≤ n) :
    ∃ sm' buffer', readLines lim n sm buffer = .ok (sm', buffer') ∧
      Pos sm' (buffer' ++ inFlight) rs ∧
      (sm'.state = .readingContent ∨ readLine buffer' = none) := by
  induction n generalizing sm buffer with
  | zero =>
      have hnil : buffer = [] := List.length_eq_zero_iff.mp (by omega)
      subst hnil
      exact ⟨sm, [], rfl, hpos, Or.inr rfl⟩
  | succ n ih =>
      rw [readLines]
      by_cases hstate : sm.state = .readingContent
      · exact ⟨sm, buffer, if_pos hstate, hpos, Or.inl hstate⟩
      · rw [if_neg hstate]
        cases hl : readLine buffer with
        | none => exact ⟨sm, buffer, rfl, hpos, Or.inr hl⟩
        | some p =>
            obtain ⟨l, rest⟩ := p
            obtain ⟨sm', hsm', hpos'⟩ :=
              pos_handleLine hmax hv hpos hstate (readLine_append hl inFlight)
            have hlt := length_rest_lt hl
            obtain ⟨sm'', buffer', hread, hrest⟩ := ih hpos' (by omega)
            refine ⟨sm'', buffer', ?_, hrest⟩
            simp only [hsm']
            exact hread

end Position

end Http
end Rpc
end Shulcrum
