import PWebServer.Http.ParseHeaders
import PWebServer.Http.ReadLine

/-!
# Http.Frames

What the parsers leave alone of the request and of the buffer, and when the loop
over the header has an error page constructed.
-/

namespace PWebServer

open Scan Function

/-! ## what the parsers leave alone -/

/-- What the parser of a header line writes, stored in the request `base`. -/
def HttpRequest.withName (base r : HttpRequest) : HttpRequest :=
  { base with headerName := r.headerName, headerValue := r.headerValue, state := r.state }

/-- What the loop over the header writes, stored in the request `base`. -/
def HttpRequest.withHeader (base r : HttpRequest) : HttpRequest :=
  { base with
    headerName := r.headerName
    headerValue := r.headerValue
    headers := r.headers
    state := r.state
    status := r.status
    responseDone := r.responseDone
    keepAlive := r.keepAlive }

theorem headerBody_withName (base r : HttpRequest) (before : List UInt8) (ch : UInt8) :
    headerBody (base.withName r) before ch =
      ((headerBody r before ch).1, (headerBody r before ch).2.map base.withName) := by
  obtain ⟨_, _, _, _, _, _, _, _, _, state, _, _, _, _, _, _⟩ := r
  cases state <;> simp only [headerBody, HttpRequest.withName] <;>
    first
    | rfl
    | (split_ifs <;> rfl)

/-- The parser of the request line writes the fields of the line only. -/
theorem parseRequestLine_frame {r r' : HttpRequest} {b b' : Buffer} {ret : Ret}
    (h : parseRequestLine r b = (ret, r', b')) : r' = r.withLine r' := by
  have hstate := scan_withLine r r (b.bytes.take b.begin) (b.bytes.drop b.begin)
  have hself : r.withLine r = r := rfl
  rw [hself] at hstate
  rw [parseRequestLine_eq] at h
  unfold parseCall callResult at h
  generalize scan lineBody (b.bytes.take b.begin) (b.bytes.drop b.begin) r = out at h hstate
  have hout : out.state = r.withLine out.state := congrArg Outcome.state hstate
  cases hres : out.res with
  | none =>
      rw [hres] at h
      cases h
      exact hout
  | some res =>
      rw [hres] at h
      cases res with
      | ok =>
          cases h
          calc
            finishLine out.state out.before.length
              = finishLine (r.withLine out.state) out.before.length := by rw [← hout]
            _ = r.withLine (finishLine out.state out.before.length) := rfl
      | error | again | invalidRequest =>
          cases h
          exact hout

/-- The parser of a header line writes the name and the value only. -/
theorem parseHeader_frame {r r' : HttpRequest} {b b' : Buffer} {ret : Ret}
    (h : parseHeader r b = (ret, r', b')) : r' = r.withName r' := by
  have hstate := scan_map r.withName (headerBody_withName r) (b.bytes.drop b.begin)
    (b.bytes.take b.begin) r
  have hself : r.withName r = r := rfl
  rw [hself] at hstate
  rw [parseHeader_eq] at h
  unfold parseCall callResult at h
  generalize scan headerBody (b.bytes.take b.begin) (b.bytes.drop b.begin) r = out at h hstate
  have hout : out.state = r.withName out.state := congrArg Outcome.state hstate
  cases hres : out.res with
  | none =>
      rw [hres] at h
      cases h
      exact hout
  | some res =>
      rw [hres] at h
      cases res with
      | ok =>
          cases h
          calc
            finishHeader out.state out.before.length
              = finishHeader (r.withName out.state) out.before.length := by rw [← hout]
            _ = r.withName (finishHeader out.state out.before.length) := rfl
      | error | again | invalidRequest =>
          cases h
          exact hout

theorem HttpRequest.withHeader_of_withName {r r' : HttpRequest} (h : r' = r.withName r') :
    r' = r.withHeader r' := by
  calc
    r' = r.withName r' := h
    _ = r.withHeader (r.withName r') := rfl
    _ = r.withHeader r' := by rw [← h]

theorem headerHandleGeneric_frame (r : HttpRequest) (offset : HeaderOffset) :
    headerHandleGeneric r offset = r.withHeader (headerHandleGeneric r offset) := by
  cases offset <;> rfl

theorem handleHeader_frame {r r' : HttpRequest} {b b' : Buffer} {m m' : List UInt8}
    (h : handleHeader r b m = .ok (r', b', m')) : r' = r.withHeader r' := by
  obtain ⟨-, -, ⟨-, rfl⟩ | ⟨offset, -, hparser⟩⟩ := handleHeader_cases h
  · rfl
  · rcases headerParser_cases hparser with ⟨-, rfl⟩ | ⟨-, c, -, ⟨keep, rfl⟩ | ⟨rfl, -⟩⟩
    · exact headerHandleGeneric_frame r offset
    · rfl
    · rfl

/-- The loop of `http_parse_headers` writes the fields of the header, and what
an error page stores. -/
theorem headersLoop_frame {r : HttpRequest} {b : Buffer} {m : List UInt8} {d : HeadersConn}
    (h : headersLoop r b m = .ok d) : d.r = r.withHeader d.r := by
  replace h := headersLoop_turns h
  induction h with
  | done => rfl
  | blank _ hcall _ | again _ hcall | failed _ hcall _ _ _ =>
      exact HttpRequest.withHeader_of_withName (parseHeader_frame hcall)
  | line _ hcall _ hline _ ih =>
      rw [handleHeader_frame hline, HttpRequest.withHeader_of_withName (parseHeader_frame hcall)] at ih
      exact ih

/-- The loop is left towards the body once an error page has been constructed. -/
theorem headersLoop_status {r : HttpRequest} {b : Buffer} {m : List UInt8} {d : HeadersConn}
    (h : headersLoop r b m = .ok d) :
    d.status = .body ∨ d.r.responseDone = r.responseDone := by
  replace h := headersLoop_turns h
  induction h with
  | done | blank => exact .inl rfl
  | again _ hcall | failed _ hcall _ _ _ =>
      rw [parseHeader_frame hcall]
      exact .inr rfl
  | @line _ _ r'' _ _ _ _ _ _ hdone _ _ _ hrest ih =>
      cases hdone'' : r''.responseDone with
      | true =>
          cases hrest with
          | done => exact .inl rfl
          | blank hnot | line hnot | again hnot | failed hnot =>
              rw [hdone''] at hnot
              contradiction
      | false =>
          rw [hdone, ← hdone'']
          exact ih

/-! ## what the parsers do to the buffer -/

/-- What a parser does to a buffer: it may write, but does not move the end. -/
structure Buffer.Parsed (b b' : Buffer) : Prop where
  length : b'.bytes.length = b.bytes.length
  begins : b.begin ≤ b.bytes.length → b'.begin ≤ b'.bytes.length

theorem Buffer.Parsed.refl (b : Buffer) : b.Parsed b := ⟨rfl, id⟩

theorem Buffer.Parsed.trans {b b₁ b₂ : Buffer} (h : b.Parsed b₁) (h' : b₁.Parsed b₂) : b.Parsed b₂ :=
  ⟨h'.length.trans h.length, fun hb => h'.begins (h.begins hb)⟩

theorem parseCall_parsed {body : HttpRequest → List UInt8 → UInt8 → UInt8 × Next HttpRequest Ret}
    {finish : HttpRequest → Nat → HttpRequest} {r r' : HttpRequest} {b b' : Buffer} {ret : Ret}
    (h : parseCall body finish r b = (ret, r', b')) : b.Parsed b' := by
  have hlength := parseCall_length h
  refine ⟨hlength, fun hb => ?_⟩
  cases ret with
  | ok =>
      rw [hlength]
      exact (parseCall_ok h).2
  | error | invalidRequest =>
      rw [hlength, parseCall_fails h (by simp) (by simp)]
      exact hb
  | again =>
      rw [hlength]
      unfold parseCall callResult at h
      cases hres : (scan body (b.bytes.take b.begin) (b.bytes.drop b.begin) r).res with
      | none =>
          rw [hres] at h
          cases h
          exact Nat.le_refl _
      | some res =>
          rw [hres] at h
          cases res <;> cases h
          exact hb

theorem parseRequestLine_parsed {r r' : HttpRequest} {b b' : Buffer} {ret : Ret}
    (h : parseRequestLine r b = (ret, r', b')) : b.Parsed b' := by
  rw [parseRequestLine_eq] at h
  exact parseCall_parsed h

theorem parseHeader_parsed {r r' : HttpRequest} {b b' : Buffer} {ret : Ret}
    (h : parseHeader r b = (ret, r', b')) : b.Parsed b' := by
  rw [parseHeader_eq] at h
  exact parseCall_parsed h

theorem Buffer.parsed_of_same {b b' : Buffer} (h : b'.begin = b.begin ∧ b'.bytes.length = b.bytes.length) :
    b.Parsed b' :=
  ⟨h.2, fun hb => by rwa [h.1, h.2]⟩

theorem headersLoop_parsed {r : HttpRequest} {b : Buffer} {m : List UInt8} {d : HeadersConn}
    (h : headersLoop r b m = .ok d) :
    b.Parsed d.b := by
  replace h := headersLoop_turns h
  induction h with
  | done => exact .refl _
  | blank _ hcall _ | again _ hcall => exact parseHeader_parsed hcall
  | line _ hcall _ hline _ ih =>
      exact (parseHeader_parsed hcall).trans ((Buffer.parsed_of_same (handleHeader_buffer hline)).trans ih)
  | failed _ hcall _ _ hterm =>
      exact (parseHeader_parsed hcall).trans (Buffer.parsed_of_same (terminate_buffer hterm))

/-! ## failures -/

/-- The value of a `Connection` line is neither of the two words. -/
def RefusedValue (r : HttpRequest) (data : List UInt8) : Prop :=
  ∃ c, r.headerValue.c = some c ∧ strncasecmpEq keepAliveText data c = false ∧
    strncasecmpEq closeText data c = false

/-- The lines of the header in the buffer, up to the last complete one, have a
`Connection` line with another value than the two that are known, as name and
value are read from the buffer and the memory behind it. -/
inductive BadConnection : HttpRequest → Buffer → List UInt8 → Prop
  | line {r r' : HttpRequest} {b b' b'' : Buffer} {m m'' : List UInt8}
      (hcall : parseHeader r b = (.ok, r', b')) (hname : r'.headerName.c ≠ none)
      (hlen : 0 ≤ r'.headerName.len)
      (hfind : headerFind (r'.headerName.text (b'.bytes ++ m)) = some .connection)
      (hterm : b'.terminate m r'.headerName = .ok (b'', m'')) (hvalue : RefusedValue r' (b''.bytes ++ m'')) :
      BadConnection r b m
  | later {r r' r'' : HttpRequest} {b b' b'' : Buffer} {m m'' : List UInt8}
      (hcall : parseHeader r b = (.ok, r', b')) (hname : r'.headerName.c ≠ none)
      (hline : handleHeader r' b' m = .ok (r'', b'', m'')) (hrest : BadConnection r'' b'' m'') :
      BadConnection r b m

theorem handleHeader_answers {r r' r'' : HttpRequest} {b b' b'' : Buffer} {m m'' : List UInt8}
    (hcall : parseHeader r b = (.ok, r', b')) (hname : r'.headerName.c ≠ none)
    (hline : handleHeader r' b' m = .ok (r'', b'', m'')) (hdone : r.responseDone = false)
    (hdone'' : r''.responseDone = true) : BadConnection r b m := by
  have hdone' : r'.responseDone = false := by
    rw [parseHeader_frame hcall]
    exact hdone
  have hnot : ∀ offset, (headerHandleGeneric r' offset).responseDone = false := by
    intro offset
    cases offset <;> exact hdone'
  obtain ⟨hlen, hterm, ⟨-, rfl⟩ | ⟨offset, hfind, hparser⟩⟩ := handleHeader_cases hline
  · rw [hdone'] at hdone''
    contradiction
  · rcases headerParser_cases hparser with ⟨-, rfl⟩ | ⟨rfl, c, hc, ⟨keep, rfl⟩ | ⟨-, hvalue⟩⟩
    · rw [hnot] at hdone''
      contradiction
    · rw [show ({ headerHandleGeneric r' .connection with keepAlive := keep } : HttpRequest).responseDone = false
        from hnot .connection] at hdone''
      contradiction
    · exact .line hcall hname hlen hfind hterm ⟨c, hc, hvalue⟩

/-- The loop over the header calls `construct_err` for a refused value only. -/
theorem headersLoop_answers {r : HttpRequest} {b : Buffer} {m : List UInt8} {d : HeadersConn}
    (h : headersLoop r b m = .ok d) (hdone : r.responseDone = false) (hanswered : d.r.responseDone = true) :
    BadConnection r b m := by
  replace h := headersLoop_turns h
  induction h with
  | done hdone' =>
      rw [hdone] at hdone'
      contradiction
  | blank _ hcall _ | again _ hcall | failed _ hcall _ _ _ =>
      rw [parseHeader_frame hcall] at hanswered
      exact absurd hanswered (Bool.eq_false_iff.mp hdone)
  | @line _ _ r'' _ _ _ _ _ _ _ hcall hname hline _ ih =>
      cases hline' : r''.responseDone with
      | true => exact handleHeader_answers hcall hname hline hdone hline'
      | false => exact .later hcall hname hline (ih hline' hanswered)

end PWebServer
