import PWebServer.Http.Calls
import PWebServer.Http.HeaderGrammar
import PWebServer.Http.ReadLine

/-!
# Http.ParseHeaders

`http_parse_headers`: the loop that reads the header line by line, looks each
name up and hands its value to a parser, over any number of reads.

The error branch ends the name with a NUL although the line may have none yet:
`headersLoop_null_iff` says which streams make it write through `NULL`.
-/

namespace PWebServer

open Scan

/-! ## the handlers -/

/-- `offsetof(request_header_t, ...)`. -/
inductive HeaderOffset where
  | accept | cookie | date | connection
  deriving DecidableEq, Repr

/-- `header_handle_generic`. -/
def headerHandleGeneric (r : HttpRequest) (offset : HeaderOffset) : HttpRequest :=
  match offset with
  | .accept => { r with headers := { r.headers with accept := r.headerValue } }
  | .cookie => { r with headers := { r.headers with cookie := r.headerValue } }
  | .date => { r with headers := { r.headers with date := r.headerValue } }
  | .connection => { r with headers := { r.headers with connection := r.headerValue } }

/-- `strncasecmp(word, p, strlen(word)) == 0` for a pointer `p` into `data`. -/
def strncasecmpEq (word data : List UInt8) (p : Nat) : Bool :=
  ((data.drop p).take word.length).map lowerCase = word.map lowerCase

/-- `"keep-alive"` -/
def keepAliveText : List UInt8 := text ['k', 'e', 'e', 'p', '-', 'a', 'l', 'i', 'v', 'e']

/-- `"close"` -/
def closeText : List UInt8 := text ['c', 'l', 'o', 's', 'e']

/-- `header_handle_connection`; `construct_err` returns `OK` too. -/
def headerHandleConnection (r : HttpRequest) (offset : HeaderOffset) (data : List UInt8) :
    Except Fault HttpRequest := do
  let r := headerHandleGeneric r offset
  let c ← deref r.headers.connection.c
  if strncasecmpEq keepAliveText data c then pure { r with keepAlive := true }
  else if strncasecmpEq closeText data c then pure { r with keepAlive := false }
  else pure (r.constructErr 400)

/-- `header_array`: the names and what is stored for each. -/
def headerArray : List (List UInt8 × HeaderOffset) :=
  [(text ['a', 'c', 'c', 'e', 'p', 't'], .accept),
   (text ['c', 'o', 'o', 'k', 'i', 'e'], .cookie),
   (text ['d', 'a', 't', 'e'], .date),
   (text ['c', 'o', 'n', 'n', 'e', 'c', 't', 'i', 'o', 'n'], .connection)]

/-- `hash_find(header_map, ...)`: the hash holds what the array lists. -/
def headerFind (name : List UInt8) : Option HeaderOffset :=
  (headerArray.find? (·.1 = name)).map (·.2)

/-- `header_val->header_parser(req, header_val->offset)`. -/
def headerParser (r : HttpRequest) (offset : HeaderOffset) (data : List UInt8) :
    Except Fault HttpRequest :=
  match offset with
  | .connection => headerHandleConnection r offset data
  | _ => pure (headerHandleGeneric r offset)

/-- `*(s.c + s.len) = 0`; the slice may be one of bytes that `buffer_clear` has
left `behind` the end. -/
def Buffer.terminate (b : Buffer) (behind : List UInt8) (s : Str) :
    Except Fault (Buffer × List UInt8) := do
  let c ← deref s.c
  let memory := (b.bytes ++ behind).set ((c : Int) + s.len).toNat 0
  pure ({ b with bytes := memory.take b.bytes.length }, memory.drop b.bytes.length)

/-- What the loop does with a line that has a name.  `hash_key_function` counts
up to the length as an unsigned one, so a name that ends before it begins takes
it out of the memory. -/
def handleHeader (r : HttpRequest) (b : Buffer) (behind : List UInt8) :
    Except Fault (HttpRequest × Buffer × List UInt8) := do
  if r.headerName.len < 0 then .error .bounds
  else
    let val := headerFind (r.headerName.text (b.bytes ++ behind))
    let (b, behind) ← b.terminate behind r.headerName
    match val with
    | none => pure (r, b, behind)
    | some offset =>
        let r ← headerParser r offset (b.bytes ++ behind)
        pure (r, b, behind)

theorem terminate_buffer {b b' : Buffer} {m m' : List UInt8} (h : b.terminate m s = .ok (b', m')) :
    b'.begin = b.begin ∧ b'.bytes.length = b.bytes.length := by
  unfold Buffer.terminate at h
  cases hs : s.c with
  | none => rw [hs] at h; cases h
  | some c =>
      rw [hs] at h
      cases h
      refine ⟨rfl, ?_⟩
      rw [List.length_take, List.length_set, List.length_append]
      omega

/-- What comes of a line that is handled. -/
theorem handleHeader_cases {m m' : List UInt8} (h : handleHeader r b m = .ok (r', b', m')) :
    0 ≤ r.headerName.len ∧ b.terminate m r.headerName = .ok (b', m') ∧
      (headerFind (r.headerName.text (b.bytes ++ m)) = none ∧ r' = r ∨
        ∃ offset, headerFind (r.headerName.text (b.bytes ++ m)) = some offset ∧
          headerParser r offset (b'.bytes ++ m') = .ok r') := by
  unfold handleHeader at h
  split at h
  · cases h
  next hlen =>
  cases hb : b.terminate m r.headerName with
  | error f => rw [hb] at h; cases h
  | ok out =>
      obtain ⟨b₁, m₁⟩ := out
      rw [hb] at h
      cases hval : headerFind (r.headerName.text (b.bytes ++ m)) with
      | none =>
          rw [hval] at h
          cases h
          exact ⟨Int.not_lt.mp hlen, rfl, .inl ⟨rfl, rfl⟩⟩
      | some offset =>
          rw [hval] at h
          cases hr : headerParser r offset (b₁.bytes ++ m₁) with
          | error f => simp [bind, Except.bind, hr] at h
          | ok r₁ =>
              simp only [bind, Except.bind, pure, Except.pure, hr] at h
              cases h
              exact ⟨Int.not_lt.mp hlen, rfl, .inr ⟨offset, rfl, hr⟩⟩

/-- The parser of a line stores the value, and a `Connection` line is for one of
the two words or refused. -/
theorem headerParser_cases {data : List UInt8} (h : headerParser r offset data = .ok r') :
    offset ≠ .connection ∧ r' = headerHandleGeneric r offset ∨
      offset = .connection ∧ ∃ c, r.headerValue.c = some c ∧
        ((∃ keep, r' = { headerHandleGeneric r .connection with keepAlive := keep }) ∨
          r' = (headerHandleGeneric r .connection).constructErr 400 ∧
            strncasecmpEq keepAliveText data c = false ∧ strncasecmpEq closeText data c = false) := by
  cases offset with
  | accept | cookie | date =>
      cases h
      exact .inl ⟨by simp, rfl⟩
  | connection =>
      refine .inr ⟨rfl, ?_⟩
      unfold headerParser headerHandleConnection at h
      cases hc : r.headerValue.c with
      | none => simp [bind, Except.bind, headerHandleGeneric, hc] at h
      | some c =>
          refine ⟨c, rfl, ?_⟩
          have hvalue : (headerHandleGeneric r .connection).headers.connection.c = some c := hc
          simp only [hvalue, deref_some, bind, Except.bind, pure, Except.pure] at h
          split_ifs at h with hkeep hclose <;> cases h
          · exact .inl ⟨true, rfl⟩
          · exact .inl ⟨false, rfl⟩
          · exact .inr ⟨rfl, Bool.eq_false_iff.mpr hkeep, Bool.eq_false_iff.mpr hclose⟩

theorem handleHeader_buffer {m m' : List UInt8} (h : handleHeader r b m = .ok (r', b', m')) :
    b'.begin = b.begin ∧ b'.bytes.length = b.bytes.length :=
  terminate_buffer (handleHeader_cases h).2.1

theorem handleHeader_state {m m' : List UInt8} (h : handleHeader r b m = .ok (r', b', m')) :
    r'.state = r.state := by
  obtain ⟨-, -, ⟨-, rfl⟩ | ⟨offset, -, hparser⟩⟩ := handleHeader_cases h
  · rfl
  · rcases headerParser_cases hparser with ⟨-, rfl⟩ | ⟨-, c, -, ⟨keep, rfl⟩ | ⟨rfl, -⟩⟩
    · cases offset <;> rfl
    · rfl
    · rfl

/-- A line that is complete leaves the parser in front of the next one. -/
theorem parseHeader_begins (hcall : parseHeader r b = (.ok, r', b')) : r'.state = .hdBegin := by
  unfold parseHeader headerResult at hcall
  split at hcall <;> cases hcall
  · rfl
  · next hne _ => exact absurd rfl hne

/-! ## the loop -/

/-- What becomes of the connection. -/
inductive HeadersStatus where
  /-- more of the header is to come -/
  | waiting
  /-- an error page is to be sent -/
  | answered
  /-- the request was closed -/
  | closed
  /-- `request_handle_body` takes over -/
  | body
  deriving DecidableEq, Repr

/-- A connection while its header is read; `behind` is the memory behind the
`end` of the receive buffer, as it was allocated or filled before. -/
structure HeadersConn where
  status : HeadersStatus := .waiting
  r : HttpRequest
  b : Buffer
  behind : List UInt8
  deriving DecidableEq, Repr

/-- The loop of `http_parse_headers`. -/
def headersLoop (r : HttpRequest) (b : Buffer) (behind : List UInt8) : Except Fault HeadersConn :=
  if r.responseDone then .ok ⟨.body, r, b, behind⟩
  else
    match _hcall : parseHeader r b with
    | (.ok, r', b') =>
        if r'.headerName.c = none then .ok ⟨.body, r', b', behind⟩
        else
          match _hline : handleHeader r' b' behind with
          | .error f => .error f
          | .ok (r'', b'', behind') => headersLoop r'' b'' behind'
    | (.again, r', b') => .ok ⟨.waiting, r', b', behind⟩
    | (_, r', b') => do
        let (b'', behind') ← b'.terminate behind r'.headerName
        pure ⟨.closed, r', b'', behind'⟩
termination_by b.bytes.length - b.begin
decreasing_by
  rw [parseHeader_eq] at _hcall
  have hbegin := parseCall_ok _hcall
  have hlen := parseCall_length _hcall
  have hline := handleHeader_buffer _hline
  omega

/-- `http_parse_headers`. -/
def httpParseHeaders (wake : Wake) (c : HeadersConn) : Except Fault HeadersConn :=
  match wake with
  | .timedout =>
      .ok { c with status := .answered, r := { c.r with keepAlive := false }.constructErr 404 }
  | .closed => .ok { c with status := .closed }
  | .readable sent =>
      let b := c.b.recv sent
      headersLoop c.r b (c.behind.drop (b.bytes.length - c.b.bytes.length))

/-- What happens between the reads of a header. -/
inductive HeaderEvent where
  /-- the read event or its timer -/
  | wake (w : Wake)
  /-- the back end's write event: `http_proxy_pass` finds nothing behind `begin`
  and clears the receive buffer -/
  | proxyPass
  /-- another handler has a response, or an error page, complete -/
  | responseDone
  deriving DecidableEq, Repr

/-- One event. -/
def HeadersConn.event (c : HeadersConn) : HeaderEvent → Except Fault HeadersConn
  | .wake w => httpParseHeaders w c
  | .proxyPass => .ok { c with b := {}, behind := c.b.bytes ++ c.behind }
  | .responseDone => .ok { c with r := { c.r with responseDone := true } }

/-- Event after event, as long as the handler is the one of the connection. -/
def headersRun : List HeaderEvent → HeadersConn → Except Fault HeadersConn
  | [], c => .ok c
  | event :: events, c => do
      let c ← c.event event
      if c.status = .waiting then headersRun events c else pure c

/-- The bytes the reads of a run add to a buffer that holds `n`. -/
def receivedBy (n : Nat) : List HeaderEvent → List UInt8
  | .wake (.readable sent) :: events =>
      sent.take (bufSize - n) ++ receivedBy (n + (sent.take (bufSize - n)).length) events
  | .proxyPass :: events => receivedBy 0 events
  | _ => []

/-! ## one turn of the loop -/

theorem headersLoop_done (h : r.responseDone = true) (b : Buffer) (m : List UInt8) :
    headersLoop r b m = .ok ⟨.body, r, b, m⟩ := by
  rw [headersLoop, if_pos h]

theorem headersLoop_eq (hdone : r.responseDone = false) (b : Buffer) (m : List UInt8) :
    headersLoop r b m =
      match parseHeader r b with
      | (.ok, r', b') =>
          if r'.headerName.c = none then .ok ⟨.body, r', b', m⟩
          else
            match handleHeader r' b' m with
            | .error f => .error f
            | .ok (r'', b'', m'') => headersLoop r'' b'' m''
      | (.again, r', b') => .ok ⟨.waiting, r', b', m⟩
      | (_, r', b') => (b'.terminate m r'.headerName).map fun out => ⟨.closed, r', out.1, out.2⟩ := by
  rw [headersLoop, if_neg (by simp [hdone])]
  split
  · next heq =>
      rw [heq]
      dsimp only
      split
      · rfl
      · split <;> next hline => rw [hline]
  · next heq => rw [heq]
  · next ret r' b' hok hagain heq =>
      rw [heq]
      cases ret with
      | ok => exact (hok rfl).elim
      | again => exact (hagain rfl).elim
      | error | invalidRequest =>
          dsimp only
          cases b'.terminate m r'.headerName <;> rfl

variable {m m' : List UInt8}

theorem headersLoop_again (hdone : r.responseDone = false)
    (hcall : parseHeader r b = (.again, r', b')) : headersLoop r b m = .ok ⟨.waiting, r', b', m⟩ := by
  rw [headersLoop_eq hdone, hcall]

theorem headersLoop_error (hdone : r.responseDone = false)
    (hcall : parseHeader r b = (.error, r', b')) :
    headersLoop r b m = (b'.terminate m r'.headerName).map fun out => ⟨.closed, r', out.1, out.2⟩ := by
  rw [headersLoop_eq hdone, hcall]

theorem headersLoop_blank (hdone : r.responseDone = false)
    (hcall : parseHeader r b = (.ok, r', b')) (hname : r'.headerName.c = none) :
    headersLoop r b m = .ok ⟨.body, r', b', m⟩ := by
  rw [headersLoop_eq hdone, hcall]
  exact if_pos hname

theorem headersLoop_line (hdone : r.responseDone = false)
    (hcall : parseHeader r b = (.ok, r', b')) (hname : r'.headerName.c ≠ none)
    (hline : handleHeader r' b' m = .ok (r'', b'', m')) :
    headersLoop r b m = headersLoop r'' b'' m' := by
  rw [headersLoop_eq hdone, hcall]
  dsimp only
  rw [if_neg hname, hline]

/-- The turns the loop takes, up to its end. -/
inductive HeadersLoop : HttpRequest → Buffer → List UInt8 → HeadersConn → Prop where
  | done {r : HttpRequest} {b : Buffer} {m : List UInt8} (hdone : r.responseDone = true) :
      HeadersLoop r b m ⟨.body, r, b, m⟩
  | blank {r r' : HttpRequest} {b b' : Buffer} {m : List UInt8} (hdone : r.responseDone = false)
      (hcall : parseHeader r b = (.ok, r', b')) (hname : r'.headerName.c = none) :
      HeadersLoop r b m ⟨.body, r', b', m⟩
  | line {r r' r'' : HttpRequest} {b b' b'' : Buffer} {m m'' : List UInt8} {d : HeadersConn}
      (hdone : r.responseDone = false) (hcall : parseHeader r b = (.ok, r', b'))
      (hname : r'.headerName.c ≠ none) (hline : handleHeader r' b' m = .ok (r'', b'', m''))
      (hrest : HeadersLoop r'' b'' m'' d) : HeadersLoop r b m d
  | again {r r' : HttpRequest} {b b' : Buffer} {m : List UInt8} (hdone : r.responseDone = false)
      (hcall : parseHeader r b = (.again, r', b')) : HeadersLoop r b m ⟨.waiting, r', b', m⟩
  | failed {r r' : HttpRequest} {b b' b'' : Buffer} {m m'' : List UInt8} {ret : Ret}
      (hdone : r.responseDone = false) (hcall : parseHeader r b = (ret, r', b')) (hok : ret ≠ .ok)
      (hagain : ret ≠ .again) (hterm : b'.terminate m r'.headerName = .ok (b'', m'')) :
      HeadersLoop r b m ⟨.closed, r', b'', m''⟩

theorem headersLoop_turns {d : HeadersConn} (h : headersLoop r b m = .ok d) : HeadersLoop r b m d := by
  induction r, b, m using headersLoop.induct with
  | case1 r b m hdone =>
      rw [headersLoop_done hdone] at h
      cases h
      exact .done hdone
  | case2 r b m hdone r' b' hcall hname =>
      rw [headersLoop_blank (Bool.eq_false_iff.mpr hdone) hcall hname] at h
      cases h
      exact .blank (Bool.eq_false_iff.mpr hdone) hcall hname
  | case3 r b m hdone r' b' hcall hname f hline =>
      rw [headersLoop_eq (Bool.eq_false_iff.mpr hdone), hcall] at h
      simp only [if_neg hname, hline] at h
      cases h
  | case4 r b m hdone r' b' hcall hname r'' b'' m'' hline ih =>
      rw [headersLoop_line (Bool.eq_false_iff.mpr hdone) hcall hname hline] at h
      exact .line (Bool.eq_false_iff.mpr hdone) hcall hname hline (ih h)
  | case5 r b m hdone r' b' hcall =>
      rw [headersLoop_again (Bool.eq_false_iff.mpr hdone) hcall] at h
      cases h
      exact .again (Bool.eq_false_iff.mpr hdone) hcall
  | case6 r b m hdone ret r' b' hok hagain hcall =>
      rw [headersLoop_eq (Bool.eq_false_iff.mpr hdone), hcall] at h
      cases ret with
      | ok => exact absurd rfl hok
      | again => exact absurd rfl hagain
      | error | invalidRequest =>
          dsimp only at h
          cases hterm : b'.terminate m r'.headerName with
          | error f =>
              rw [hterm] at h
              cases h
          | ok out =>
              rw [hterm] at h
              cases h
              exact .failed (Bool.eq_false_iff.mpr hdone) hcall hok hagain hterm

/-! ## lines -/

/-- The comparison ends at the end of the line. -/
theorem strncasecmpEq_append {word data v rest : List UInt8} {c : UInt8} {p : Nat}
    (hdata : data.drop p = v ++ c :: rest) (hc : lowerCase c ∉ word.map lowerCase) :
    strncasecmpEq word data p = strncasecmpEq word v 0 := by
  unfold strncasecmpEq
  rw [hdata, List.drop_zero]
  rcases Nat.lt_or_ge v.length word.length with hlt | hge
  · have hleft : ((v ++ c :: rest).take word.length).map lowerCase ≠ word.map lowerCase := by
      intro heq
      refine hc (heq ▸ List.mem_map_of_mem ?_)
      rw [List.take_append, List.mem_append]
      refine .inr ?_
      obtain ⟨m, hm⟩ : ∃ m, word.length - v.length = m + 1 := ⟨word.length - v.length - 1, by omega⟩
      rw [hm, List.take_succ_cons]
      exact List.mem_cons_self
    have hright : (v.take word.length).map lowerCase ≠ word.map lowerCase := by
      intro heq
      have := congrArg List.length heq
      simp only [List.length_map, List.length_take] at this
      omega
    rw [decide_eq_false hleft, decide_eq_false hright]
  · rw [List.take_append_of_le_length hge]

/-- A line whose value makes `header_handle_connection` answer with an error. -/
def Answers (n v : List UInt8) : Prop :=
  n.map lowerCase = text ['c', 'o', 'n', 'n', 'e', 'c', 't', 'i', 'o', 'n'] ∧
    strncasecmpEq keepAliveText v 0 = false ∧ strncasecmpEq closeText v 0 = false

instance (n v : List UInt8) : Decidable (Answers n v) := by
  unfold Answers
  infer_instance

theorem terminate_some {s : Str} (h : s.c = some c) (b : Buffer) (m : List UInt8) :
    ∃ b' m', b.terminate m s = .ok (b', m') := by
  unfold Buffer.terminate
  rw [h]
  exact ⟨_, _, rfl⟩

theorem terminate_none {s : Str} (h : s.c = none) (b : Buffer) (m : List UInt8) :
    b.terminate m s = .error .null := by
  rw [Buffer.terminate, h]
  rfl

/-- A slice that ends in front of `end`. -/
theorem terminate_inside {c k : Nat} {b : Buffer} (h : c + k < b.bytes.length) (m : List UInt8) :
    b.terminate m ⟨some c, k⟩ = .ok ({ b with bytes := b.bytes.set (c + k) 0 }, m) := by
  have hset : (b.bytes ++ m).set (c + k) 0 = b.bytes.set (c + k) 0 ++ m := List.set_append_left _ _ h
  have hplace : ((c : Int) + (k : Int)).toNat = c + k := by omega
  simp only [Buffer.terminate, deref_some, bind, Except.bind, pure, Except.pure, hplace, hset]
  rw [List.take_left' List.length_set, List.drop_left' List.length_set]

/-- The name of a line, its terminator written, and what is left of the line. -/
theorem terminate_name (pre front mid rest m : List UInt8) (k n i : Nat)
    (hfront : front.length = k + n) :
    Buffer.terminate ⟨pre ++ (front ++ [colon] ++ mid) ++ rest, i⟩ m ⟨some (pre.length + k), n⟩ =
      .ok (⟨pre ++ (front ++ [0] ++ mid) ++ rest, i⟩, m) := by
  have hset : (pre ++ (front ++ [colon] ++ mid) ++ rest).set (pre.length + k + n) 0 =
      pre ++ (front ++ [0] ++ mid) ++ rest := by
    have hlen : pre.length + k + n = (pre ++ front).length := by
      rw [List.length_append]
      omega
    rw [hlen, show pre ++ (front ++ [colon] ++ mid) ++ rest =
      (pre ++ front) ++ colon :: (mid ++ rest) by simp, List.set_append_right _ _ (Nat.le_refl _)]
    simp
  rw [terminate_inside, hset]
  simp only [List.length_append, List.length_singleton]
  omega

theorem name_text (pre n tail : List UInt8) (k : Nat) :
    Str.text (pre ++ (spaces k ++ n.map lowerCase ++ tail)) ⟨some (pre.length + k), n.length⟩ =
      n.map lowerCase := by
  have hdrop : (pre ++ (spaces k ++ n.map lowerCase ++ tail)).drop (pre.length + k) =
      n.map lowerCase ++ tail := by
    rw [show pre ++ (spaces k ++ n.map lowerCase ++ tail) =
      (pre ++ spaces k) ++ (n.map lowerCase ++ tail) by simp]
    exact List.drop_left' (by simp)
  simp only [Str.text, Option.getD_some, Int.toNat_natCast, hdrop]
  exact List.take_left' (by simp)

theorem lineEnd_head (he : LineEnd e) : ∃ c e', e = c :: e' ∧ (c = lf ∨ c = cr) := by
  rcases he with rfl | rfl
  · exact ⟨_, _, rfl, .inl rfl⟩
  · exact ⟨_, _, rfl, .inr rfl⟩

/-- The connection header decides whether the loop goes on. -/
theorem headerHandleConnection_value {r : HttpRequest} {data v rest : List UInt8} {c : UInt8}
    {p : Nat} (hvalue : r.headerValue.c = some p) (hdata : data.drop p = v ++ c :: rest)
    (hc : c = lf ∨ c = cr) :
    ∃ r', headerHandleConnection r .connection data = .ok r' ∧ r'.state = r.state ∧
      (r'.responseDone = true ↔ r.responseDone = true ∨
        strncasecmpEq keepAliveText v 0 = false ∧ strncasecmpEq closeText v 0 = false) := by
  have hkeep : strncasecmpEq keepAliveText data p = strncasecmpEq keepAliveText v 0 :=
    strncasecmpEq_append hdata (by rcases hc with rfl | rfl <;> decide)
  have hclose : strncasecmpEq closeText data p = strncasecmpEq closeText v 0 :=
    strncasecmpEq_append hdata (by rcases hc with rfl | rfl <;> decide)
  unfold headerHandleConnection headerHandleGeneric
  simp only [hvalue, deref_some, bind, Except.bind, pure, Except.pure, hkeep, hclose]
  cases strncasecmpEq keepAliveText v 0 <;> cases strncasecmpEq closeText v 0 <;>
    simp [HttpRequest.constructErr]

theorem headerFind_eq (name : List UInt8) (h : headerFind name = some offset) :
    offset = .connection ↔
      name = text ['c', 'o', 'n', 'n', 'e', 'c', 't', 'i', 'o', 'n'] := by
  obtain ⟨⟨name', offset'⟩, hfind, rfl⟩ := Option.map_eq_some_iff.mp h
  have hmem := List.mem_of_find?_eq_some hfind
  have heq : name' = name := by simpa using List.find?_some hfind
  subst heq
  simp only [headerArray, List.mem_cons, List.not_mem_nil, or_false] at hmem
  rcases hmem with hmem | hmem | hmem | hmem <;> cases hmem <;> decide

theorem headerParser_value {r : HttpRequest} {data n v rest : List UInt8} {c : UInt8}
    {p : Nat} (hvalue : r.headerValue.c = some p) (hdata : data.drop p = v ++ c :: rest)
    (hc : c = lf ∨ c = cr) (hoffset : headerFind (n.map lowerCase) = some offset) :
    ∃ r', headerParser r offset data = .ok r' ∧ r'.state = r.state ∧
      (r'.responseDone = true ↔ r.responseDone = true ∨ Answers n v) := by
  have hname := headerFind_eq _ hoffset
  by_cases hconn : offset = .connection
  · subst hconn
    obtain ⟨r', hr', hstate, hdone⟩ := headerHandleConnection_value hvalue hdata hc
    refine ⟨r', hr', hstate, hdone.trans ?_⟩
    rw [Answers, and_iff_right (hname.mp rfl)]
  · have hnot : ¬ Answers n v := fun h => hconn (hname.mpr h.1)
    cases offset <;> first
      | exact absurd rfl hconn
      | exact ⟨_, rfl, rfl, by simp [hnot, headerHandleGeneric]⟩

/-- A line with a name and a value, handled. -/
theorem handleHeader_valued (q : HttpRequest) (pre rest m : List UInt8) (k : Nat) (n : List UInt8)
    (j : Nat) (v : UInt8) (t : List UInt8) (he : LineEnd e) (i : Nat) :
    ∃ q', q'.state = .hdBegin ∧
      (q'.responseDone = true ↔ q.responseDone = true ∨ Answers n (v :: t)) ∧
      handleHeader
        (q.headerAt .hdBegin ⟨some (pre.length + k), n.length⟩
          ⟨some (pre.length + k + n.length + 1 + j), t.length + 1⟩)
        ⟨pre ++ (spaces k ++ n.map lowerCase ++ [colon] ++ spaces j ++ v :: t ++ e) ++ rest, i⟩ m =
      .ok (q', ⟨pre ++ (spaces k ++ n.map lowerCase ++ [0] ++ (spaces j ++ v :: t ++ e)) ++ rest, i⟩, m) := by
  have hline : spaces k ++ n.map lowerCase ++ [colon] ++ spaces j ++ v :: t ++ e =
      spaces k ++ n.map lowerCase ++ [colon] ++ (spaces j ++ v :: t ++ e) := by simp
  have hterm := terminate_name pre (spaces k ++ n.map lowerCase) (spaces j ++ v :: t ++ e) rest m
    k n.length i (by simp)
  have htext : Str.text (pre ++ (spaces k ++ n.map lowerCase ++ [colon] ++
      (spaces j ++ v :: t ++ e)) ++ rest ++ m) ⟨some (pre.length + k), n.length⟩ = n.map lowerCase := by
    have := name_text pre n ([colon] ++ (spaces j ++ v :: t ++ e) ++ rest ++ m) k
    simpa using this
  have hlen : ¬ (n.length : Int) < 0 := by omega
  rw [hline]
  unfold handleHeader
  simp only [HttpRequest.headerAt, if_neg hlen, htext, hterm, bind, Except.bind]
  rcases hfind : headerFind (n.map lowerCase) with _ | offset
  · refine ⟨_, rfl, ?_, rfl⟩
    have hnot : ¬ Answers n (v :: t) := by
      rintro ⟨hname, -⟩
      rw [hname] at hfind
      exact absurd hfind (by decide)
    simp [hnot]
  · obtain ⟨c, e', rfl, hc⟩ := lineEnd_head he
    have hdata : (pre ++ (spaces k ++ n.map lowerCase ++ [0] ++ (spaces j ++ v :: t ++ c :: e')) ++
        rest ++ m).drop (pre.length + k + n.length + 1 + j) = (v :: t) ++ c :: (e' ++ (rest ++ m)) := by
      rw [show pre ++ (spaces k ++ n.map lowerCase ++ [0] ++ (spaces j ++ v :: t ++ c :: e')) ++
        rest ++ m = (pre ++ spaces k ++ n.map lowerCase ++ [0] ++ spaces j) ++
          ((v :: t) ++ c :: (e' ++ (rest ++ m))) by simp]
      exact List.drop_left' (by simp; omega)
    obtain ⟨r', hr', hstate, hdone⟩ := headerParser_value
      (r := q.headerAt .hdBegin ⟨some (pre.length + k), n.length⟩
          ⟨some (pre.length + k + n.length + 1 + j), t.length + 1⟩) rfl hdata hc hfind
    refine ⟨r', hstate, hdone, ?_⟩
    unfold HttpRequest.headerAt at hr'
    simp only [hr', pure, Except.pure]

/-- What the loop makes of a line: small letters in the name, and a NUL behind
what the parser takes for it. -/
inductive LineWritten : List UInt8 → List UInt8 → Prop where
  | bare (k : Nat) (hn : HeaderName (c :: cs)) :
      LineWritten (spaces k ++ c :: cs ++ [cr] ++ [lf]) (spaces k ++ 0 :: cs.map lowerCase ++ [cr] ++ [lf])
  | valued (k : Nat) (hn : HeaderName n) (j : Nat) :
      LineWritten (spaces k ++ n ++ [colon] ++ spaces j ++ v :: t ++ e)
        (spaces k ++ n.map lowerCase ++ [0] ++ (spaces j ++ v :: t ++ e))

theorem LineWritten.length (h : LineWritten l l') : l'.length = l.length := by
  cases h <;> simp

/-- A line that has no colon, handled. -/
theorem handleHeader_bare (q : HttpRequest) (pre rest m : List UInt8) (k : Nat) (c : UInt8)
    (cs tail : List UInt8) (i : Nat) :
    handleHeader (q.headerAt .hdBegin ⟨some (pre.length + k), 0⟩ {})
        ⟨pre ++ (spaces k ++ (c :: cs).map lowerCase ++ tail) ++ rest, i⟩ m =
      .ok (q.headerAt .hdBegin ⟨some (pre.length + k), 0⟩ {},
        ⟨pre ++ (spaces k ++ 0 :: cs.map lowerCase ++ tail) ++ rest, i⟩, m) := by
  have hset : (pre ++ (spaces k ++ (c :: cs).map lowerCase ++ tail) ++ rest).set (pre.length + k) 0 =
      pre ++ (spaces k ++ 0 :: cs.map lowerCase ++ tail) ++ rest := by
    rw [show pre.length + k = (pre ++ spaces k).length by simp,
      show pre ++ (spaces k ++ (c :: cs).map lowerCase ++ tail) ++ rest =
        (pre ++ spaces k) ++ lowerCase c :: (cs.map lowerCase ++ tail ++ rest) by simp,
      List.set_append_right _ _ (Nat.le_refl _)]
    simp
  have hnone : headerFind [] = none := by decide
  have hterm : Buffer.terminate ⟨pre ++ (spaces k ++ (c :: cs).map lowerCase ++ tail) ++ rest, i⟩ m
      ⟨some (pre.length + k), 0⟩ = .ok (⟨pre ++ (spaces k ++ 0 :: cs.map lowerCase ++ tail) ++ rest, i⟩, m) := by
    have hplace : pre.length + k + 0 < (pre ++ (spaces k ++ (c :: cs).map lowerCase ++ tail) ++ rest).length := by
      simp only [List.length_append, List.length_map, List.length_cons, List.length_replicate]
      omega
    have hinside := terminate_inside (b := ⟨_, i⟩) hplace m
    rw [Nat.add_zero, hset] at hinside
    exact hinside
  simp only [handleHeader, HttpRequest.headerAt, Str.text, Int.toNat_zero, List.take_zero, hnone, hterm,
    Int.lt_irrefl, if_false, bind, Except.bind, pure, Except.pure]

/-- A line with a name takes one turn of the loop. -/
theorem HeaderLine.loop (hl : HeaderLine l n v) (hq : q.state = .hdBegin)
    (hdone : q.responseDone = false) (pre rest m : List UInt8) :
    ∃ q' l', LineWritten l l' ∧ q'.state = .hdBegin ∧
      (q'.responseDone = true ↔ Answers n v) ∧
      headersLoop q ⟨pre ++ (l ++ rest), pre.length⟩ m =
        headersLoop q' ⟨pre ++ l' ++ rest, (pre ++ l').length⟩ m := by
  cases hl with
  | @bare n k hn =>
      obtain ⟨c, cs, rfl⟩ := List.exists_cons_of_ne_nil hn.1
      have hline := handleHeader_bare q pre rest m k c cs ([cr] ++ [lf])
        (pre ++ (spaces k ++ (c :: cs).map lowerCase ++ [cr] ++ [lf])).length
      rw [← List.append_assoc (spaces k ++ (c :: cs).map lowerCase),
        ← List.append_assoc (spaces k ++ 0 :: cs.map lowerCase)] at hline
      have hnot : ¬ Answers [] [] := by decide
      have hcall := parseHeader_bare hq k hn pre rest
      refine ⟨q.headerAt .hdBegin ⟨some (pre.length + k), 0⟩ {}, _, .bare k hn, rfl, ?_, ?_⟩
      · simp [hnot, HttpRequest.headerAt, hdone]
      · rw [headersLoop_line hdone hcall (Option.some_ne_none _) hline]
        simp
  | @valued n v t e k hn j hv ht he =>
      obtain ⟨q', hstate, hanswers, hline⟩ := handleHeader_valued q pre rest m k n j v t he
        (pre ++ (spaces k ++ n.map lowerCase ++ [colon] ++ spaces j ++ v :: t ++ e)).length
      have hcall := parseHeader_valued hq k hn j hv ht he pre rest
      refine ⟨q', _, .valued k hn j, hstate, hanswers.trans (by simp [hdone]), ?_⟩
      rw [headersLoop_line hdone hcall (Option.some_ne_none _) hline]
      simp

/-! ## streams -/

/-- Lines the loop reads without answering. -/
inductive Passed : List UInt8 → Prop where
  | nil : Passed []
  | cons (hl : HeaderLine l n v) (hv : ¬ Answers n v) (h : Passed s) : Passed (l ++ s)

/-- What the loop makes of lines. -/
inductive Written : List UInt8 → List UInt8 → Prop where
  | nil : Written [] []
  | cons (h : LineWritten l l') (hs : Written s s') : Written (l ++ s) (l' ++ s')

theorem Written.length (h : Written s s') : s'.length = s.length := by
  induction h with
  | nil => rfl
  | cons h hs ih => rw [List.length_append, List.length_append, h.length, ih]

theorem Written.append (h : Written s s') (ht : Written t t') : Written (s ++ t) (s' ++ t') := by
  induction h with
  | nil => exact ht
  | cons h hs ih =>
      rw [List.append_assoc, List.append_assoc]
      exact .cons h ih

/-- A stream that is wrong, after any number of good lines, before a name has
begun. -/
def NullStream (xs : List UInt8) : Prop :=
  ∃ s l rest, xs = s ++ (l ++ rest) ∧ Passed s ∧ NamelessError l

/-- What ends the loop, and whether it ends with the write through `NULL`. -/
inductive HeaderEnd : List UInt8 → Bool → Prop where
  | blank (hl : BlankLine l) : HeaderEnd l false
  | answered (hl : HeaderLine l n v) (hv : Answers n v) : HeaderEnd l false
  | named (hl : NamedError l) : HeaderEnd l false
  | nameless (hl : NamelessError l) : HeaderEnd l true

theorem Passed.snoc (h : Passed s) (hl : HeaderLine l n v) (hv : ¬ Answers n v) :
    Passed (s ++ l) := by
  induction h with
  | nil => simpa using Passed.cons hl hv .nil
  | cons hl' hv' _ ih =>
      rw [List.append_assoc]
      exact .cons hl' hv' ih

/-- The loop reads good lines one after the other. -/
theorem Passed.loop (h : Passed s) :
    ∀ {q : HttpRequest} (_ : q.state = .hdBegin) (_ : q.responseDone = false) (pre rest m : List UInt8),
      ∃ q' l', Written s l' ∧ q'.state = .hdBegin ∧ q'.responseDone = false ∧
        headersLoop q ⟨pre ++ (s ++ rest), pre.length⟩ m =
          headersLoop q' ⟨pre ++ l' ++ rest, (pre ++ l').length⟩ m := by
  induction h with
  | nil =>
      intro q hq hdone pre rest m
      exact ⟨q, [], .nil, hq, hdone, by simp⟩
  | @cons l n v s hl hv _ ih =>
      intro q hq hdone pre rest m
      obtain ⟨q₁, l₁, hl₁, hq₁, hdone₁, hloop₁⟩ := hl.loop hq hdone pre (s ++ rest) m
      have hdone₁ : q₁.responseDone = false := eq_false_of_ne_true fun h => hv (hdone₁.mp h)
      obtain ⟨q₂, l₂, hl₂, hq₂, hdone₂, hloop₂⟩ := ih hq₁ hdone₁ (pre ++ l₁) rest m
      refine ⟨q₂, l₁ ++ l₂, .cons hl₁ hl₂, hq₂, hdone₂, ?_⟩
      rw [List.append_assoc l s rest, hloop₁, hloop₂, List.append_assoc pre l₁ l₂]

/-- The loop ends. -/
theorem HeaderEnd.loop (h : HeaderEnd l null) (hq : q.state = .hdBegin)
    (hdone : q.responseDone = false) (pre rest m : List UInt8) :
    if null then headersLoop q ⟨pre ++ (l ++ rest), pre.length⟩ m = .error .null
    else ∃ c, headersLoop q ⟨pre ++ (l ++ rest), pre.length⟩ m = .ok c ∧ c.status ≠ .waiting := by
  cases h with
  | blank hl =>
      exact ⟨_, headersLoop_blank hdone (parseHeader_blank hq hl pre rest) rfl, by simp⟩
  | answered hl hv =>
      obtain ⟨q', l', -, -, hanswers, hloop⟩ := hl.loop hq hdone pre rest m
      exact ⟨_, hloop.trans (headersLoop_done (hanswers.mpr hv) _ m), by simp⟩
  | named hl =>
      obtain ⟨st, i, len, value, l', hcall⟩ := parseHeader_named hq hl pre rest
      obtain ⟨b', m', hterm⟩ := terminate_some (s := ⟨some i, len⟩) rfl
        ⟨pre ++ l' ++ rest, pre.length⟩ m
      refine ⟨⟨.closed, q.headerAt st ⟨some i, len⟩ value, b', m'⟩, ?_, by simp⟩
      rw [headersLoop_error hdone hcall, show (q.headerAt st ⟨some i, len⟩ value).headerName = ⟨some i, len⟩
        from rfl, hterm]
      rfl
  | nameless hl =>
      obtain ⟨st, hcall⟩ := parseHeader_nameless hq hl pre rest
      rw [headersLoop_error hdone hcall, terminate_none rfl]
      rfl

/-- The beginning of a line is one whatever stands before it. -/
theorem HeaderPrefix.move (h : HeaderPrefix q o w w' r) (q' : HttpRequest) (o' : Nat) :
    ∃ r', HeaderPrefix q' o' w w' r' := by
  cases h with
  | start => exact ⟨_, .start⟩
  | blanks k => exact ⟨_, .blanks k⟩
  | blankCr k => exact ⟨_, .blankCr k⟩
  | name k hn => exact ⟨_, .name k hn⟩
  | nameCr k hn => exact ⟨_, .nameCr k hn⟩
  | nameSpace k hn => exact ⟨_, .nameSpace k hn⟩
  | colon k hn => exact ⟨_, .colon k hn⟩
  | beforeValue k hn j => exact ⟨_, .beforeValue k hn j⟩
  | value k hn j hv ht => exact ⟨_, .value k hn j hv ht⟩
  | valueCr k hn j hv ht => exact ⟨_, .valueCr k hn j hv ht⟩

/-- Every stream is good lines, then the beginning of a line or an end. -/
theorem stream_cases (xs : List UInt8) :
    ∃ s t, xs = s ++ t ∧ Passed s ∧
      ((∀ q o, ∃ w' r, HeaderPrefix q o t w' r) ∨ ∃ l rest null, t = l ++ rest ∧ HeaderEnd l null) := by
  induction hlen : xs.length using Nat.strongRecOn generalizing xs with
  | ind m ih =>
    let q : HttpRequest := { state := .hdBegin }
    rcases headerScan_cases (q := q) rfl [] xs with ⟨w', r, hfront⟩ |
      ⟨w, w', r, c, rest, c', res, r', rfl, hfront, hbody⟩
    · exact ⟨[], xs, rfl, .nil, .inl fun q o => ⟨w', hfront.move q o⟩⟩
    · have hsplit : w ++ c :: rest = (w ++ [c]) ++ rest := by simp
      have hend : ∀ null, HeaderEnd (w ++ [c]) null → ∃ s t, w ++ c :: rest = s ++ t ∧ Passed s ∧
          ((∀ q o, ∃ w' r, HeaderPrefix q o t w' r) ∨
            ∃ l rest null, t = l ++ rest ∧ HeaderEnd l null) :=
        fun null h => ⟨[], _, rfl, .nil, .inr ⟨_, _, null, hsplit, h⟩⟩
      rcases hfront.stop rfl hbody with ⟨-, ⟨n, v, hl⟩ | hl⟩ | ⟨-, hl | hl⟩
      · by_cases hv : Answers n v
        · exact hend _ (.answered hl hv)
        · obtain ⟨s, t, hst, hs, ht⟩ := ih rest.length (by simp at hlen; omega) rest rfl
          refine ⟨(w ++ [c]) ++ s, t, ?_, .cons hl hv hs, ht⟩
          rw [hsplit, hst, List.append_assoc (w ++ [c]) s t]
      · exact hend _ (.blank hl)
      · exact hend _ (.nameless hl)
      · exact hend _ (.named hl)

/-! ## the loop over a stream -/

/-- The loop over what has come writes through `NULL` on such streams only. -/
theorem headersLoop_null_iff (hq : q.state = .hdBegin) (hdone : q.responseDone = false)
    (pre xs m : List UInt8) :
    headersLoop q ⟨pre ++ xs, pre.length⟩ m = .error .null ↔ NullStream xs := by
  constructor
  · intro hnull
    obtain ⟨s, t, rfl, hs, ht⟩ := stream_cases xs
    obtain ⟨q', l', -, hq', hdone', hloop⟩ := hs.loop hq hdone pre t m
    rw [hloop] at hnull
    rcases ht with ht | ⟨l, rest, null, rfl, hend⟩
    · obtain ⟨w', r, hfront⟩ := ht q' (pre ++ l').length
      rw [headersLoop_again hdone' (parseHeader_again hq' hfront)] at hnull
      cases hnull
    · have hres := hend.loop hq' hdone' (pre ++ l') rest m
      cases hend with
      | nameless hl => exact ⟨s, l, rest, rfl, hs, hl⟩
      | blank | answered | named =>
          obtain ⟨c, hc, -⟩ := hres
          rw [hc] at hnull
          cases hnull
  · rintro ⟨s, l, rest, rfl, hs, hl⟩
    obtain ⟨q', l', -, hq', hdone', hloop⟩ := hs.loop hq hdone pre (l ++ rest) m
    rw [hloop]
    exact (HeaderEnd.nameless hl).loop hq' hdone' (pre ++ l') rest m

/-- Good lines change nothing about what comes behind them. -/
theorem Passed.nullStream_iff (hs : Passed s) (xs : List UInt8) :
    NullStream (s ++ xs) ↔ NullStream xs := by
  obtain ⟨q', l', -, hq', hdone', hloop⟩ :=
    hs.loop (q := { state := .hdBegin }) rfl rfl [] xs []
  rw [← headersLoop_null_iff hq' hdone' ([] ++ l') xs [], ← hloop]
  exact (headersLoop_null_iff rfl rfl [] (s ++ xs) []).symm

/-- The beginning of a line is not wrong yet. -/
theorem HeaderPrefix.not_nullStream (h : HeaderPrefix q o w w' r) : ¬ NullStream w := by
  obtain ⟨r', h⟩ := h.move { state := .hdBegin } ([] : List UInt8).length
  rw [← headersLoop_null_iff (q := { state := .hdBegin }) rfl rfl [] w [],
    headersLoop_again rfl (parseHeader_again rfl h)]
  simp

theorem HeaderPrefix.responseDone (h : HeaderPrefix q o w w' r) :
    r.responseDone = q.responseDone := by
  cases h <;> rfl

/-- The loop on a call that does the same. -/
theorem headersLoop_congr (hdone : r.responseDone = false) (hdone' : r'.responseDone = false)
    (hcall : parseHeader r b = parseHeader r' b') (m : List UInt8) :
    headersLoop r b m = headersLoop r' b' m := by
  rw [headersLoop_eq hdone, headersLoop_eq hdone', hcall]

/-- The loop resumed in the middle of a line does what it does on the whole
line, up to where `begin` stands when the request is closed. -/
theorem headersLoop_resume (hq : q.state = .hdBegin) (hdone : q.responseDone = false)
    (h : HeaderPrefix q pre.length w w' r) (ys m : List UInt8) :
    headersLoop r ⟨pre ++ w' ++ ys, (pre ++ w').length⟩ m =
        headersLoop q ⟨pre ++ (w ++ ys), pre.length⟩ m ∨
      ∃ d d', headersLoop r ⟨pre ++ w' ++ ys, (pre ++ w').length⟩ m = .ok d ∧
        headersLoop q ⟨pre ++ (w ++ ys), pre.length⟩ m = .ok d' ∧ d.status = .closed ∧ d'.status = .closed := by
  have hreach : Reaches headerBody pre q w (pre ++ w') r := h.reach hq
  have hdone' := h.responseDone.trans hdone
  have hwhole : parseHeader q ⟨pre ++ (w ++ ys), pre.length⟩ =
      headerResult ⟨pre ++ (w ++ ys), pre.length⟩ (scan headerBody (pre ++ w') ys r) := by
    simp only [parseHeader, List.take_left, List.drop_left, hreach.scan]
  have hresumed : parseHeader r ⟨pre ++ w' ++ ys, (pre ++ w').length⟩ =
      headerResult ⟨pre ++ w' ++ ys, (pre ++ w').length⟩ (scan headerBody (pre ++ w') ys r) := by
    simp only [parseHeader, List.take_left, List.drop_left]
  rcases hres : (scan headerBody (pre ++ w') ys r).res with _ | res
  · refine .inl (headersLoop_congr hdone' hdone ?_ m)
    rw [hwhole, hresumed]
    simp only [headerResult, hres]
  · rcases scan_res (fun res => res = .ok ∨ res = .error) headerBody_stop hres with rfl | rfl
    · refine .inl (headersLoop_congr hdone' hdone ?_ m)
      rw [hwhole, hresumed]
      simp only [headerResult, hres]
    · generalize scan headerBody (pre ++ w') ys r = out at hwhole hresumed hres
      obtain ⟨before, after, s, res⟩ := out
      obtain rfl : res = some .error := hres
      rw [headersLoop_error hdone hwhole, headersLoop_error hdone' hresumed]
      cases hname : s.headerName.c with
      | none =>
          rw [terminate_none hname, terminate_none hname]
          exact .inl rfl
      | some c =>
          obtain ⟨b₁, m₁, hterm₁⟩ := terminate_some hname ⟨before ++ after, (pre ++ w').length⟩ m
          obtain ⟨b₂, m₂, hterm₂⟩ := terminate_some hname ⟨before ++ after, pre.length⟩ m
          rw [hterm₁, hterm₂]
          exact .inr ⟨_, _, rfl, rfl, rfl, rfl⟩

/-- Spaces in front of a line change nothing. -/
theorem nullStream_spaces (k : Nat) (xs : List UInt8) : NullStream (spaces k ++ xs) ↔ NullStream xs := by
  let q : HttpRequest := { state := .hdBegin }
  obtain ⟨r, hr, hstate, hdone⟩ : ∃ r, HeaderPrefix q ([] : List UInt8).length (spaces k) (spaces k) r ∧
      r.state = .hdBegin ∧ r.responseDone = false := by
    cases k with
    | zero => exact ⟨q, .start, rfl, rfl⟩
    | succ k => exact ⟨_, .blanks k, rfl, rfl⟩
  rw [← headersLoop_null_iff (q := q) rfl rfl [] (spaces k ++ xs) [],
    ← headersLoop_null_iff hstate hdone ([] ++ spaces k) xs []]
  rcases headersLoop_resume (q := q) rfl rfl hr xs [] with heq | ⟨d, d', heq, heq', -, -⟩
  · rw [heq]
  · rw [heq, heq']
    exact iff_of_false (by simp) (by simp)

end PWebServer
