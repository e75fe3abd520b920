import PWebServer.Http.LineGrammar

/-!
# Http.ReadLine

`ngx_http_process_request_line` over any number of reads: what the client has
sent is appended to a buffer of fixed size and the parser resumed, until the
request line is complete or wrong.

A line that is neither when the buffer is full makes `ABORT_ON` end the worker.
`lineRun_survives_iff` says for which streams that happens, however they are cut.
-/

namespace PWebServer

open Scan

/-! ## the handler -/

/-- What wakes up the read handler of a connection. -/
inductive Wake where
  /-- `rev->timedout` -/
  | timedout
  /-- the peer has closed the connection or `recv` failed -/
  | closed
  /-- bytes that wait to be received, or none -/
  | readable (sent : List UInt8)
  deriving DecidableEq, Repr

/-- What becomes of the connection. -/
inductive LineStatus where
  /-- more of the request line is to come -/
  | waiting
  /-- an error page is to be sent -/
  | answered
  /-- the request was closed -/
  | closed
  /-- the line is complete, `http_parse_headers` takes over -/
  | headers
  deriving DecidableEq, Repr

/-- A connection while its request line is read. -/
structure LineConn where
  status : LineStatus := .waiting
  r : HttpRequest
  b : Buffer := {}
  deriving DecidableEq, Repr

/-- `ngx_http_process_request_line`, up to the call of `request_process_uri`. -/
def ngxHttpProcessRequestLine (wake : Wake) (c : LineConn) : Except Fault LineConn :=
  match wake with
  | .timedout => .ok { c with status := .answered, r := c.r.constructErr 404 }
  | .closed => .ok { c with status := .closed }
  | .readable sent =>
      match parseRequestLine c.r (c.b.recv sent) with
      | (.ok, r, b) => .ok ⟨.headers, { r with state := .hdBegin }, b⟩
      | (.again, r, b) => if b.full then .error .abort else .ok ⟨.waiting, r, b⟩
      | (_, r, b) => .ok ⟨.answered, r.constructErr 400, b⟩

/-- The handler run after run, as long as it is the one of the connection. -/
def lineRun : List Wake → LineConn → Except Fault LineConn
  | [], c => .ok c
  | wake :: wakes, c => do
      let c ← ngxHttpProcessRequestLine wake c
      if c.status = .waiting then lineRun wakes c else pure c

/-- The request at the start of its line, as `create_http_request` and
`http_clear_request` leave it: the rest of it may be anything. -/
def HttpRequest.beginLine (base : HttpRequest) : HttpRequest :=
  { base with requestLine := {}, uri := {}, version := {}, method := .get, state := .rqBegin }

/-! ## the rest of the request -/

/-- What the parser has made of a request line, stored in the request `base`. -/
def HttpRequest.withLine (base r : HttpRequest) : HttpRequest :=
  { base with
    requestLine := r.requestLine
    uri := r.uri
    version := r.version
    method := r.method
    state := r.state }

/-- The parser neither reads nor writes the rest of the request. -/
theorem requestLineBody_withLine (base r : HttpRequest) (before : List UInt8) (ch : UInt8) :
    requestLineBody (base.withLine r) before ch = (requestLineBody r before ch).map base.withLine := by
  obtain ⟨_, _, _, _, _, _, _, _, _, state, _, _, _, _, _, _⟩ := r
  cases state <;> simp only [requestLineBody, HttpRequest.withLine] <;>
    first
    | rfl
    | (split_ifs <;> first | rfl | (split <;> rfl) | simp [*, Next.map, HttpRequest.withLine])

theorem scan_withLine (base r : HttpRequest) (before xs : List UInt8) :
    scan lineBody before xs (base.withLine r) = (scan lineBody before xs r).map base.withLine :=
  scan_map base.withLine (fun r before ch => by
    simp only [lineBody, requestLineBody_withLine]) xs before r

/-! ## unfinished lines -/

/-- A text that is the beginning of a request line and not a whole one. -/
def Unfinished (w : List UInt8) : Prop := ∃ r, LinePrefix w r

theorem unfinished_iff_scan (w : List UInt8) :
    Unfinished w ↔ (scan lineBody [] w {}).res = none := by
  constructor
  · rintro ⟨r, hr⟩
    rw [show scan lineBody [] w {} = ⟨w, [], r, none⟩ from linePrefix_iff.mp hr]
  · exact fun hres => ⟨_, (lineBody_rule w).1 hres⟩

/-- What begins an unfinished line is one. -/
theorem Unfinished.of_append (h : Unfinished (xs ++ ys)) : Unfinished xs := by
  rw [unfinished_iff_scan] at h ⊢
  rw [scan_append] at h
  split at h
  · next hnone => exact Option.isNone_iff_eq_none.mp hnone
  · exact h

theorem parseUri_ne_again (uri : Uri) (p : Nat) (ch : UInt8) : (parseUri uri p ch).1 ≠ .again := by
  unfold parseUri
  split <;> (try split_ifs) <;> simp

/-- The parser's loop is never left with `AGAIN`. -/
theorem requestLineBody_stop_ne_again (h : requestLineBody r before c = .stop res r') :
    res ≠ .again := by
  unfold requestLineBody at h
  cases hst : r.state <;> simp only [hst] at h
  case rqBeforeUri | rqUri =>
    split_ifs at h
    · cases h
      simp
    split at h
    · cases h
    · next err uri _ heq =>
        cases h
        have := parseUri_ne_again r.uri before.length c
        rwa [heq] at this
  all_goals first
    | (cases h; simp)
    | (split_ifs at h <;> cases h <;> simp)

/-! ## runs -/

/-- What the handler receives before anything else happens. -/
def received : List Wake → List UInt8
  | .readable sent :: wakes => sent ++ received wakes
  | _ => []

/-- A connection that has received `w`, the beginning of a request line. -/
def midLine (base r : HttpRequest) (w : List UInt8) : LineConn :=
  ⟨.waiting, base.withLine r, ⟨w, w.length⟩⟩

/-- One more read: what the parser says is what it would say about all the
bytes at once. -/
theorem parseRequestLine_recv (base : HttpRequest) (hr : LineReach w r) (sent : List UInt8) :
    parseRequestLine (midLine base r w).r ((midLine base r w).b.recv sent) =
      lineResult ⟨w ++ sent.take (bufSize - w.length), w.length⟩
        ((scan lineBody [] (w ++ sent.take (bufSize - w.length)) {}).map base.withLine) := by
  have hscan := Reaches.scan hr (sent.take (bufSize - w.length))
  simp only [parseRequestLine, midLine, Buffer.recv, List.take_left', List.drop_left',
    scan_withLine, hscan]

/-- A read that completes the line or finds it wrong is the handler's last. -/
theorem process_finished (base : HttpRequest) (hr : LineReach w r)
    (hdone : ¬ Unfinished (w ++ sent.take (bufSize - w.length))) :
    ∃ c, ngxHttpProcessRequestLine (.readable sent) (midLine base r w) = .ok c ∧
      c.status ≠ .waiting := by
  rw [unfinished_iff_scan] at hdone
  have hparse := parseRequestLine_recv base hr sent
  obtain ⟨res, hres⟩ := Option.ne_none_iff_exists'.mp hdone
  have hagain := scan_res (· ≠ .again) (fun h => requestLineBody_stop_ne_again (Prod.mk.inj h).2) hres
  unfold ngxHttpProcessRequestLine
  dsimp only
  rw [hparse]
  unfold lineResult Outcome.map
  dsimp only
  rw [hres]
  cases res with
  | again => exact absurd rfl hagain
  | ok => exact ⟨_, rfl, by simp⟩
  | error => exact ⟨_, rfl, by simp⟩
  | invalidRequest => exact ⟨_, rfl, by simp⟩

/-- A read that leaves the line unfinished goes on if there is room for more. -/
theorem process_unfinished (base : HttpRequest) (hr : LineReach w r)
    (hr' : LineReach (w ++ sent.take (bufSize - w.length)) r') :
    ngxHttpProcessRequestLine (.readable sent) (midLine base r w) =
      if bufSize ≤ (w ++ sent.take (bufSize - w.length)).length then .error .abort
      else .ok (midLine base r' (w ++ sent.take (bufSize - w.length))) := by
  have hparse := parseRequestLine_recv base hr sent
  rw [show scan lineBody [] _ {} = ⟨_, [], r', none⟩ from hr'] at hparse
  unfold ngxHttpProcessRequestLine
  dsimp only
  rw [hparse]
  simp only [lineResult, Outcome.map, Buffer.full, decide_eq_true_eq, midLine]

/-- The run from the middle of a line on. -/
theorem lineRun_midLine (base : HttpRequest) (wakes : List Wake) :
    ∀ {w r}, LineReach w r → w.length < bufSize →
      (lineRun wakes (midLine base r w) = .error .abort ↔
        bufSize ≤ (w ++ received wakes).length ∧
          Unfinished ((w ++ received wakes).take bufSize)) := by
  induction wakes with
  | nil =>
      intro w r _ hlt
      refine iff_of_false (by simp [lineRun]) fun h => ?_
      have := h.1
      simp [received] at this
      omega
  | cons wake wakes ih =>
      intro w r hr hlt
      have hnone : ∀ {c : LineConn}, c.status ≠ .waiting → received (wake :: wakes) = [] →
          ngxHttpProcessRequestLine wake (midLine base r w) = .ok c →
          (lineRun (wake :: wakes) (midLine base r w) = .error .abort ↔
            bufSize ≤ (w ++ received (wake :: wakes)).length ∧
              Unfinished ((w ++ received (wake :: wakes)).take bufSize)) := by
        intro c hc hrec hproc
        refine iff_of_false (by simp [lineRun, hproc, bind, Except.bind, hc, pure, Except.pure])
          fun h => ?_
        have := h.1
        simp [hrec] at this
        omega
      cases wake with
      | timedout => exact hnone (by simp) rfl rfl
      | closed => exact hnone (by simp) rfl rfl
      | readable sent =>
          have htake : w ++ sent.take (bufSize - w.length) =
              (w ++ sent).take bufSize := by
            rw [List.take_append, List.take_of_length_le (Nat.le_of_lt hlt)]
          have hfront : ((w ++ received (.readable sent :: wakes)).take bufSize) =
              (w ++ sent).take bufSize ++
                (received wakes).take (bufSize - (w ++ sent).length) := by
            rw [received, ← List.append_assoc, List.take_append]
          by_cases hdone : Unfinished (w ++ sent.take (bufSize - w.length))
          · obtain ⟨r', hr'⟩ := hdone
            rw [linePrefix_iff] at hr'
            have hproc := process_unfinished base hr hr'
            by_cases hfull : bufSize ≤ (w ++ sent.take (bufSize - w.length)).length
            · rw [if_pos hfull] at hproc
              have hlen : bufSize ≤ (w ++ sent).length := by
                rw [htake, List.length_take] at hfull
                omega
              refine iff_of_true (by simp [lineRun, hproc, bind, Except.bind]) ⟨?_, ?_⟩
              · simp only [received, List.length_append] at hlen ⊢
                omega
              · rw [hfront, Nat.sub_eq_zero_of_le hlen, List.take_zero, List.append_nil, ← htake]
                exact ⟨r', linePrefix_iff.mpr hr'⟩
            · rw [if_neg hfull] at hproc
              have hall : w ++ sent.take (bufSize - w.length) = w ++ sent := by
                rw [htake, List.length_take] at hfull
                rw [htake, List.take_of_length_le (by omega)]
              rw [hall] at hr' hproc hfull
              have hrun : lineRun (.readable sent :: wakes) (midLine base r w) =
                  lineRun wakes (midLine base r' (w ++ sent)) := by
                rw [lineRun, hproc]
                rfl
              rw [hrun, ih hr' (by omega), received, List.append_assoc]
          · obtain ⟨c, hproc, hstatus⟩ := process_finished base hr hdone
            refine iff_of_false
              (by simp [lineRun, hproc, bind, Except.bind, hstatus, pure, Except.pure]) ?_
            rintro ⟨-, hunfinished⟩
            rw [hfront, ← htake] at hunfinished
            exact hdone hunfinished.of_append

/-- A run that has read a whole line: the line is an accepted one, what follows
it stays in the buffer, and the request has been told nothing else. -/
theorem lineRun_headers (base : HttpRequest) (wakes : List Wake) :
    ∀ {w r c}, LineReach w r → w.length < bufSize → lineRun wakes (midLine base r w) = .ok c →
      c.status = .headers →
      ∃ line rest r', AcceptedLine line r' ∧ c.b = ⟨line ++ rest, line.length⟩ ∧
        c.r = { base.withLine r' with state := .hdBegin } ∧ line ++ rest <+: w ++ received wakes := by
  induction wakes with
  | nil =>
      intro w r c hr hlt hrun hstatus
      rw [lineRun] at hrun
      cases hrun
      contradiction
  | cons wake wakes ih =>
      intro w r c hr hlt hrun hstatus
      cases wake with
      | timedout =>
          cases hrun
          contradiction
      | closed =>
          cases hrun
          contradiction
      | readable sent =>
          by_cases hdone : Unfinished (w ++ sent.take (bufSize - w.length))
          · obtain ⟨r', hr'⟩ := hdone
            rw [linePrefix_iff] at hr'
            have hproc := process_unfinished base hr hr'
            rw [lineRun, hproc] at hrun
            split at hrun
            · contradiction
            · next hroom =>
              have htake : sent.take (bufSize - w.length) = sent := by
                rw [List.length_append, List.length_take] at hroom
                exact List.take_of_length_le (by omega)
              rw [htake] at hr' hrun hroom
              have hrest := ih hr' (by omega) hrun hstatus
              rwa [List.append_assoc] at hrest
          · rw [unfinished_iff_scan] at hdone
            have hparse := parseRequestLine_recv base hr sent
            have hfront : w ++ sent.take (bufSize - w.length) <+: w ++ received (.readable sent :: wakes) := by
              rw [received, List.prefix_append_right_inj]
              exact (List.take_prefix _ _).trans (List.prefix_append _ _)
            generalize w ++ sent.take (bufSize - w.length) = total at hdone hparse hfront
            rw [lineRun, ngxHttpProcessRequestLine, hparse] at hrun
            have hwhole : parseRequestLine {} ⟨total, 0⟩ =
                lineResult ⟨total, 0⟩ (scan lineBody [] total {}) := rfl
            rw [lineResult, Outcome.map] at hrun
            rw [lineResult] at hwhole
            cases hres : (scan lineBody [] total {}).res with
            | none => exact absurd hres hdone
            | some res =>
                rw [hres] at hrun hwhole
                cases res with
                | ok =>
                    obtain ⟨line, rest, hdata, hline, hbuf⟩ := parseRequestLine_ok_iff.mp hwhole
                    cases hrun
                    rw [hdata] at hfront
                    refine ⟨line, rest, _, hline, ?_, rfl, hfront⟩
                    rw [Buffer.mk.injEq] at hbuf ⊢
                    exact ⟨hdata, hbuf.2⟩
                | error =>
                    cases hrun
                    contradiction
                | invalidRequest =>
                    cases hrun
                    contradiction
                | again =>
                    have hagain := scan_res (· ≠ .again)
                      (fun h => requestLineBody_stop_ne_again (Prod.mk.inj h).2) hres
                    exact absurd rfl hagain

/-- A stream whose first 1025 bytes are the beginning of a request line and not
a whole one. -/
def Overlong (w : List UInt8) : Prop := bufSize ≤ w.length ∧ Unfinished (w.take bufSize)

/-- **The buffer and the line**: the worker survives the reading of a request
line exactly if what it receives is not overlong, however it is cut into
reads. -/
theorem lineRun_survives_iff (base : HttpRequest) (wakes : List Wake) :
    lineRun wakes { r := base.beginLine } ≠ .error .abort ↔ ¬ Overlong (received wakes) :=
  not_congr (lineRun_midLine base wakes (w := []) (r := {}) (.nil _) (by decide))

/-- A word of one letter. -/
theorem methodWord_replicate (hn : 0 < n) : MethodWord (List.replicate n 'G'.toUInt8) := by
  cases n with
  | zero => exact absurd hn (Nat.lt_irrefl 0)
  | succ n =>
      refine ⟨by decide, fun c hc => ?_⟩
      rw [List.eq_of_mem_replicate hc]
      decide

/-- A client that sends 1025 letters aborts the worker. -/
theorem lineRun_letters :
    lineRun [.readable (List.replicate bufSize 'G'.toUInt8)] { r := createHttpRequest } =
      .error .abort := by
  have hall : [] ++ received [.readable (List.replicate bufSize 'G'.toUInt8)] =
      List.replicate bufSize 'G'.toUInt8 :=
    List.append_nil _
  refine (lineRun_midLine {} _ (w := []) (r := {}) (.nil _) (by decide)).mpr ?_
  rw [hall, List.length_replicate, List.take_of_length_le (List.length_replicate ▸ Nat.le_refl _)]
  exact ⟨Nat.le_refl _, _, .method (methodWord_replicate (by decide))⟩

end PWebServer
