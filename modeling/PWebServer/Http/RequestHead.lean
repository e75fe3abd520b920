import PWebServer.Http.Answers

/-!
# Http.RequestHead

The request line and the header of a request that is passed on, on their way
through the receive buffer.

The parsers and `http_proxy_pass` share `begin`: to the parsers it says how far the
header has been read, to `http_proxy_pass` where sending begins, and it is
`request_handle_body` that sets it back when the header has been read.  A write
event of the back end that comes before finds nothing to send, and clears the
buffer.
-/

namespace PWebServer

open History

/-! ## the law -/

/-- The byte at the place has gone to the back end. -/
def PassedOn (ds : List Deed) (i : Nat) : Prop := ∃ places xs, .toUpstream places xs ∈ ds ∧ i ∈ places

/-- The byte at the place is not behind the end of the header, where that is
known. -/
def InHead (ds : List Deed) (i : Nat) : Prop := ∀ e, .headersRead e ∈ ds → i < e

/-- The server answers the request itself, or the response is complete. -/
def Deed.settlesRequest : Deed → Bool
  | .constructErr _ _ | .responseDone => true
  | _ => false

/-- The deed `d`, done after those of `p`: until the request is settled no byte of
its line or its header leaves the receive buffer before it has gone to the back
end. -/
def HeadKept (p : List Deed) (d : Deed) : Prop :=
  (∀ d' ∈ requestDeeds p, d'.settlesRequest = false) → ∀ places, d = .discard places →
    ∀ i ∈ places, InHead (requestDeeds p) i → PassedOn (requestDeeds p) i

/-- `http_proxy_pass` sends only when the header has been read. -/
def Exchange.PassesLate (s : Exchange) (t : Turn) : Prop :=
  ∀ s₁, s.Runs t .httpProxyPass s₁ → 0 < s₁.up.fd → s₁.up.wev.timedout = false →
    s₁.c.rev.handler ≠ some .httpParseHeaders

/-! ## deeds that are about something else -/

/-- Bytes leave the receive buffer, or the request is over. -/
def Deed.drops : Deed → Bool
  | .discard _ | .clearRequest _ => true
  | _ => false

section

variable {log ds : List Deed} {d : Deed} {i : Nat}

theorem clears_of_quiet (h : d.drops = false) : d.clears = false := by
  cases d <;> first | rfl | contradiction

theorem requestDeeds_quiet (h : ∀ d ∈ ds, d.drops = false) : requestDeeds (log ++ ds) = requestDeeds log ++ ds :=
  requestDeeds_append fun d hd => clears_of_quiet (h d hd)

theorem PassedOn.append (h : PassedOn ds i) (ds' : List Deed) : PassedOn (ds ++ ds') i := by
  obtain ⟨places, xs, hd, hi⟩ := h
  exact ⟨places, xs, List.mem_append_left ds' hd, hi⟩

theorem InHead.of_append {ds' : List Deed} (h : InHead (ds ++ ds') i) : InHead ds i :=
  fun e he => h e (List.mem_append_left ds' he)

/-- Other deeds keep the law. -/
theorem headKept_quiet (h : Lawful HeadKept log) (hds : ∀ d ∈ ds, d.drops = false) : Lawful HeadKept (log ++ ds) := by
  refine h.append fun p d hd _ places hplaces => ?_
  have hquiet := hds d hd
  rw [hplaces] at hquiet
  contradiction

/-- So does every deed for a request that is settled. -/
theorem headKept_settled (h : Lawful HeadKept log) (hsettled : ∃ d ∈ requestDeeds log, d.settlesRequest = true)
    (hds : ∀ d ∈ ds, d.clears = false) : Lawful HeadKept (log ++ ds) := by
  refine lawful_append.mpr ⟨h, fun p d rest heq hopen => ?_⟩
  obtain ⟨d', hd', hset⟩ := hsettled
  rw [requestDeeds_append fun e he => hds e (by rw [heq]; exact List.mem_append_left _ he)] at hopen
  rw [hopen d' (List.mem_append_left _ hd')] at hset
  contradiction

end

/-! ## what a move does to the receive buffer -/

/-- Nothing is done to the receive buffer, nor to what decides who works on it. -/
structure BufferSame (s s' : Exchange) : Prop where
  recvBuffer : s'.recvBuffer = s.recvBuffer
  places : s'.places = s.places
  arrived : s'.arrived = s.arrived
  handler : s'.c.rev.handler = s.c.rev.handler
  active : s'.c.rev.active = s.c.rev.active
  done : s'.r.responseDone = s.r.responseDone
  upstream : s'.r.upstream = s.r.upstream
  log : ∃ ds, s'.log = s.log ++ ds ∧ ∀ d ∈ ds, d.drops = false

/-- The moves by what they do to the receive buffer. -/
inductive BufferMove (cfg : Config) (l : Label) (s s' : Exchange) : Prop
  | same (h : BufferSame s s')
  | recv (o : Recv) (hl : l = .read) (hreads : s.Reads) (hs' : s' = (s.recvClient o).2)
  | parse (r : HttpRequest) (b : Buffer) (m : List UInt8)
      (hrev : s.c.rev.handler = some .ngxHttpProcessRequestLine ∨ s.c.rev.handler = some .httpParseHeaders)
      (hbuf : s.recvBuffer.Parsed b) (hup : r.upstream = s.r.upstream) (hdone : r.responseDone = s.r.responseDone)
      (hs' : s' = { s with r := r, recvBuffer := b, recvBehind := m })
  | lineBegins (hrev : s.c.rev.handler = some .httpInitRequest)
      (hs' : s' = s.onRev fun ev => { ev with handler := some .ngxHttpProcessRequestLine })
  | headersRead (hl : l = .read) (hrev : s.c.rev.handler = some .httpParseHeaders)
      (hs' : s' = (s.tell (.headersRead s.headersEnd)).onRev fun ev => { ev with handler := some .requestHandleBody })
  | openFile (hrev : s.c.rev.handler = some .ngxHttpProcessRequestLine) (hline : s'.LineRead)
      (hup : s'.r.upstream = s.r.upstream) (hlog : s'.log = s.log)
  | forward (hl : l = .read) (hrev : s.c.rev.handler = some .ngxHttpProcessRequestLine)
      (hrev' : s'.c.rev.handler = some .httpParseHeaders) (hactive : s'.c.rev.active = s.c.rev.active)
      (hdone : s'.r.responseDone = false) (hbuf : s.recvBuffer.Parsed s'.recvBuffer)
      (hplaces : s'.places = s.places ∧ s'.arrived = s.arrived)
      (hlog : ∃ ds, s'.log = s.log ++ ds ∧ ∀ d ∈ ds, d.drops = false)
  | err (hlog : ∃ ds, s'.log = s.log ++ ds ∧ (∀ d ∈ ds, d.drops = false) ∧ ∃ d ∈ ds, d.settlesRequest = true)
  | rewind (hrev : s.c.rev.handler = some .requestHandleBody) (hreads : s.Reads) (hup : s.r.upstream ≠ none)
      (hs' : s' = (s.onRev EventS.delEvent).rewindRecv)
  | answer (hrev : s.c.rev.handler = some .requestHandleBody) (hrev' : s'.c.rev.handler = some .requestHandleBody)
      (hup : s.r.upstream = none) (hup' : s'.r.upstream = none)
      (hlog : ∃ ds, s'.log = s.log ++ ds ∧ ∀ d ∈ ds, d.drops = false)
  | passAll (o : Send) (xs : List UInt8) (b : Buffer) (hl : l = .pass .ok xs) (hfd : 0 < s.up.fd)
      (hb : bufferSend s.recvBuffer o = (.ok, xs, b))
      (hs' : s' = (s.tell (.toUpstream (s.nextPlaces xs.length) xs)).clearRecv.onRev EventS.addEvent)
  | pass (o : Send) (ret : Ret) (xs : List UInt8) (b : Buffer) (hl : l = .pass ret xs) (hfd : 0 < s.up.fd)
      (hb : bufferSend s.recvBuffer o = (ret, xs, b)) (hret : ret ≠ .ok)
      (hs' : s' = { s.tell (.toUpstream (s.nextPlaces xs.length) xs) with recvBuffer := b })
  | upstreamEof (hfd : 0 < s.up.fd) (hrev : s'.c.rev.handler = s.c.rev.handler) (hup : s'.r.upstream = none)
      (hlog : s'.log = s.log)
  | done (calls : Calls)
      (h : Exchange.httpResponseDone cfg calls { s with r := { s.r with responseDone := true } } = .ok s')
  | closed (hclosed : s'.closed = true) (hlog : ∃ ds, s'.log = s.log ++ ds ∧ ∀ d ∈ ds, d.drops = false)

section

variable {cfg : Config} {l : Label} {s s' : Exchange}

/-- A move that logs nothing. -/
theorem quiet_of_log (hlog : s'.log = s.log) : ∃ ds, s'.log = s.log ++ ds ∧ ∀ d ∈ ds, d.drops = false :=
  ⟨[], by rw [hlog, List.append_nil], fun d hd => nomatch hd⟩

/-- A move that logs one thing. -/
theorem quiet_of_one {d : Deed} (hlog : s'.log = s.log ++ [d]) (hd : d.drops = false) :
    ∃ ds, s'.log = s.log ++ ds ∧ ∀ d ∈ ds, d.drops = false :=
  ⟨[d], hlog, fun d' hd' => by rwa [List.mem_singleton.mp hd']⟩

theorem quiet_of_act {acts : List Act} {d : Deed} (h : d ∈ acts.map Deed.balancer) : d.drops = false := by
  obtain ⟨a, -, hd⟩ := List.mem_map.mp h
  rw [← hd]
  rfl

theorem httpCloseRequest_quiet (calls : Calls) (s : Exchange) :
    ∃ ds, (s.httpCloseRequest calls).log = s.log ++ ds ∧ ∀ d ∈ ds, d.drops = false := by
  rw [httpCloseRequest_eq]
  refine ⟨_, rfl, fun d hd => ?_⟩
  cases hd with
  | head => rfl
  | tail _ hact => exact quiet_of_act hact

theorem Move.buffer (hmove : Move cfg l s s') : BufferMove cfg l s s' := by
  cases hmove with
  | mark hrev => exact .same ⟨rfl, rfl, rfl, hrev.handler, hrev.active, rfl, rfl, quiet_of_log rfl⟩
  | ran => exact .same ⟨rfl, rfl, rfl, rfl, rfl, rfl, rfl, quiet_of_one rfl rfl⟩
  | recv o hreads => exact .recv o rfl hreads rfl
  | parse hrev hbuf hup hdone => exact .parse _ _ _ hrev hbuf hup hdone rfl
  | uriDone =>
      refine .same ⟨rfl, rfl, rfl, rfl, rfl, ?_, ?_, quiet_of_log rfl⟩
      · exact (uriDone_responseDone s).symm
      · unfold Exchange.uriDone
        dsimp only
        split <;> rfl
  | state => exact .same ⟨rfl, rfl, rfl, rfl, rfl, rfl, rfl, quiet_of_log rfl⟩
  | timeRev =>
      exact .same ⟨rfl, rfl, rfl, EventS.addTimer_handler _ _ _, EventS.addTimer_active _ _ _, rfl, rfl, quiet_of_log rfl⟩
  | lineBegins hrev => exact .lineBegins hrev rfl
  | headersRead hrev => exact .headersRead rfl hrev rfl
  | openFile hrev hdone hr =>
      refine .openFile hrev (.inl rfl) ?_ rfl
      rw [hr]
      rfl
  | forward hrev hdone hr hbuf hsel =>
      refine .forward rfl hrev rfl rfl ?_ hbuf ⟨rfl, rfl⟩ ⟨_, rfl, fun d hd => ?_⟩
      · rw [hsel.frame, hr]
        exact hdone
      · cases hd with
        | head => rfl
        | tail _ hact => exact quiet_of_act hact
  | reconnect hfd hcur hsel =>
      refine .same ⟨rfl, rfl, rfl, rfl, rfl, ?_, ?_, _, rfl, fun d hd => quiet_of_act hd⟩
      · rw [hsel.frame]
        rfl
      · rw [hsel.frame]
        rfl
  | err c r b m up ds status hc hline hcur hup hds h =>
      refine .err ⟨ds ++ [.constructErr status s'.sendBuffer.pending], ?_, fun d hd => ?_, _,
        List.mem_append_right _ (List.mem_singleton_self _), rfl⟩
      · rw [constructErr_log h, List.append_assoc]
      · rcases List.mem_append.mp hd with hold | hnew
        · rcases hds d hold with rfl | ⟨us, rfl⟩ <;> rfl
        · rw [List.mem_singleton.mp hnew]
          rfl
  | rewind hrev hreads hup => exact .rewind hrev hreads hup rfl
  | respond hrev hreads hup hdone h =>
      obtain ⟨b, -, hs'⟩ := constructResponse_eq h
      rw [hs']
      exact .answer hrev ((EventS.delEvent_handler _).trans hrev) hup hup (quiet_of_one rfl rfl)
  | await hrev hup => exact .answer hrev ((EventS.delEvent_handler _).trans hrev) hup hup (quiet_of_log rfl)
  | attached | timeWev | delWev | toFile => exact .same ⟨rfl, rfl, rfl, rfl, rfl, rfl, rfl, quiet_of_log rfl⟩
  | passAll hfd hb => exact .passAll _ _ _ rfl hfd hb rfl
  | pass hfd hb hret => exact .pass _ _ _ _ rfl hfd hb hret rfl
  | relay | send | sendFile => exact .same ⟨rfl, rfl, rfl, rfl, rfl, rfl, rfl, quiet_of_one rfl rfl⟩
  | upstreamEof hfd => exact .upstreamEof hfd rfl rfl rfl
  | done calls hwrites hdone h => exact .done calls h
  | close calls =>
      refine .closed ?_ (httpCloseRequest_quiet calls s)
      rw [httpCloseRequest_eq]
  | drop => exact .closed rfl (quiet_of_log rfl)

end

/-! ## where the header is -/

/-- What a turn is about. -/
inductive Work where
  /-- a handler of the client's read event is run -/
  | reading
  /-- bytes go to the back end -/
  | passing
  | other
  deriving DecidableEq

/-- The receive buffer has the last bytes that have arrived. -/
structure Latest (s : Exchange) : Prop where
  numbered : ∃ first, s.places = List.range' first s.recvBuffer.bytes.length ∧
    s.arrived = first + s.recvBuffer.bytes.length
  begins : s.recvBuffer.begin ≤ s.recvBuffer.bytes.length

/-- The header has been read to its end. -/
structure HeadRead (s : Exchange) : Prop where
  rev : s.c.rev.handler = some .requestHandleBody
  waits : s.r.responseDone = false
  ends : ∃ e, .headersRead e ∈ requestDeeds s.log ∧ e ≤ s.arrived
  begins : s.recvBuffer.begin ≤ s.recvBuffer.bytes.length
  sized : s.places.length = s.recvBuffer.bytes.length

/-- Where the line and the header of the present request are. -/
inductive HeadPhase (w : Work) (s : Exchange) : Prop
  | line (hstarts : s.Starts) (hactive : s.c.rev.active = true) (hbuf : Latest s)
  | header (hw : w ≠ .passing) (hrev : s.c.rev.handler = some .httpParseHeaders) (hactive : s.c.rev.active = true)
      (hwaits : s.r.responseDone = false) (hbuf : Latest s)
  /-- they are in front of `begin` -/
  | front (hw : w = .reading) (hread : HeadRead s) (hactive : s.c.rev.active = true)
      (hbehind : ∀ i ∈ s.places.drop s.recvBuffer.begin, ¬InHead (requestDeeds s.log) i)
  /-- what is in front of `begin` has gone to the back end, and all of it before the
  client is read again -/
  | passed (hread : HeadRead s)
      (hfront : ∀ i ∈ s.places.take s.recvBuffer.begin, InHead (requestDeeds s.log) i → PassedOn (requestDeeds s.log) i)
      (hall : s.c.rev.active = true → ∀ i ∈ s.places, InHead (requestDeeds s.log) i → PassedOn (requestDeeds s.log) i)
  /-- there is no back end -/
  | alone (hline : s.LineRead) (hup : s.r.upstream = none)
  | settled (h : ∃ d ∈ requestDeeds s.log, d.settlesRequest = true)
  | closed (h : s.closed = true)

section

variable {cfg : Config} {l : Label} {w : Work} {s s' : Exchange}

theorem Latest.same (h : Latest s) (hsame : BufferSame s s') : Latest s' := by
  obtain ⟨hnumbered, hbegins⟩ := h
  rw [← hsame.places, ← hsame.arrived, ← hsame.recvBuffer] at hnumbered
  rw [← hsame.recvBuffer] at hbegins
  exact ⟨hnumbered, hbegins⟩

/-- A parser moves `begin` and writes, but the bytes stay where they are. -/
theorem Latest.parsed (h : Latest s) (hbuf : s.recvBuffer.Parsed s'.recvBuffer)
    (hplaces : s'.places = s.places ∧ s'.arrived = s.arrived) : Latest s' where
  numbered := by
    rw [hplaces.1, hplaces.2, hbuf.length]
    exact h.numbered
  begins := hbuf.begins h.begins

/-- What `recv` adds to the receive buffer. -/
theorem recvClient_begin (s : Exchange) (o : Recv) : (s.recvClient o).2.recvBuffer.begin = s.recvBuffer.begin := by
  change (bufferRecv s.recvBuffer o).2.2.begin = _
  rw [bufferRecv_bytes]

theorem Latest.recv (h : Latest s) (o : Recv) : Latest (s.recvClient o).2 := by
  obtain ⟨first, hplaces, harrived⟩ := h.numbered
  have hbytes := bufferRecv_bytes s.recvBuffer o
  refine ⟨⟨first, ?_, ?_⟩, ?_⟩
  · change s.places ++ List.range' s.arrived (bufferRecv s.recvBuffer o).2.1.length =
      List.range' first (bufferRecv s.recvBuffer o).2.2.bytes.length
    rw [hbytes, hplaces, harrived, List.length_append, List.range'_append_1]
  · change s.arrived + (bufferRecv s.recvBuffer o).2.1.length = first + (bufferRecv s.recvBuffer o).2.2.bytes.length
    rw [hbytes, harrived, List.length_append, Nat.add_assoc]
  · change (bufferRecv s.recvBuffer o).2.2.begin ≤ (bufferRecv s.recvBuffer o).2.2.bytes.length
    rw [hbytes, List.length_append]
    exact h.begins.trans (Nat.le_add_right _ _)

/-- What is behind `begin` when the header has been read is behind its end. -/
theorem Latest.headersEnd_le (h : Latest s) : ∀ i ∈ s.places.drop s.recvBuffer.begin, s.headersEnd ≤ i := by
  intro i hi
  obtain ⟨first, hplaces, harrived⟩ := h.numbered
  have hbegins := h.begins
  rw [hplaces, List.drop_range', List.mem_range'_1] at hi
  unfold Exchange.headersEnd
  omega

/-! ## the end of a request -/

theorem HeadPhase.of_err (hlaw : Lawful HeadKept s.log)
    (hlog : ∃ ds, s'.log = s.log ++ ds ∧ (∀ d ∈ ds, d.drops = false) ∧ ∃ d ∈ ds, d.settlesRequest = true) :
    Lawful HeadKept s'.log ∧ HeadPhase w s' := by
  obtain ⟨ds, hlog, hquiet, d, hd, hset⟩ := hlog
  rw [hlog]
  refine ⟨headKept_quiet hlaw hquiet, .settled ⟨d, ?_, hset⟩⟩
  rw [hlog, requestDeeds_quiet hquiet]
  exact List.mem_append_right _ hd

theorem HeadPhase.of_closed (hlaw : Lawful HeadKept s.log) (hclosed : s'.closed = true)
    (hlog : ∃ ds, s'.log = s.log ++ ds ∧ ∀ d ∈ ds, d.drops = false) : Lawful HeadKept s'.log ∧ HeadPhase w s' := by
  obtain ⟨ds, hlog, hquiet⟩ := hlog
  rw [hlog]
  exact ⟨headKept_quiet hlaw hquiet, .closed hclosed⟩

/-- What is left in the buffer of a request that is complete may go. -/
theorem HeadPhase.of_done {calls : Calls} (hlaw : Lawful HeadKept s.log)
    (h : s.httpResponseDone cfg calls = .ok s') : Lawful HeadKept s'.log ∧ HeadPhase w s' := by
  have htold : Lawful HeadKept (s.log ++ [.responseDone]) := headKept_quiet hlaw fun d hd => by
    rw [List.mem_singleton.mp hd]
    rfl
  cases httpResponseDone_cases h with
  | inl hkept =>
      have hset : ∃ d ∈ requestDeeds (s.log ++ [.responseDone]), d.settlesRequest = true := by
        refine ⟨.responseDone, ?_, rfl⟩
        rw [requestDeeds_quiet fun d hd => by rw [List.mem_singleton.mp hd]; rfl]
        exact List.mem_append_right _ (List.mem_singleton_self _)
      have hdropped : Lawful HeadKept (s.log ++ [.responseDone] ++ [.discard s.places]) :=
        headKept_settled htold hset fun d hd => by
          rw [List.mem_singleton.mp hd]
          rfl
      have hlog : s'.log = s.log ++ [.responseDone] ++ [.discard s.places] ++ [.clearRequest s.r.curUpstream] := by
        rw [hkept.2, keptAlive, httpClearRequest_eq]
        simp [Exchange.tell]
      constructor
      · rw [hlog, lawful_concat]
        exact ⟨hdropped, fun _ places hplaces => absurd hplaces (by simp)⟩
      · rw [hkept.2, keptAlive, httpClearRequest_eq]
        refine .line (.inr (EventS.addTimer_handler _ _ _)) ?_ ⟨⟨s.arrived, rfl, rfl⟩, le_refl 0⟩
        exact (EventS.addTimer_active _ _ _).trans (congrArg EventS.active (EventS.addEvent_eq _))
  | inr hclosed =>
      rw [hclosed.2]
      refine HeadPhase.of_closed htold ?_ (httpCloseRequest_quiet calls _)
      rw [httpCloseRequest_eq]

/-! ## phase by phase -/

theorem BufferSame.deeds (h : BufferSame s s') : ∃ ds, requestDeeds s'.log = requestDeeds s.log ++ ds := by
  obtain ⟨ds, hlog, hquiet⟩ := h.log
  exact ⟨ds, by rw [hlog, requestDeeds_quiet hquiet]⟩

theorem BufferSame.lawful (h : BufferSame s s') (hlaw : Lawful HeadKept s.log) : Lawful HeadKept s'.log := by
  obtain ⟨ds, hlog, hquiet⟩ := h.log
  rw [hlog]
  exact headKept_quiet hlaw hquiet

/-- While the line is read there is no back end. -/
theorem HeadPhase.move_line (hstarts : s.Starts) (hactive : s.c.rev.active = true) (hbuf : Latest s) (hlaw : Lawful HeadKept s.log)
    (hs : Handled s) (hread : l = .read → w = .reading) (hmove : BufferMove cfg l s s') :
    Lawful HeadKept s'.log ∧ HeadPhase w s' := by
  have hnot : ¬s.LineRead := fun hline => hline.not_starts hstarts
  cases hmove with
  | same h =>
      refine ⟨h.lawful hlaw, .line ?_ (h.active.trans hactive) (hbuf.same h)⟩
      unfold Exchange.Starts
      rw [h.handler]
      exact hstarts
  | recv o hl hreads hs' =>
      subst hs'
      exact ⟨hlaw, .line hstarts hactive (hbuf.recv o)⟩
  | parse r b m hrev hparsed hup hdone hs' =>
      subst hs'
      exact ⟨hlaw, .line hstarts hactive (hbuf.parsed hparsed ⟨rfl, rfl⟩)⟩
  | lineBegins hrev hs' =>
      subst hs'
      exact ⟨hlaw, .line (.inr rfl) hactive ⟨hbuf.numbered, hbuf.begins⟩⟩
  | headersRead hl hrev => exact absurd (.inl hrev) hnot
  | openFile hrev hline hup hlog =>
      rw [hlog]
      exact ⟨hlaw, .alone hline (hup.trans (hs.start hstarts).2)⟩
  | forward hl hrev hrev' hsame hdone hparsed hplaces hlog =>
      obtain ⟨ds, hlog, hquiet⟩ := hlog
      rw [hlog]
      refine ⟨headKept_quiet hlaw hquiet, .header ?_ hrev' (hsame.trans hactive) hdone (hbuf.parsed hparsed hplaces)⟩
      rw [hread hl]
      decide
  | err hlog => exact HeadPhase.of_err hlaw hlog
  | rewind hrev => exact absurd (.inr hrev) hnot
  | answer hrev => exact absurd (.inr hrev) hnot
  | passAll o xs b hl hfd => exact absurd hstarts (hs.attached hfd).2
  | pass o ret xs b hl hfd => exact absurd hstarts (hs.attached hfd).2
  | upstreamEof hfd => exact absurd hstarts (hs.attached hfd).2
  | done calls h => exact HeadPhase.of_done (s := { s with r := { s.r with responseDone := true } }) hlaw h
  | closed hclosed hlog => exact HeadPhase.of_closed hlaw hclosed hlog

theorem HeadPhase.move_header (hw : w ≠ .passing) (hrev : s.c.rev.handler = some .httpParseHeaders)
    (hactive : s.c.rev.active = true) (hwaits : s.r.responseDone = false) (hbuf : Latest s)
    (hlaw : Lawful HeadKept s.log) (hread : l = .read → w = .reading)
    (hpass : ∀ ret xs, l = .pass ret xs → w = .passing) (hmove : BufferMove cfg l s s') :
    Lawful HeadKept s'.log ∧ HeadPhase w s' := by
  have hline : s.LineRead := .inl hrev
  have hlate : s.c.rev.handler ≠ some .ngxHttpProcessRequestLine := fun h => hline.not_starts (.inr h)
  have hbody : s.c.rev.handler ≠ some .requestHandleBody := fun h => nomatch hrev.symm.trans h
  cases hmove with
  | same h =>
      exact ⟨h.lawful hlaw,
        .header hw (h.handler.trans hrev) (h.active.trans hactive) (h.done.trans hwaits) (hbuf.same h)⟩
  | recv o hl hreads hs' =>
      subst hs'
      exact ⟨hlaw, .header hw hrev hactive hwaits (hbuf.recv o)⟩
  | parse r b m hrev' hparsed hup hdone hs' =>
      subst hs'
      exact ⟨hlaw, .header hw hrev hactive (hdone.trans hwaits) (hbuf.parsed hparsed ⟨rfl, rfl⟩)⟩
  | lineBegins hinit => exact absurd (.inl hinit) hline.not_starts
  | headersRead hl hrev' hs' =>
      subst hs'
      have hquiet : ∀ d ∈ [Deed.headersRead s.headersEnd], d.drops = false := fun d hd => by
        rw [List.mem_singleton.mp hd]
        rfl
      obtain ⟨first, hplaces, harrived⟩ := hbuf.numbered
      have htold : .headersRead s.headersEnd ∈ requestDeeds (s.log ++ [.headersRead s.headersEnd]) := by
        rw [requestDeeds_quiet hquiet]
        exact List.mem_append_right _ (List.mem_singleton_self _)
      have hend : s.headersEnd ≤ s.arrived := Nat.sub_le _ _
      refine ⟨headKept_quiet hlaw hquiet, .front (hread hl) ⟨rfl, hwaits, ⟨_, htold, hend⟩, hbuf.begins, ?_⟩ hactive ?_⟩
      · exact (congrArg List.length hplaces).trans List.length_range'
      · exact fun i hi hhead => absurd (hhead _ htold) (Nat.not_lt.mpr (hbuf.headersEnd_le i hi))
  | openFile hrev' => exact absurd hrev' hlate
  | forward hl hrev' => exact absurd hrev' hlate
  | err hlog => exact HeadPhase.of_err hlaw hlog
  | rewind hrev' => exact absurd hrev' hbody
  | answer hrev' => exact absurd hrev' hbody
  | passAll o xs b hl => exact absurd (hpass _ _ hl) hw
  | pass o ret xs b hl => exact absurd (hpass _ _ hl) hw
  | upstreamEof hfd hrev' hup hlog =>
      rw [hlog]
      exact ⟨hlaw, .alone (.inl (hrev'.trans hrev)) hup⟩
  | done calls h => exact HeadPhase.of_done (s := { s with r := { s.r with responseDone := true } }) hlaw h
  | closed hclosed hlog => exact HeadPhase.of_closed hlaw hclosed hlog

theorem HeadRead.same (h : HeadRead s) (hsame : BufferSame s s') : HeadRead s' where
  rev := hsame.handler.trans h.rev
  waits := hsame.done.trans h.waits
  ends := by
    obtain ⟨ds, hds⟩ := hsame.deeds
    rw [hds, hsame.arrived]
    obtain ⟨e, he, hle⟩ := h.ends
    exact ⟨e, List.mem_append_left ds he, hle⟩
  begins := by
    rw [hsame.recvBuffer]
    exact h.begins
  sized := by
    rw [hsame.places, hsame.recvBuffer]
    exact h.sized

theorem HeadRead.recv (h : HeadRead s) (o : Recv) : HeadRead (s.recvClient o).2 := by
  have hbytes := bufferRecv_bytes s.recvBuffer o
  obtain ⟨e, he, hle⟩ := h.ends
  refine ⟨h.rev, h.waits, ⟨e, he, hle.trans (Nat.le_add_right _ _)⟩, ?_, ?_⟩
  · change (bufferRecv s.recvBuffer o).2.2.begin ≤ (bufferRecv s.recvBuffer o).2.2.bytes.length
    rw [hbytes, List.length_append]
    exact h.begins.trans (Nat.le_add_right _ _)
  · change (s.places ++ List.range' s.arrived (bufferRecv s.recvBuffer o).2.1.length).length =
      (bufferRecv s.recvBuffer o).2.2.bytes.length
    rw [hbytes, List.length_append, List.length_append, List.length_range', h.sized]

/-- What is received when the header has been read is behind its end. -/
theorem HeadRead.received (h : HeadRead s) {n i : Nat} (hi : i ∈ List.range' s.arrived n) :
    ¬InHead (requestDeeds s.log) i := by
  intro hhead
  obtain ⟨e, he, hle⟩ := h.ends
  have hbefore := hhead e he
  have harrived := (List.mem_range'_1.mp hi).1
  omega

/-- `request_handle_body` drops what is behind `begin`, and sets it back. -/
theorem HeadPhase.of_rewind (h : HeadRead s) (hlaw : Lawful HeadKept s.log)
    (hbehind : ∀ i ∈ s.places.drop s.recvBuffer.begin, InHead (requestDeeds s.log) i → PassedOn (requestDeeds s.log) i)
    (hs' : s' = (s.onRev EventS.delEvent).rewindRecv) : Lawful HeadKept s'.log ∧ HeadPhase w s' := by
  subst hs'
  have hlog : requestDeeds (s.log ++ [.discard (s.places.drop s.recvBuffer.begin)]) =
      requestDeeds s.log ++ [.discard (s.places.drop s.recvBuffer.begin)] :=
    requestDeeds_append fun d hd => by rw [List.mem_singleton.mp hd]; rfl
  constructor
  · refine lawful_concat.mpr ⟨hlaw, fun _ places hplaces i hi => ?_⟩
    cases hplaces
    exact hbehind i hi
  · refine .passed ⟨(EventS.delEvent_handler _).trans h.rev, h.waits, ?_, Nat.zero_le _, ?_⟩
      (fun i hi => absurd hi List.not_mem_nil) fun hactive => ?_
    · obtain ⟨e, he, hle⟩ := h.ends
      refine ⟨e, ?_, hle⟩
      exact hlog ▸ List.mem_append_left _ he
    · change (s.places.take s.recvBuffer.begin).length = (s.recvBuffer.bytes.take s.recvBuffer.begin).length
      rw [List.length_take, List.length_take, h.sized]
    · change s.c.rev.delEvent.active = true at hactive
      rw [EventS.delEvent_active] at hactive
      contradiction

theorem HeadPhase.move_front (hw : w = .reading) (h : HeadRead s) (hactive : s.c.rev.active = true)
    (hbehind : ∀ i ∈ s.places.drop s.recvBuffer.begin, ¬InHead (requestDeeds s.log) i) (hlaw : Lawful HeadKept s.log)
    (hpass : ∀ ret xs, l = .pass ret xs → w = .passing) (hmove : BufferMove cfg l s s') :
    Lawful HeadKept s'.log ∧ HeadPhase w s' := by
  have hline : s.LineRead := .inr h.rev
  have hlate : s.c.rev.handler ≠ some .ngxHttpProcessRequestLine := fun hrev => hline.not_starts (.inr hrev)
  have hread : s.c.rev.handler ≠ some .httpParseHeaders := fun hrev => nomatch h.rev.symm.trans hrev
  have hnever : ∀ ret xs, l ≠ .pass ret xs := fun ret xs hl => nomatch hw.symm.trans (hpass ret xs hl)
  cases hmove with
  | same hsame =>
      refine ⟨hsame.lawful hlaw, .front hw (h.same hsame) (hsame.active.trans hactive) fun i hi hhead => ?_⟩
      obtain ⟨ds, hds⟩ := hsame.deeds
      rw [hsame.places, hsame.recvBuffer] at hi
      rw [hds] at hhead
      exact hbehind i hi hhead.of_append
  | recv o hl hreads hs' =>
      subst hs'
      refine ⟨hlaw, .front hw (h.recv o) hactive fun i hi => ?_⟩
      have hle : s.recvBuffer.begin ≤ s.places.length := h.sized.symm ▸ h.begins
      rw [recvClient_begin] at hi
      change i ∈ (s.places ++ List.range' s.arrived _).drop s.recvBuffer.begin at hi
      rw [List.drop_append_of_le_length hle] at hi
      cases List.mem_append.mp hi with
      | inl hold => exact hbehind i hold
      | inr hnew => exact h.received hnew
  | parse r b m hrev => exact absurd hrev (not_or.mpr ⟨hlate, hread⟩)
  | lineBegins hinit => exact absurd (.inl hinit) hline.not_starts
  | headersRead hl hrev => exact absurd hrev hread
  | openFile hrev => exact absurd hrev hlate
  | forward hl hrev => exact absurd hrev hlate
  | err hlog => exact HeadPhase.of_err hlaw hlog
  | rewind hrev hreads hup hs' =>
      exact HeadPhase.of_rewind h hlaw (fun i hi hhead => absurd hhead (hbehind i hi)) hs'
  | answer hrev hrev' hup hup' hlog =>
      obtain ⟨ds, hlog, hquiet⟩ := hlog
      rw [hlog]
      exact ⟨headKept_quiet hlaw hquiet, .alone (.inr hrev') hup'⟩
  | passAll o xs b hl => exact absurd hl (hnever _ _)
  | pass o ret xs b hl => exact absurd hl (hnever _ _)
  | upstreamEof hfd hrev hup hlog =>
      rw [hlog]
      exact ⟨hlaw, .alone (.inr (hrev.trans h.rev)) hup⟩
  | done calls hdone => exact HeadPhase.of_done (s := { s with r := { s.r with responseDone := true } }) hlaw hdone
  | closed hclosed hlog => exact HeadPhase.of_closed hlaw hclosed hlog

theorem HeadPhase.move_passed (h : HeadRead s)
    (hfront : ∀ i ∈ s.places.take s.recvBuffer.begin, InHead (requestDeeds s.log) i → PassedOn (requestDeeds s.log) i)
    (hall : s.c.rev.active = true → ∀ i ∈ s.places, InHead (requestDeeds s.log) i → PassedOn (requestDeeds s.log) i)
    (hlaw : Lawful HeadKept s.log) (hmove : BufferMove cfg l s s') : Lawful HeadKept s'.log ∧ HeadPhase w s' := by
  have hline : s.LineRead := .inr h.rev
  have hlate : s.c.rev.handler ≠ some .ngxHttpProcessRequestLine := fun hrev => hline.not_starts (.inr hrev)
  have hread : s.c.rev.handler ≠ some .httpParseHeaders := fun hrev => nomatch h.rev.symm.trans hrev
  have hle : s.recvBuffer.begin ≤ s.places.length := h.sized.symm ▸ h.begins
  cases hmove with
  | same hsame =>
      obtain ⟨ds, hds⟩ := hsame.deeds
      refine ⟨hsame.lawful hlaw, .passed (h.same hsame) ?_ ?_⟩
      · rw [hsame.places, hsame.recvBuffer, hds]
        exact fun i hi hhead => (hfront i hi hhead.of_append).append ds
      · rw [hsame.places, hsame.active, hds]
        exact fun hactive i hi hhead => (hall hactive i hi hhead.of_append).append ds
  | recv o hl hreads hs' =>
      subst hs'
      refine ⟨hlaw, .passed (h.recv o) (fun i hi => ?_) fun hactive i hi => ?_⟩
      · rw [recvClient_begin] at hi
        change i ∈ (s.places ++ List.range' s.arrived _).take s.recvBuffer.begin at hi
        rw [List.take_append_of_le_length hle] at hi
        exact hfront i hi
      · cases List.mem_append.mp hi with
        | inl hold => exact hall hactive i hold
        | inr hnew => exact fun hhead => absurd hhead (h.received hnew)
  | parse r b m hrev => exact absurd hrev (not_or.mpr ⟨hlate, hread⟩)
  | lineBegins hinit => exact absurd (.inl hinit) hline.not_starts
  | headersRead hl hrev => exact absurd hrev hread
  | openFile hrev => exact absurd hrev hlate
  | forward hl hrev => exact absurd hrev hlate
  | err hlog => exact HeadPhase.of_err hlaw hlog
  | rewind hrev hreads hup hs' =>
      -- the client is read again, so that all of it has been passed on
      exact HeadPhase.of_rewind h hlaw
        (fun i hi => hall (hreads.active h.waits) i (List.mem_of_mem_drop hi)) hs'
  | answer hrev hrev' hup hup' hlog =>
      obtain ⟨ds, hlog, hquiet⟩ := hlog
      rw [hlog]
      exact ⟨headKept_quiet hlaw hquiet, .alone (.inr hrev') hup'⟩
  | passAll o xs b hl hfd hb hs' =>
      subst hs'
      have hxs : xs = s.recvBuffer.pending := (bufferSend_length hb).elim And.right fun hpart => absurd rfl hpart.1
      have hnext : s.nextPlaces xs.length = s.places.drop s.recvBuffer.begin := by
        refine List.take_of_length_le ?_
        rw [hxs, Buffer.pending, List.length_drop, List.length_drop, h.sized]
      have hsent : ∀ i ∈ s.places, InHead (requestDeeds s.log) i →
          PassedOn (requestDeeds s.log ++ [.toUpstream (s.nextPlaces xs.length) xs]) i := by
        intro i hi hhead
        rw [← List.take_append_drop s.recvBuffer.begin s.places] at hi
        cases List.mem_append.mp hi with
        | inl hold => exact (hfront i hold hhead).append _
        | inr hnew =>
            rw [hnext]
            exact ⟨_, xs, List.mem_append_right _ (List.mem_singleton_self _), hnew⟩
      have hdeeds : requestDeeds (s.log ++ [.toUpstream (s.nextPlaces xs.length) xs]) =
          requestDeeds s.log ++ [.toUpstream (s.nextPlaces xs.length) xs] :=
        requestDeeds_append fun d hd => by rw [List.mem_singleton.mp hd]; rfl
      have hsentLaw : Lawful HeadKept (s.log ++ [.toUpstream (s.nextPlaces xs.length) xs]) :=
        headKept_quiet hlaw fun d hd => by rw [List.mem_singleton.mp hd]; rfl
      constructor
      · refine lawful_concat.mpr ⟨hsentLaw, fun _ places hplaces i hi hhead => ?_⟩
        cases hplaces
        change InHead (requestDeeds (s.log ++ _)) i at hhead
        change PassedOn (requestDeeds (s.log ++ _)) i
        rw [hdeeds] at hhead ⊢
        exact hsent i hi hhead.of_append
      · refine .passed ⟨(EventS.addEvent_handler _).trans h.rev, h.waits, ?_, le_refl 0, rfl⟩
          (fun i hi => absurd hi List.not_mem_nil) fun _ i hi => absurd hi List.not_mem_nil
        obtain ⟨e, he, hend⟩ := h.ends
        refine ⟨e, ?_, hend⟩
        change _ ∈ requestDeeds (s.log ++ [.toUpstream (s.nextPlaces xs.length) xs] ++ [.discard s.places])
        rw [requestDeeds_append fun d hd => by rw [List.mem_singleton.mp hd]; rfl, hdeeds]
        exact List.mem_append_left _ (List.mem_append_left _ he)
  | pass o ret xs b hl hfd hb hret hs' =>
      subst hs'
      have hbuf : b = { s.recvBuffer with begin := s.recvBuffer.begin + xs.length } :=
        (bufferSend_length hb).elim (fun hwhole => absurd hwhole.1 hret) And.right
      have hquiet : ∀ d ∈ [Deed.toUpstream (s.nextPlaces xs.length) xs], d.drops = false := fun d hd => by
        rw [List.mem_singleton.mp hd]
        rfl
      have hdeeds : requestDeeds (s.log ++ _) = requestDeeds s.log ++ _ := requestDeeds_quiet hquiet
      refine ⟨headKept_quiet hlaw hquiet, .passed ⟨h.rev, h.waits, ?_, (bufferSend_pending hb).2, ?_⟩ ?_ ?_⟩
      · obtain ⟨e, he, hend⟩ := h.ends
        refine ⟨e, ?_, hend⟩
        exact hdeeds ▸ List.mem_append_left _ he
      · change s.places.length = b.bytes.length
        rw [hbuf, h.sized]
      · intro i hi hhead
        change i ∈ s.places.take b.begin at hi
        change InHead (requestDeeds (s.log ++ _)) i at hhead
        change PassedOn (requestDeeds (s.log ++ _)) i
        rw [hdeeds] at hhead ⊢
        rw [hbuf, List.take_add] at hi
        cases List.mem_append.mp hi with
        | inl hold => exact (hfront i hold hhead.of_append).append _
        | inr hnew => exact ⟨_, xs, List.mem_append_right _ (List.mem_singleton_self _), hnew⟩
      · intro hactive i hi hhead
        change InHead (requestDeeds (s.log ++ _)) i at hhead
        change PassedOn (requestDeeds (s.log ++ _)) i
        rw [hdeeds] at hhead ⊢
        exact (hall hactive i hi hhead.of_append).append _
  | upstreamEof hfd hrev hup hlog =>
      rw [hlog]
      exact ⟨hlaw, .alone (.inr (hrev.trans h.rev)) hup⟩
  | done calls hdone => exact HeadPhase.of_done (s := { s with r := { s.r with responseDone := true } }) hlaw hdone
  | closed hclosed hlog => exact HeadPhase.of_closed hlaw hclosed hlog

/-- Without a back end nothing leaves the buffer. -/
theorem HeadPhase.move_alone (hline : s.LineRead) (hup : s.r.upstream = none) (hlaw : Lawful HeadKept s.log)
    (hs : Handled s) (hmove : BufferMove cfg l s s') : Lawful HeadKept s'.log ∧ HeadPhase w s' := by
  have hlate : s.c.rev.handler ≠ some .ngxHttpProcessRequestLine := fun hrev => hline.not_starts (.inr hrev)
  have hfd : ¬0 < s.up.fd := fun hfd => (hs.attached hfd).1 hup
  cases hmove with
  | same h =>
      refine ⟨h.lawful hlaw, .alone ?_ (h.upstream.trans hup)⟩
      unfold Exchange.LineRead
      rw [h.handler]
      exact hline
  | recv o hl hreads hs' =>
      subst hs'
      exact ⟨hlaw, .alone hline hup⟩
  | parse r b m hrev hbuf hup' hdone hs' =>
      subst hs'
      exact ⟨hlaw, .alone hline (hup'.trans hup)⟩
  | lineBegins hinit => exact absurd (.inl hinit) hline.not_starts
  | headersRead hl hrev hs' =>
      subst hs'
      refine ⟨headKept_quiet hlaw fun d hd => ?_, .alone (.inr rfl) hup⟩
      rw [List.mem_singleton.mp hd]
      rfl
  | openFile hrev => exact absurd hrev hlate
  | forward hl hrev => exact absurd hrev hlate
  | err hlog => exact HeadPhase.of_err hlaw hlog
  | rewind hrev hreads hattached => exact absurd hup hattached
  | answer hrev hrev' _ hup' hlog =>
      obtain ⟨ds, hlog, hquiet⟩ := hlog
      rw [hlog]
      exact ⟨headKept_quiet hlaw hquiet, .alone (.inr hrev') hup'⟩
  | passAll o xs b hl hfd' => exact absurd hfd' hfd
  | pass o ret xs b hl hfd' => exact absurd hfd' hfd
  | upstreamEof hfd' => exact absurd hfd' hfd
  | done calls hdone => exact HeadPhase.of_done (s := { s with r := { s.r with responseDone := true } }) hlaw hdone
  | closed hclosed hlog => exact HeadPhase.of_closed hlaw hclosed hlog

/-- Of a request that is settled any byte may be dropped. -/
theorem HeadPhase.move_settled (h : ∃ d ∈ requestDeeds s.log, d.settlesRequest = true) (hlaw : Lawful HeadKept s.log)
    (hmove : BufferMove cfg l s s') : Lawful HeadKept s'.log ∧ HeadPhase w s' := by
  have hquiet : (∃ ds, s'.log = s.log ++ ds ∧ ∀ d ∈ ds, d.clears = false) →
      Lawful HeadKept s'.log ∧ HeadPhase w s' := by
    intro hlog
    obtain ⟨ds, hlog, hds⟩ := hlog
    obtain ⟨d, hd, hset⟩ := h
    rw [hlog]
    refine ⟨headKept_settled hlaw ⟨d, hd, hset⟩ hds, .settled ⟨d, ?_, hset⟩⟩
    rw [hlog, requestDeeds_append hds]
    exact List.mem_append_left _ hd
  have hdrops : (∃ ds, s'.log = s.log ++ ds ∧ ∀ d ∈ ds, d.drops = false) →
      Lawful HeadKept s'.log ∧ HeadPhase w s' := fun hlog => by
    obtain ⟨ds, hlog, hds⟩ := hlog
    exact hquiet ⟨ds, hlog, fun d hd => clears_of_quiet (hds d hd)⟩
  cases hmove with
  | same hsame => exact hdrops hsame.log
  | openFile hrev hline hup hlog => exact hdrops (quiet_of_log hlog)
  | forward hl hrev hrev' hactive hdone hbuf hplaces hlog => exact hdrops hlog
  | err hlog => exact HeadPhase.of_err hlaw hlog
  | answer hrev hrev' hup hup' hlog => exact hdrops hlog
  | upstreamEof hfd hrev hup hlog => exact hdrops (quiet_of_log hlog)
  | done calls hdone => exact HeadPhase.of_done (s := { s with r := { s.r with responseDone := true } }) hlaw hdone
  | closed hclosed hlog => exact HeadPhase.of_closed hlaw hclosed hlog
  | recv o hl hreads hs' | parse r b m hrev hbuf hup hdone hs' | lineBegins hrev hs' =>
      subst hs'
      exact hdrops (quiet_of_log rfl)
  | headersRead hl hrev hs' =>
      subst hs'
      exact hdrops (quiet_of_one rfl rfl)
  | pass o ret xs b hl hfd hb hret hs' =>
      subst hs'
      exact hdrops (quiet_of_one rfl rfl)
  | rewind hrev hreads hup hs' =>
      subst hs'
      exact hquiet ⟨[_], rfl, fun d hd => by rw [List.mem_singleton.mp hd]; rfl⟩
  | passAll o xs b hl hfd hb hs' =>
      subst hs'
      refine hquiet ⟨[_, _], List.append_assoc _ _ _, fun d hd => ?_⟩
      cases hd with
      | head => rfl
      | tail _ hd =>
          rw [List.mem_singleton.mp hd]
          rfl

theorem HeadPhase.move (h : HeadPhase w s) (hlaw : Lawful HeadKept s.log) (hopen : s.closed = false) (hs : Handled s)
    (hread : l = .read → w = .reading) (hpass : ∀ ret xs, l = .pass ret xs → w = .passing) (hmove : Move cfg l s s') :
    Lawful HeadKept s'.log ∧ HeadPhase w s' := by
  cases h with
  | line hstarts hactive hbuf => exact move_line hstarts hactive hbuf hlaw hs hread hmove.buffer
  | header hw hrev hactive hwaits hbuf => exact move_header hw hrev hactive hwaits hbuf hlaw hread hpass hmove.buffer
  | front hw h hactive hbehind => exact move_front hw h hactive hbehind hlaw hpass hmove.buffer
  | passed h hfront hall => exact move_passed h hfront hall hlaw hmove.buffer
  | alone hline hup => exact move_alone hline hup hlaw hs hmove.buffer
  | settled h => exact move_settled h hlaw hmove.buffer
  | closed h =>
      rw [h] at hopen
      contradiction

/-! ## turns -/

/-- When a turn is over the client is not read on behind the header before the
buffer has been set back. -/
def SetBack (s : Exchange) : Prop :=
  s.c.rev.handler = some .requestHandleBody → s.closed = true ∨ s.c.rev.active = false

theorem setBack_close (calls : Calls) (s : Exchange) : SetBack (s.httpCloseRequest calls) := by
  intro _
  rw [httpCloseRequest_eq]
  exact .inl rfl

theorem setBack_err {status : Int} (h : s.constructErr cfg status = .ok s') : SetBack s' := by
  intro _
  rw [(constructErr_answered h).rev]
  exact .inr (EventS.delEvent_active _)

theorem requestHandleBody_setBack {calls : Calls} (hbody : s.contentLength ≤ 0)
    (h : s.requestHandleBody cfg calls = .ok s') : SetBack s' := by
  unfold Exchange.requestHandleBody at h
  dsimp only at h
  split at h
  · exact setBack_err h
  · have hnone : ((s.tell (.ran .requestHandleBody)).recvClient calls.recvBody).2.contentLength ≤ 0 := hbody
    generalize (s.tell (.ran .requestHandleBody)).recvClient calls.recvBody = ns at h hnone
    obtain ⟨n, s₁⟩ := ns
    dsimp only at h hnone
    split at h
    · cases h
      exact setBack_close calls s₁
    · rw [parseRequestBodyIdentity_none hnone] at h
      dsimp only at h
      have hdeleted : s₁.c.rev.delEvent.active = false := EventS.delEvent_active _
      split at h
      · split at h
        · cases h
          exact fun _ => .inr hdeleted
        · obtain ⟨s₂, hs₂, h⟩ := bind_ok h
          obtain ⟨b, -, hs₂⟩ := constructResponse_eq hs₂
          cases h
          rw [hs₂]
          exact fun _ => .inr hdeleted
      · split at h
        · cases h
          exact fun _ => .inr hdeleted
        · cases h
          exact fun _ => .inr hdeleted

theorem httpParseHeaders_setBack {calls : Calls} (hbody : s.contentLength ≤ 0)
    (hrev : s.c.rev.handler = some .httpParseHeaders) (h : s.httpParseHeaders cfg calls = .ok s') : SetBack s' := by
  unfold Exchange.httpParseHeaders at h
  dsimp only at h
  split at h
  · exact setBack_err h
  · split at h
    · cases h
      exact setBack_close calls _
    · obtain ⟨d, hd, h⟩ := bind_ok h
      have hwaits : ∀ {s₁ : Exchange}, s₁.c.rev.handler = some .httpParseHeaders → SetBack s₁ :=
        fun hrev' hbody' => nomatch hrev'.symm.trans hbody'
      cases hloop : d.status with
      | waiting =>
          rw [hloop] at h
          dsimp only at h
          split at h
          · cases h
            exact hwaits hrev
          · cases h
            exact hwaits ((EventS.addTimer_handler _ _ _).trans hrev)
      | answered | closed =>
          rw [hloop] at h
          cases h
          exact setBack_close calls _
      | body =>
          rw [hloop] at h
          dsimp only at h
          split at h
          · obtain ⟨s₂, hs₂, h⟩ := bind_ok h
            refine requestHandleBody_setBack ?_ h
            change s₂.contentLength ≤ 0
            rw [(constructErr_answered hs₂).body]
            exact hbody
          · obtain ⟨s₂, hs₂, h⟩ := bind_ok h
            cases hs₂
            refine requestHandleBody_setBack ?_ h
            exact hbody

theorem ngxHttpProcessRequestLine_setBack {calls : Calls} (hreads : s.Reads) (hbody : s.contentLength ≤ 0)
    (hwaits : s.r.responseDone = false) (hrev : s.c.rev.handler = some .ngxHttpProcessRequestLine)
    (hcur : s.r.curUpstream = none) (h : s.ngxHttpProcessRequestLine cfg calls = .ok s') : SetBack s' := by
  unfold Exchange.ngxHttpProcessRequestLine at h
  dsimp only at h
  split at h
  · exact setBack_err h
  · have hr : ((s.tell (.ran .ngxHttpProcessRequestLine)).recvClient calls.recvLine).2.r = s.r := rfl
    have hc : ((s.tell (.ran .ngxHttpProcessRequestLine)).recvClient calls.recvLine).2.c = s.c := rfl
    have hnone : ((s.tell (.ran .ngxHttpProcessRequestLine)).recvClient calls.recvLine).2.contentLength ≤ 0 :=
      hbody
    generalize ((s.tell (.ran .ngxHttpProcessRequestLine)).recvClient calls.recvLine).2 = s₁ at h hr hc hnone
    rw [← hr] at hcur hwaits
    rw [← hc] at hrev
    have hready : s₁.c.rev.fetched = false := by
      rw [hc]
      exact hreads.ready
    split at h
    · cases h
      exact setBack_close calls s₁
    · cases hparse : parseRequestLine s₁.r s₁.recvBuffer with
      | mk ret rest =>
          obtain ⟨r, b⟩ := rest
          rw [hparse] at h
          cases ret with
          | ok =>
              obtain ⟨s₂, hs₂, h⟩ := bind_ok h
              have hline : ({ r with state := .hdBegin } : HttpRequest) =
                  s₁.r.withLine { r with state := .hdBegin } := by
                rw [parseRequestLine_frame hparse]
                rfl
              obtain ⟨-, hrev₂, -, hbody₂, -⟩ := requestProcessUri_moves (A := fun _ => True) trivial trivial hrev hready
                hwaits hline (parseRequestLine_parsed hparse) hcur hs₂
              exact httpParseHeaders_setBack (hbody₂.trans_le hnone) hrev₂ h
          | again =>
              dsimp only at h
              split at h
              · contradiction
              · cases h
                intro hlate
                exact nomatch (hrev.symm.trans (EventS.addTimer_handler _ _ _).symm).trans hlate
          | error | invalidRequest => exact setBack_err h

theorem httpInitRequest_setBack {calls : Calls} (hreads : s.Reads) (hbody : s.contentLength ≤ 0)
    (hwaits : s.r.responseDone = false) (hcur : s.r.curUpstream = none)
    (h : s.httpInitRequest cfg calls = .ok s') : SetBack s' := by
  unfold Exchange.httpInitRequest at h
  dsimp only at h
  split at h
  · cases h
    exact fun _ => .inl rfl
  · refine ngxHttpProcessRequestLine_setBack ?_ ?_ ?_ rfl ?_ h
    · exact ⟨hreads.ready, hreads.active⟩
    · exact hbody
    · exact hwaits
    · exact hcur

/-- Every handler of the client's read event sees to it. -/
theorem reads_setBack {t : Turn} {h : EventHandler} {s₁ : Exchange} (hs : InOrder s) (hruns : s.Runs t h s₁)
    (hclient : h.ReadsClient) (hcall : s₁.call cfg t.calls h = .ok s') : SetBack s' := by
  have hmark : Move cfg .quiet s s₁ := hruns.move
  have hs₁ := (hs.move hruns.open hmark).handled
  have hf := hs.flagged hruns.open
  obtain ⟨e, hdue⟩ := hruns.due
  have hhandler := hdue.handler
  cases e with
  | rev =>
      have hreads := hdue.reads hf
      have hsame : s.c.rev.handler = some h := (hdue.marked .rev).handler.symm.trans hhandler
      have hwaits : s.Starts → s₁.r.responseDone = false := fun hstarts => by
        rw [hruns.request]
        exact hdue.starts hf hstarts
      rcases hclient with rfl | rfl | rfl | rfl
      · exact httpInitRequest_setBack hreads hs₁.body (hwaits (.inl hsame)) (hs₁.start (.inl hhandler)).1 hcall
      · exact ngxHttpProcessRequestLine_setBack hreads hs₁.body (hwaits (.inr hsame)) hhandler
          (hs₁.start (.inr hhandler)).1 hcall
      · exact httpParseHeaders_setBack hs₁.body hhandler hcall
      · exact requestHandleBody_setBack hs₁.body hcall
  | wev =>
      rcases hs₁.wev h hhandler with rfl | rfl
      · simp [EventHandler.ReadsClient] at hclient
      · simp [EventHandler.ReadsClient] at hclient
  | upRev =>
      obtain rfl := hs₁.upRev h hhandler
      simp [EventHandler.ReadsClient] at hclient
  | upWev =>
      rcases hs₁.upWev h hhandler with rfl | rfl
      · simp [EventHandler.ReadsClient] at hclient
      · simp [EventHandler.ReadsClient] at hclient

/-- A turn begins. -/
theorem HeadPhase.begins (h : HeadPhase .other s) (hw : w = .passing → s.c.rev.handler ≠ some .httpParseHeaders) :
    HeadPhase w s := by
  cases h with
  | line hstarts hactive hbuf => exact .line hstarts hactive hbuf
  | header _ hrev hactive hwaits hbuf => exact .header (fun heq => hw heq hrev) hrev hactive hwaits hbuf
  | front hreading => contradiction
  | passed hread hfront hall => exact .passed hread hfront hall
  | alone hline hup => exact .alone hline hup
  | settled h => exact .settled h
  | closed h => exact .closed h

/-- A turn is over. -/
theorem HeadPhase.ends (h : HeadPhase w s) (hset : w = .reading → SetBack s) : HeadPhase .other s := by
  cases h with
  | line hstarts hactive hbuf => exact .line hstarts hactive hbuf
  | header _ hrev hactive hwaits hbuf => exact .header (by decide) hrev hactive hwaits hbuf
  | front hw hread hactive _ =>
      cases hset hw hread.rev with
      | inl hclosed => exact .closed hclosed
      | inr hdeleted => exact nomatch hactive.symm.trans hdeleted
  | passed hread hfront hall => exact .passed hread hfront hall
  | alone hline hup => exact .alone hline hup
  | settled h => exact .settled h
  | closed h => exact .closed h

/-- What the moves of a turn keep. -/
theorem HeadPhase.turn {t : Turn} (hs : InOrder s) (hlaw : Lawful HeadKept s.log) (h : HeadPhase w s)
    (hread : s.Allows cfg t .read → w = .reading)
    (hpass : ∀ ret xs, s.Allows cfg t (.pass ret xs) → w = .passing) (hstep : s.step cfg t = .ok s') :
    Lawful HeadKept s'.log ∧ HeadPhase w s' := by
  refine (step_induct (I := fun s => Lawful HeadKept s.log ∧ HeadPhase w s) hs hstep ?_ ⟨hlaw, h⟩).2
  intro l s₁ s₂ hopen horder hl hmove hboth
  refine hboth.2.move hboth.1 hopen horder.handled (fun heq => hread ?_) (fun ret xs heq => hpass ret xs ?_) hmove
  · rwa [heq] at hl
  · rwa [heq] at hl

theorem HeadPhase.step {t : Turn} (hs : InOrder s) (hlaw : Lawful HeadKept s.log) (h : HeadPhase .other s)
    (hlate : s.PassesLate t) (hstep : s.step cfg t = .ok s') : Lawful HeadKept s'.log ∧ HeadPhase .other s' := by
  cases step_cases hstep with
  | inl hmark =>
      cases hclosed : s.closed with
      | true =>
          rw [step_closed hclosed hstep]
          exact ⟨hlaw, h⟩
      | false => exact h.move (l := .quiet) hlaw hclosed hs.handled nofun nofun hmark
  | inr hcalled =>
      obtain ⟨hd, s₁, hruns, hcall⟩ := hcalled
      by_cases hclient : hd.ReadsClient
      · have hturn := (h.begins (w := .reading) nofun).turn hs hlaw (fun _ => rfl) (fun ret xs hpass => by
          obtain ⟨s₂, hruns', -⟩ := hpass
          rw [← (hruns.unique hruns').1] at hclient
          simp [EventHandler.ReadsClient] at hclient) hstep
        exact hturn.imp_right fun hphase => hphase.ends fun _ => reads_setBack hs hruns hclient hcall
      · have hread : s.Allows cfg t .read → False := fun hread => by
          obtain ⟨h', s₂, hruns', hclient'⟩ := hread
          rw [(hruns.unique hruns').1] at hclient'
          exact hclient hclient'
        by_cases hpasses : hd = .httpProxyPass ∧ 0 < s₁.up.fd ∧ s₁.up.wev.timedout = false
        · obtain ⟨rfl, hfd, htime⟩ := hpasses
          obtain ⟨e, hdue⟩ := hruns.due
          have hphase : HeadPhase .passing s := h.begins fun _ hrev =>
            hlate s₁ hruns hfd htime ((hdue.marked .rev).handler.trans hrev)
          have hturn := hphase.turn hs hlaw (fun hl => (hread hl).elim) (fun _ _ _ => rfl) hstep
          exact hturn.imp_right fun hphase => hphase.ends nofun
        · refine h.turn hs hlaw (fun hl => (hread hl).elim) (fun ret xs hpass => ?_) hstep
          obtain ⟨s₂, hruns', hfd, htime, -⟩ := hpass
          obtain ⟨hsame, rfl⟩ := hruns.unique hruns'
          exact absurd ⟨hsame.symm, hfd, htime⟩ hpasses

end

/-! ## runs -/

theorem headPhase_accepted (cfg : Config) (now : BitVec 32) (slot : Slot) (fd : Int) (ip : BitVec 32) :
    HeadPhase .other (.accepted cfg now slot fd ip) := by
  refine .line (.inl ?_) ?_ ⟨⟨0, rfl, rfl⟩, le_refl 0⟩
  · exact (EventS.addEvent_handler _).trans (EventS.addTimer_handler _ _ _)
  · exact congrArg EventS.active (EventS.addEvent_eq _)

/-- **The head of a request**: in every run of a connection, if `http_proxy_pass`
only sends when the header has been read, no byte of the request line or of the
header leaves the receive buffer before it has gone to the back end, as long as the
request is not settled. -/
theorem requestHead_kept {cfg : Config} {ts : List Turn} {now : BitVec 32} {slot : Slot} {fd : Int} {ip : BitVec 32}
    {s' : Exchange} (hlate : Exchange.Always cfg Exchange.PassesLate ts (.accepted cfg now slot fd ip))
    (hrun : Exchange.run cfg ts (.accepted cfg now slot fd ip) = .ok s') : Lawful HeadKept s'.log := by
  have hall := Exchange.run_induction (P := Exchange.PassesLate)
    (I := fun s => InOrder s ∧ Lawful HeadKept s.log ∧ HeadPhase .other s) ?_ hlate
    ⟨inOrder_accepted cfg now slot fd ip, lawful_nil, headPhase_accepted cfg now slot fd ip⟩ hrun
  · exact hall.2.1
  · intro s t s' hs hlate hstep
    have hkept := hs.2.2.step hs.1 hs.2.1 hlate hstep
    exact ⟨(step_induct (I := fun _ => True) hs.1 hstep (fun _ _ _ _ _ _ _ _ => trivial) trivial).1, hkept⟩

/-- A turn that is no write event of the back end, or that comes when the header has
been read. -/
def Turn.readsOrLate (s : Exchange) (t : Turn) : Bool :=
  decide (t.stimulus = .poll ∨ t.stimulus = .ready .rev ∨ s.c.rev.handler ≠ some .httpParseHeaders)

theorem passesLate_of_readsOrLate (s : Exchange) (t : Turn) (h : t.readsOrLate s = true) : s.PassesLate t := by
  intro s₁ hruns _ _ hrev
  obtain ⟨e, hdue⟩ := hruns.due
  have hsame : s.c.rev.handler = some .httpParseHeaders := (hdue.marked .rev).handler.symm.trans hrev
  rcases of_decide_eq_true h with hpoll | hready | hlate
  · cases hruns with
    | ready _ ht => exact nomatch hpoll.symm.trans ht
    | expire _ ht => exact nomatch hpoll.symm.trans ht
  · cases hruns with
    | ready _ ht _ hhandler =>
        cases hready.symm.trans ht
        exact nomatch hsame.symm.trans hhandler
    | expire _ ht => exact nomatch hready.symm.trans ht
  · exact hlate hsame

/-- One server, to which the connects are in progress. -/
def slowServer : Calls :=
  { oneServer with outside := { oneServer.outside with conn := fun _ => .again } }

/-- A request that comes in two pieces, and then the connect is through. -/
def twoPieces : List Turn :=
  [⟨.poll, slowServer⟩, ⟨.ready .rev, { slowServer with recvLine := .bytes ((getB '1').take 17) }⟩,
    ⟨.poll, slowServer⟩, ⟨.ready .rev, { slowServer with recvHeaders := .bytes ((getB '1').drop 17) }⟩,
    ⟨.poll, slowServer⟩, ⟨.ready .upWev, slowServer⟩, ⟨.poll, slowServer⟩, ⟨.ready .upWev, slowServer⟩]

theorem requestHead_kept_twoPieces : Exchange.Always forwardsB Exchange.PassesLate twoPieces (.accepted forwardsB 0 0 5 0) ∧
    ∃ s', Exchange.run forwardsB twoPieces (.accepted forwardsB 0 0 5 0) = .ok s' ∧
      .toUpstream (List.range 19) (getB '1') ∈ s'.log ∧ Lawful HeadKept s'.log := by
  have hlate : Exchange.Always forwardsB Exchange.PassesLate twoPieces (.accepted forwardsB 0 0 5 0) :=
    Exchange.always_of_alwaysTest passesLate_of_readsOrLate (by decide +kernel)
  have htest : Exchange.runTest forwardsB (fun s' => decide (.toUpstream (List.range 19) (getB '1') ∈ s'.log)) twoPieces
      (.accepted forwardsB 0 0 5 0) = true := by decide +kernel
  obtain ⟨s', hrun, hs'⟩ := Exchange.exists_of_runTest htest
  exact ⟨hlate, s', hrun, of_decide_eq_true hs', requestHead_kept hlate hrun⟩

/-- The deed passes nothing on, and ends neither the header nor the request. -/
def Deed.beforeHeadersEnd : Deed → Bool
  | .toUpstream places _ => places.isEmpty
  | .headersRead _ | .constructErr _ _ | .responseDone => false
  | _ => true

theorem not_headKept_of_early {log : List Deed} {places : List Nat} (hplaces : places ≠ [])
    (hdeeds : ∀ d ∈ requestDeeds log, d.beforeHeadersEnd = true) : ¬Lawful HeadKept (log ++ [.discard places]) := by
  intro hlaw
  obtain ⟨i, hi⟩ := List.exists_mem_of_ne_nil places hplaces
  have hopen : ∀ d ∈ requestDeeds log, d.settlesRequest = false := fun d hd => by
    have hearly := hdeeds d hd
    cases d <;> first | rfl | contradiction
  have hhead : InHead (requestDeeds log) i := fun e he => nomatch hdeeds _ he
  obtain ⟨places', xs, hpassed, hi'⟩ := (lawful_concat.mp hlaw).2 hopen places rfl i hi hhead
  have hempty := List.isEmpty_iff.mp (hdeeds _ hpassed)
  rw [hempty] at hi'
  contradiction

/-- The connect is through before the header is. -/
def connectsFirst : List Turn :=
  [⟨.poll, slowServer⟩, ⟨.ready .rev, { slowServer with recvLine := .bytes ((getB '1').take 17) }⟩,
    ⟨.poll, slowServer⟩, ⟨.ready .upWev, slowServer⟩, ⟨.poll, slowServer⟩, ⟨.ready .upWev, slowServer⟩]

/-- The request line is dropped, and the back end never gets it. -/
theorem requestHead_dropped :
    (∀ t ∈ connectsFirst, t.stimulus = .poll ∨ t.stimulus = .ready .rev ∨ t.stimulus = .ready .upWev) ∧
      ∃ s', Exchange.run forwardsB connectsFirst (.accepted forwardsB 0 0 5 0) = .ok s' ∧
        .openUpstream ∈ s'.log ∧ ¬Lawful HeadKept s'.log := by
  have htest : Exchange.runTest forwardsB
      (fun s' => decide (.openUpstream ∈ s'.log) && decide (s'.log.getLast? = some (.discard (List.range 17))) &&
        (requestDeeds s'.log.dropLast).all Deed.beforeHeadersEnd) connectsFirst
      (.accepted forwardsB 0 0 5 0) = true := by decide +kernel
  obtain ⟨s', hrun, hs'⟩ := Exchange.exists_of_runTest htest
  simp only [Bool.and_eq_true, decide_eq_true_eq, List.all_eq_true] at hs'
  obtain ⟨⟨hforwarded, hlast⟩, hdeeds⟩ := hs'
  refine ⟨by decide, s', hrun, hforwarded, ?_⟩
  rw [← List.dropLast_append_getLast? _ hlast]
  exact not_headKept_of_early (by decide) hdeeds

end PWebServer
