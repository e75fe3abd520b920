import PWebServer.Http.Exchange
import PWebServer.Http.Frames
import PWebServer.Module.Selections

/-!
# Http.Moves

What the handlers of an exchange are put together from.

A `Move` is a small change of an exchange under the conditions in which some
handler makes it.  Every turn is a chain of moves, so that an invariant of runs
has to be shown for the moves only.
-/

namespace PWebServer

open Function

namespace Exchange

variable (cfg : Config) (calls : Calls) (s : Exchange)

/-- What a selection takes from outside. -/
def outside : Outside := { calls.outside with now := calls.now, ip := s.c.ip }

/-- The selection that follows a failed connect gives up. -/
def NoServer : Prop :=
  ∃ us sel, s.r.curUpstream = some us ∧
    PWebServer.tryConnectUpstream cfg.loadBalance (s.outside calls)
      (calls.servers.set us (failServer calls.now (calls.servers.get us))) calls.rings
      { s.r with curUpstream := none } none = .ok sel ∧
    .constructErr 502 ∈ sel.acts

/-- When a handler calls `construct_err`: its timer has expired, a system call
has failed, or the client has sent a `Connection` line that is refused.  The
handler of the request line is left out. -/
def Fails : EventHandler → Prop
  | .httpParseHeaders =>
      s.c.rev.timedout = true ∨
        s.r.responseDone = false ∧
          BadConnection s.r (s.recvClient calls.recvHeaders).2.recvBuffer
            (s.recvClient calls.recvHeaders).2.recvBehind
  | .requestHandleBody => s.c.rev.timedout = true
  | .handleResponseFile => s.c.wev.timedout = true
  | .processConnectionResultOfUpstream =>
      0 < s.up.fd ∧ (s.up.wev.timedout = true ∨ calls.soError = none ∨
        (∃ err, calls.soError = some err ∧ err ≠ 0) ∧ s.NoServer cfg calls)
  | .httpProxyPass =>
      0 < s.up.fd ∧ (s.up.wev.timedout = true ∨ (bufferSend s.recvBuffer calls.send).1 = .error)
  | .httpRecvUpstream =>
      0 < s.up.fd ∧
        (s.up.rev.timedout = true ∨ (bufferRecv s.sendBuffer calls.recvUpstream).1 = .error)
  | _ => False

/-- When a handler calls `send_file`. -/
def SendsFile : EventHandler → Prop
  | .handleResponse =>
      s.c.wev.timedout = false ∧ (bufferSend s.sendBuffer calls.send).1 = .ok ∧
        s.r.responseDone = false ∧ s.r.upstream = none ∧ 0 < s.resourceFd
  | .handleResponseFile => s.c.wev.timedout = false
  | _ => False

/-- `send_file` loses count. -/
def fileLost : Bool := losesCount s.fileSize s.file s.file.resourceLen calls.sendfile

/-- The rest of the file goes out. -/
def FileCompletes : Prop :=
  ∃ file os, sendFile s.fileSize s.file s.file.resourceLen calls.sendfile = .ok (some .ok, file, os)

/-- When a handler finds the response complete. -/
def Completes : EventHandler → Prop
  | .handleResponse =>
      s.c.wev.timedout = false ∧ (bufferSend s.sendBuffer calls.send).1 = .ok ∧
        (s.r.responseDone = true ∨ s.r.upstream = none ∧ (0 < s.resourceFd → s.FileCompletes calls))
  | .handleResponseFile => s.c.wev.timedout = false ∧ s.FileCompletes calls
  | _ => False

end Exchange

/-! ## moves -/

/-- What a move is about. -/
inductive Label where
  /-- `construct_err` -/
  | err
  /-- a handler of the client's read event is at work -/
  | read
  /-- bytes may go to the client -/
  | send
  /-- bytes of the file with this descriptor may go to the client, and count of
  them may be lost -/
  | sendFile (fd : Int) (lost : Bool)
  /-- `buffer_send` to the back end returns this, having sent these bytes -/
  | pass (ret : Ret) (xs : List UInt8)
  /-- these bytes come from the back end -/
  | relay (xs : List UInt8)
  /-- a response is complete, of a request with that server -/
  | done (keepAlive : Bool) (us : Option ServerId)
  | quiet
  deriving DecidableEq, Repr

/-- `kevent`, the timers and the start of a handler change the marks of an event
only, and a `kevent` returns registered events only. -/
structure EventS.Marked (ev ev' : EventS) : Prop where
  handler : ev'.handler = ev.handler
  active : ev'.active = ev.active
  timerSet : ev'.timerSet = ev.timerSet
  fetched : ev'.fetched = true → ev.fetched = true ∨ ev.active = true

namespace Exchange

/-- How a handler of the client's read event finds the event. -/
structure Reads (s : Exchange) : Prop where
  ready : s.c.rev.fetched = false
  active : s.r.responseDone = false → s.c.rev.active = true

/-- How a handler of the client's write event finds the event. -/
structure Writes (s : Exchange) : Prop where
  ready : s.c.wev.fetched = false
  active : s.c.wev.active = true

/-- The request line is still to be read. -/
def Starts (s : Exchange) : Prop :=
  s.c.rev.handler = some .httpInitRequest ∨ s.c.rev.handler = some .ngxHttpProcessRequestLine

/-- The request line has been read. -/
def LineRead (s : Exchange) : Prop :=
  s.c.rev.handler = some .httpParseHeaders ∨ s.c.rev.handler = some .requestHandleBody

/-- The end of the header, as a place in what the client has sent. -/
def headersEnd (s : Exchange) : Nat := s.arrived - (s.recvBuffer.bytes.length - s.recvBuffer.begin)

/-- The places of the next `n` bytes of the receive buffer that go out. -/
def nextPlaces (s : Exchange) (n : Nat) : List Nat := (s.places.drop s.recvBuffer.begin).take n

end Exchange

/-- A move of an exchange. -/
inductive Move (cfg : Config) : Label → Exchange → Exchange → Prop
  | mark {s : Exchange} {c up : Connection} (hrev : s.c.rev.Marked c.rev) (hwev : s.c.wev.Marked c.wev)
      (hupRev : s.up.rev.Marked up.rev) (hupWev : s.up.wev.Marked up.wev) (hfd : up.fd = s.up.fd)
      (hidle : c.isIdle = s.c.isIdle) : Move cfg .quiet s { s with c := c, up := up }
  | ran (s : Exchange) (h : EventHandler) : Move cfg .quiet s (s.tell (.ran h))
  /-- the client's bytes -/
  | recv {s : Exchange} (o : Recv) (hreads : s.Reads) : Move cfg .read s (s.recvClient o).2
  | parse {s : Exchange} {r : HttpRequest} {b : Buffer} {m : List UInt8}
      (hrev : s.c.rev.handler = some .ngxHttpProcessRequestLine ∨ s.c.rev.handler = some .httpParseHeaders)
      (hbuf : s.recvBuffer.Parsed b) (hup : r.upstream = s.r.upstream)
      (hdone : r.responseDone = s.r.responseDone) (hcur : r.curUpstream = s.r.curUpstream) :
      Move cfg .read s { s with r := r, recvBuffer := b, recvBehind := m }
  | uriDone {s : Exchange} (hrev : s.c.rev.handler = some .httpParseHeaders) : Move cfg .read s s.uriDone
  | state {s : Exchange} (st : ReqState) : Move cfg .read s { s with r := { s.r with state := st } }
  | timeRev {s : Exchange} (now timer : BitVec 32) (hreads : s.Reads)
      (hline : s.Starts → s.r.responseDone = false) :
      Move cfg .read s (s.onRev (EventS.addTimer now timer))
  | lineBegins {s : Exchange} (hrev : s.c.rev.handler = some .httpInitRequest) :
      Move cfg .read s (s.onRev fun ev => { ev with handler := some .ngxHttpProcessRequestLine })
  | headersRead {s : Exchange} (hrev : s.c.rev.handler = some .httpParseHeaders) :
      Move cfg .read s ((s.tell (.headersRead s.headersEnd)).onRev fun ev =>
        { ev with handler := some .requestHandleBody })
  /-- the request line asks for a file -/
  | openFile {s : Exchange} {r : HttpRequest} {b : Buffer} {fd : Int} {size : Nat}
      (hrev : s.c.rev.handler = some .ngxHttpProcessRequestLine) (hdone : s.r.responseDone = false)
      (hr : r = s.r.withLine r) (hfd : 0 < fd) :
      Move cfg .read s { s.onRev fun ev => { ev with handler := some .httpParseHeaders } with
        r := r, recvBuffer := b, resourceFd := fd, fileSize := size, file := { resourceLen := size } }
  /-- it asks for something that a back end has -/
  | forward {s : Exchange} {r r' : HttpRequest} {b : Buffer} {slot : Slot} {up : Connection}
      {acts : List Act} (hrev : s.c.rev.handler = some .ngxHttpProcessRequestLine)
      (hdone : s.r.responseDone = false) (hr : r = s.r.withLine r) (hbuf : s.recvBuffer.Parsed b)
      (hsel : Selects { r with upstream := some slot } r' acts)
      (hupRev : up.rev.handler = none ∨ up.rev.handler = some .httpRecvUpstream)
      (hupWev : up.wev.handler = none ∨ up.wev.handler = some .httpProxyPass ∨
        up.wev.handler = some .processConnectionResultOfUpstream) :
      Move cfg .read s { s.onRev fun ev => { ev with handler := some .httpParseHeaders } with
        r := r', recvBuffer := b, up := up, log := s.log ++ (.openUpstream :: acts.map .balancer) }
  /-- a connect has failed, and another server is selected -/
  | reconnect {s : Exchange} {us : ServerId} {r' : HttpRequest}
      {up : Connection} {acts : List Act} (hfd : 0 < s.up.fd) (hcur : s.r.curUpstream = some us)
      (hsel : Selects { s.r with curUpstream := none } r' acts)
      (hupRev : up.rev.handler = s.up.rev.handler ∨ up.rev.handler = some .httpRecvUpstream)
      (hupWev : up.wev.handler = s.up.wev.handler ∨ up.wev.handler = some .httpProxyPass ∨
        up.wev.handler = some .processConnectionResultOfUpstream) :
      Move cfg .quiet s { s with
        r := r', up := up
        log := s.log ++ (.connectFailed us :: .free us :: acts).map .balancer }
  | err {s s' : Exchange} (c : Connection) (r : HttpRequest) (b : Buffer) (m : List UInt8) (up : Connection)
      (ds : List Deed) (status : Int)
      (hc : c = s.c ∨ s.c.rev.handler = some .ngxHttpProcessRequestLine ∧
        c = { s.c with rev := { s.c.rev with handler := some .httpParseHeaders } })
      (hline : s.Starts → s.r.responseDone = true ∨ s.c.rev.fetched = false)
      (hcur : r.curUpstream = s.r.curUpstream)
      (hup : r.upstream = s.r.upstream ∧ up = s.up ∨ r.upstream = none ∧ up = s.up.close)
      (hds : ∀ d ∈ ds, d = .balancer (.constructErr 502) ∨ ∃ us, d = .balancer (.connectTimedout us))
      (h : Exchange.constructErr cfg
        { s with c := c, r := r, recvBuffer := b, recvBehind := m, up := up, log := s.log ++ ds } status = .ok s') :
      Move cfg .err s s'
  /-- the request is complete, and a back end is to have it -/
  | rewind {s : Exchange} (hrev : s.c.rev.handler = some .requestHandleBody) (hreads : s.Reads)
      (hup : s.r.upstream ≠ none) : Move cfg .read s (s.onRev EventS.delEvent).rewindRecv
  /-- the request is complete, and the header of the response is constructed -/
  | respond {s s' : Exchange} (hrev : s.c.rev.handler = some .requestHandleBody) (hreads : s.Reads)
      (hup : s.r.upstream = none) (hdone : s.r.responseDone = false)
      (h : Exchange.constructResponse { s with
        c := { s.c with
          rev := s.c.rev.delEvent
          wev := EventS.addEvent { s.c.wev with handler := some .handleResponse } }
        r := { s.r with status := 200 } } = .ok s') :
      Move cfg .read s s'
  /-- the request is complete, and the response is there already -/
  | await {s : Exchange} (hrev : s.c.rev.handler = some .requestHandleBody) (hup : s.r.upstream = none)
      (hdone : s.r.responseDone = true) :
      Move cfg .read s ((s.onRev EventS.delEvent).onWev fun ev => { ev with handler := some .handleResponse })
  /-- something is done to the events of the back end's connection -/
  | attached {s : Exchange} {up : Connection} (hup : s.r.upstream ≠ none) (hfd : up.fd = s.up.fd)
      (hupRev : up.rev.handler = s.up.rev.handler ∨ up.rev.handler = some .httpRecvUpstream)
      (hupWev : up.wev.handler = s.up.wev.handler ∨ up.wev.handler = some .httpProxyPass) :
      Move cfg .quiet s { s with up := up }
  /-- the rest of the receive buffer goes to the back end -/
  | passAll {s : Exchange} {o : Send} {xs : List UInt8} {b : Buffer} (hfd : 0 < s.up.fd)
      (hb : bufferSend s.recvBuffer o = (.ok, xs, b)) :
      Move cfg (.pass .ok xs) s
        ((s.tell (.toUpstream (s.nextPlaces xs.length) xs)).clearRecv.onRev EventS.addEvent)
  /-- a part of it does -/
  | pass {s : Exchange} {o : Send} {ret : Ret} {xs : List UInt8} {b : Buffer} (hfd : 0 < s.up.fd)
      (hb : bufferSend s.recvBuffer o = (ret, xs, b)) (hret : ret ≠ .ok) :
      Move cfg (.pass ret xs) s
        { s.tell (.toUpstream (s.nextPlaces xs.length) xs) with recvBuffer := b }
  | relay {s : Exchange} {o : Recv} {ret : Ret} {xs : List UInt8} {b : Buffer} (hfd : 0 < s.up.fd)
      (hb : bufferRecv s.sendBuffer o = (ret, xs, b)) :
      Move cfg (.relay xs) s ({ s.tell (.fromUpstream xs) with sendBuffer := b }.onWev fun ev =>
        { ev.addEvent with handler := if ev.handler = none then some .handleResponse else ev.handler })
  | upstreamEof {s : Exchange} (hfd : 0 < s.up.fd) :
      Move cfg .quiet s { s.closeUpstream with r := { s.r with upstream := none, responseDone := true } }
  | timeWev {s : Exchange} (now timer : BitVec 32) (hactive : s.c.wev.active = true) :
      Move cfg .quiet s (s.onWev (EventS.addTimer now timer))
  | delWev {s : Exchange} (hwrites : s.Writes) (hup : s.r.upstream ≠ none) :
      Move cfg .quiet s (s.onWev EventS.delEvent)
  | send {s : Exchange} {o : Send} {ret : Ret} {xs : List UInt8} {b : Buffer} (hwrites : s.Writes)
      (hwev : s.c.wev.handler = some .handleResponse) (hb : bufferSend s.sendBuffer o = (ret, xs, b)) :
      Move cfg .send s { s.tell (.toClient xs) with sendBuffer := b }
  | toFile {s : Exchange} (hwrites : s.Writes) (hwev : s.c.wev.handler = some .handleResponse)
      (hbuf : s.sendBuffer = {}) (hup : s.r.upstream = none) (hfd : 0 < s.resourceFd)
      (hdone : s.r.responseDone = false) :
      Move cfg .quiet s (s.onWev fun ev => { ev with handler := some .handleResponseFile })
  | sendFile {s : Exchange} (calls : Calls) {ret : Option Ret} {file : Sending} {os : List Sendfile}
      (hwrites : s.Writes) (hwev : s.c.wev.handler = some .handleResponseFile)
      (hfile : PWebServer.sendFile s.fileSize s.file s.file.resourceLen calls.sendfile = .ok (ret, file, os)) :
      Move cfg (.sendFile s.resourceFd (s.fileLost calls)) s
        { s.tell (.fileToClient (file.sent.drop s.file.sent.length)) with file := file }
  /-- the response is complete -/
  | done {s s' : Exchange} (calls : Calls) (hwrites : s.Writes)
      (hdone : s.c.wev.handler = some .handleResponseFile ∨
        s.c.wev.handler = some .handleResponse ∧ s.sendBuffer = {} ∧
          (s.r.responseDone = true ∨ s.r.upstream = none ∧ ¬ 0 < s.resourceFd))
      (h : Exchange.httpResponseDone cfg calls { s with r := { s.r with responseDone := true } } = .ok s') :
      Move cfg (.done s.r.keepAlive s.r.curUpstream) s s'
  | close {s : Exchange} (calls : Calls) : Move cfg .quiet s (s.httpCloseRequest calls)
  /-- a connection without a request is closed -/
  | drop {s : Exchange} (hrev : s.c.rev.handler = some .httpInitRequest) :
      Move cfg .quiet s { s with c := s.c.close, closed := true }

/-- A chain of moves with the labels `A` allows.  Only its last move may close
the connection. -/
inductive Moves (cfg : Config) (A : Label → Prop) : Exchange → Exchange → Prop
  | refl (s : Exchange) : Moves cfg A s s
  | single {l : Label} {s s₁ : Exchange} (hmove : Move cfg l s s₁) (hl : A l) : Moves cfg A s s₁
  | step {l : Label} {s s₁ s₂ : Exchange} (hmove : Move cfg l s s₁) (hl : A l)
      (hrest : Moves cfg A s₁ s₂) (hopen : s₁.closed = s.closed := by rfl) : Moves cfg A s s₂

namespace Moves

variable {cfg : Config} {A : Label → Prop} {s s₁ s₂ : Exchange}

theorem trans (h : Moves cfg A s s₁) (h' : Moves cfg A s₁ s₂) (hopen : s₁.closed = s.closed) :
    Moves cfg A s s₂ := by
  induction h with
  | refl => exact h'
  | single hmove hl => exact .step hmove hl h' hopen
  | step hmove hl _ hopen' ih => exact .step hmove hl (ih h' (hopen.trans hopen'.symm)) hopen'

/-- What every move of an open connection keeps is kept by the chain. -/
theorem induct {I : Exchange → Prop} (h : Moves cfg A s s₁) (hopen : s.closed = false)
    (hI : ∀ l s s', s.closed = false → A l → Move cfg l s s' → I s → I s') (hs : I s) : I s₁ := by
  induction h with
  | refl => exact hs
  | single hmove hl => exact hI _ _ _ hopen hl hmove hs
  | step hmove hl _ hopen' ih => exact ih (hopen'.trans hopen) (hI _ _ _ hopen hl hmove hs)

end Moves

/-! ## responses -/

section

variable {cfg : Config} {s s' : Exchange}

/-- What `construct_err` does. -/
theorem constructErr_eq {status : Int} (h : s.constructErr cfg status = .ok s') :
    ∃ b, constructErrBuffer cfg.behind s.r.version status s.sendBuffer = .ok b ∧
      s' = ({ s.tell (.constructErr status b.pending) with
        sendBuffer := b, r := s.r.constructErr status }.onWev fun ev =>
          { ev.addEvent with handler := some .handleResponse }).onRev EventS.delEvent := by
  obtain ⟨b, hb, h⟩ := bind_ok h
  cases h
  exact ⟨b, hb, rfl⟩

theorem constructErr_log {status : Int} (h : s.constructErr cfg status = .ok s') :
    s'.log = s.log ++ [.constructErr status s'.sendBuffer.pending] := by
  obtain ⟨b, -, hs'⟩ := constructErr_eq h
  rw [hs']
  rfl

/-- What `construct_err` does to everything but the log and the buffer. -/
structure Answered (s s' : Exchange) (status : Int) : Prop where
  rev : s'.c.rev = s.c.rev.delEvent
  wevHandler : s'.c.wev.handler = some .handleResponse
  wevActive : s'.c.wev.active = true
  request : s'.r = s.r.constructErr status
  up : s'.up = s.up
  file : s'.resourceFd = s.resourceFd
  received : s'.recvBuffer = s.recvBuffer ∧ s'.places = s.places ∧ s'.arrived = s.arrived
  body : s'.contentLength = s.contentLength
  closed : s'.closed = s.closed

theorem constructErr_answered {status : Int} (h : s.constructErr cfg status = .ok s') :
    Answered s s' status := by
  obtain ⟨b, -, hs'⟩ := constructErr_eq h
  rw [hs']
  refine ⟨rfl, rfl, ?_, rfl, rfl, rfl, ⟨rfl, rfl, rfl⟩, rfl, rfl⟩
  simp [Exchange.onRev, Exchange.onWev]

/-- What `construct_response` does. -/
theorem constructResponse_eq (h : s.constructResponse = .ok s') :
    ∃ b, constructResponseBuffer s.r.version s.r.status s.extension s.file.resourceLen s.sendBuffer = .ok b ∧
      s' = { s.tell (.constructResponse b.pending) with sendBuffer := b } := by
  obtain ⟨b, hb, h⟩ := bind_ok h
  cases h
  exact ⟨b, hb, rfl⟩

theorem constructResponse_closed (h : s.constructResponse = .ok s') : s'.closed = s.closed := by
  obtain ⟨b, -, hs'⟩ := constructResponse_eq h
  rw [hs']
  rfl

end

/-! ## the ends of a request -/

/-- What `http_close_request` leaves. -/
theorem httpCloseRequest_eq (calls : Calls) (s : Exchange) :
    s.httpCloseRequest calls = { s with
      c := s.c.close
      closed := true
      r := { s.r with upstream := none }
      up := if s.r.upstream = none then s.up else s.up.close
      resourceFd := if 0 < s.resourceFd then -1 else s.resourceFd
      log := s.log ++ .closeRequest s.r.curUpstream ::
        (PWebServer.httpCloseRequest calls.now calls.servers s.r).2.map .balancer } := by
  have hacts : (PWebServer.httpCloseRequest calls.now calls.servers { s.r with upstream := none }).2 =
      (PWebServer.httpCloseRequest calls.now calls.servers s.r).2 := by
    unfold PWebServer.httpCloseRequest
    cases s.r.curUpstream <;> rfl
  unfold Exchange.httpCloseRequest
  by_cases hup : s.r.upstream = none
  · have hself : ({ s.r with upstream := none } : HttpRequest) = s.r := by rw [← hup]
    by_cases hfd : 0 < s.resourceFd
    · simp [Exchange.tell, Exchange.tellAll, hup, hfd, hself]
    · simp [Exchange.tell, Exchange.tellAll, hup, hfd, hself]
  · by_cases hfd : 0 < s.resourceFd
    · simp [Exchange.tell, Exchange.tellAll, Exchange.closeUpstream, hup, hfd, hacts]
    · simp [Exchange.tell, Exchange.tellAll, Exchange.closeUpstream, hup, hfd, hacts]

/-- The request that `http_clear_request` leaves. -/
def clearedRequest (r : HttpRequest) : HttpRequest :=
  { connection := r.connection, headerName := ⟨some 0, 8⟩ }

/-- What `http_clear_request` leaves. -/
theorem httpClearRequest_eq (cfg : Config) (calls : Calls) (s : Exchange) :
    s.httpClearRequest cfg calls = { s with
      c := { s.c with isIdle := true }
      r := clearedRequest s.r
      recvBuffer := {}
      recvBehind := s.recvBuffer.bytes ++ s.recvBehind
      sendBuffer := {}
      up := if s.r.upstream = none then s.up else s.up.close
      extension := .html
      resourceFd := 0
      fileSize := cfg.stdin
      file := { resourceLen := 0 }
      contentLength := 0
      bodyReceived := 0
      places := []
      log := s.log ++ [.discard s.places, .clearRequest s.r.curUpstream] } := by
  unfold Exchange.httpClearRequest
  by_cases hup : s.r.upstream = none
  · simp [Exchange.clearRecv, Exchange.tell, Exchange.tellAll, Buffer.clear, PWebServer.httpClearRequest,
      clearedRequest, hup]
  · simp [Exchange.clearRecv, Exchange.tell, Exchange.tellAll, Buffer.clear, PWebServer.httpClearRequest,
      clearedRequest, Exchange.closeUpstream, hup]

/-- What `http_response_done` makes of a connection that is kept. -/
def keptAlive (cfg : Config) (calls : Calls) (s : Exchange) : Exchange :=
  let s := s.httpClearRequest cfg calls
  { s with c := { s.c with
      wev := s.c.wev.delEvent
      rev := ({ s.c.rev.addEvent with handler := some .ngxHttpProcessRequestLine }).addTimer
        calls.now cfg.keepAliveTimeout } }

/-- What `http_response_done` does, by `keep_alive`. -/
theorem httpResponseDone_cases {cfg : Config} {calls : Calls} {s s' : Exchange}
    (h : s.httpResponseDone cfg calls = .ok s') :
    s.r.keepAlive = true ∧ s' = keptAlive cfg calls (s.tell .responseDone) ∨
      s.r.keepAlive = false ∧ s' = (s.tell .responseDone).httpCloseRequest calls := by
  unfold Exchange.httpResponseDone at h
  split at h
  · contradiction
  · dsimp only at h
    split at h
    · next hkeep =>
      cases h
      exact .inl ⟨hkeep, rfl⟩
    · next hkeep =>
      cases h
      exact .inr ⟨Bool.eq_false_iff.mpr hkeep, rfl⟩

/-! ## which handler is installed where -/

/-- The handlers that the events of an exchange may have.  As long as the
request line is read there is no server, a back end that is not attached has no
descriptor, and `content_length` is never set. -/
structure Handled (s : Exchange) : Prop where
  rev : ∀ h, s.c.rev.handler = some h → h = .httpInitRequest ∨ h = .ngxHttpProcessRequestLine ∨
    h = .httpParseHeaders ∨ h = .requestHandleBody
  wev : ∀ h, s.c.wev.handler = some h → h = .handleResponse ∨ h = .handleResponseFile
  upRev : ∀ h, s.up.rev.handler = some h → h = .httpRecvUpstream
  upWev : ∀ h, s.up.wev.handler = some h → h = .httpProxyPass ∨ h = .processConnectionResultOfUpstream
  start : s.Starts → s.r.curUpstream = none ∧ s.r.upstream = none
  detached : s.r.upstream = none → s.up.fd ≤ 0
  body : s.contentLength ≤ 0

theorem Connection.close_fd (c : Connection) : c.close.fd ≤ 0 := by
  change (-10086 : Int) ≤ 0
  decide

/-- The line has been read, so it is not read any more. -/
theorem Exchange.LineRead.not_starts {s : Exchange} (h : s.LineRead) : ¬ s.Starts := by
  intro hstarts
  rcases h with h | h <;> rcases hstarts with h' | h' <;> exact nomatch h.symm.trans h'

section

variable {cfg : Config} {l : Label} {s s' : Exchange}

/-- What becomes of the back end when it is detached. -/
theorem Handled.of_connections (hs : Handled s) (hrev : s'.c.rev.handler = s.c.rev.handler)
    (hwev : s'.c.wev.handler = s.c.wev.handler)
    (hup : s'.r.upstream = s.r.upstream ∧ s'.up = s.up ∨ s'.r.upstream = none ∧ s'.up = s.up.close)
    (hcur : s'.r.curUpstream = s.r.curUpstream) (hbody : s'.contentLength = s.contentLength) : Handled s' where
  rev := by
    rw [hrev]
    exact hs.rev
  wev := by
    rw [hwev]
    exact hs.wev
  upRev := by
    cases hup with
    | inl hsame =>
        rw [hsame.2]
        exact hs.upRev
    | inr hclosed =>
        rw [hclosed.2]
        exact fun h heq => hs.upRev h ((EventS.close_handler _).symm.trans heq)
  upWev := by
    cases hup with
    | inl hsame =>
        rw [hsame.2]
        exact hs.upWev
    | inr hclosed =>
        rw [hclosed.2]
        exact fun h heq => hs.upWev h ((EventS.close_handler _).symm.trans heq)
  start := by
    unfold Exchange.Starts
    rw [hrev, hcur]
    intro hstarts
    obtain ⟨hnone, hdetached⟩ := hs.start hstarts
    refine ⟨hnone, ?_⟩
    cases hup with
    | inl hsame => exact hsame.1.trans hdetached
    | inr hclosed => exact hclosed.1
  detached := by
    cases hup with
    | inl hsame =>
        rw [hsame.1, hsame.2]
        exact hs.detached
    | inr hclosed =>
        rw [hclosed.2]
        exact fun _ => s.up.close_fd
  body := by
    rw [hbody]
    exact hs.body

/-- What becomes of the back end at the end of a request. -/
theorem detached_cases (s : Exchange) :
    (none : Option Slot) = s.r.upstream ∧ (if s.r.upstream = none then s.up else s.up.close) = s.up ∨
      (none : Option Slot) = none ∧ (if s.r.upstream = none then s.up else s.up.close) = s.up.close := by
  split
  · next hup => exact .inl ⟨hup.symm, rfl⟩
  · exact .inr ⟨rfl, rfl⟩

theorem Handled.close (hs : Handled s) (calls : Calls) : Handled (s.httpCloseRequest calls) := by
  rw [httpCloseRequest_eq]
  exact hs.of_connections (EventS.close_handler _) (EventS.close_handler _) (detached_cases s) rfl rfl

theorem Handled.done {calls : Calls} (hs : Handled s) (h : s.httpResponseDone cfg calls = .ok s') :
    Handled s' := by
  have htell : Handled (s.tell .responseDone) := hs.of_connections rfl rfl (.inl ⟨rfl, rfl⟩) rfl rfl
  cases httpResponseDone_cases h with
  | inl hkeep =>
      have hkept := hkeep.2
      have hend : Handled { s with
          r := { s.r with upstream := none }
          up := if s.r.upstream = none then s.up else s.up.close } :=
        hs.of_connections rfl rfl (detached_cases s) rfl rfl
      rw [keptAlive, httpClearRequest_eq] at hkept
      rw [hkept]
      refine ⟨fun h heq => ?_, fun h heq => ?_, hend.upRev, hend.upWev, fun _ => ⟨rfl, rfl⟩, hend.detached,
        le_refl 0⟩
      · rw [EventS.addTimer_handler] at heq
        exact .inr (.inl (Option.some.inj heq).symm)
      · rw [EventS.delEvent_handler] at heq
        exact hs.wev h heq
  | inr hclosed =>
      rw [hclosed.2]
      exact htell.close calls

/-- The handlers of the client's read event, once the line has been read. -/
theorem Handled.lineRead (hs : Handled s) (hline : s'.LineRead) (hwev : s'.c.wev.handler = s.c.wev.handler)
    (hupRev : s'.up.rev.handler = none ∨ s'.up.rev.handler = s.up.rev.handler ∨
      s'.up.rev.handler = some .httpRecvUpstream)
    (hupWev : s'.up.wev.handler = none ∨ s'.up.wev.handler = s.up.wev.handler ∨
      s'.up.wev.handler = some .httpProxyPass ∨
      s'.up.wev.handler = some .processConnectionResultOfUpstream)
    (hdetached : s'.r.upstream = none → s'.up.fd ≤ 0) (hbody : s'.contentLength = s.contentLength) :
    Handled s' where
  rev := by
    intro h heq
    rcases hline with hrev | hrev
    · exact .inr (.inr (.inl (Option.some.inj (heq.symm.trans hrev))))
    · exact .inr (.inr (.inr (Option.some.inj (heq.symm.trans hrev))))
  wev := by
    rw [hwev]
    exact hs.wev
  upRev := by
    intro h heq
    rcases hupRev with hnone | hsame | hset
    · exact nomatch hnone.symm.trans heq
    · exact hs.upRev h (hsame.symm.trans heq)
    · exact Option.some.inj (heq.symm.trans hset)
  upWev := by
    intro h heq
    rcases hupWev with hnone | hsame | hset | hset
    · exact nomatch hnone.symm.trans heq
    · exact hs.upWev h (hsame.symm.trans heq)
    · exact .inl (Option.some.inj (heq.symm.trans hset))
    · exact .inr (Option.some.inj (heq.symm.trans hset))
  start := fun hstarts => absurd hstarts hline.not_starts
  detached := hdetached
  body := by
    rw [hbody]
    exact hs.body

/-- The handler of the client's write event is set. -/
theorem Handled.setWev (hs : Handled s) (ev : EventS)
    (hev : ev.handler = some .handleResponse ∨ ev.handler = some .handleResponseFile) :
    Handled { s with c := { s.c with wev := ev } } where
  rev := hs.rev
  wev := by
    intro h heq
    rcases hev with hset | hset
    · exact .inl (Option.some.inj (heq.symm.trans hset))
    · exact .inr (Option.some.inj (heq.symm.trans hset))
  upRev := hs.upRev
  upWev := hs.upWev
  start := hs.start
  detached := hs.detached
  body := hs.body

/-- Every move installs the handlers where they belong. -/
theorem Handled.move (hs : Handled s) (hmove : Move cfg l s s') : Handled s' := by
  cases hmove with
  | ran | recv | state | pass | send | sendFile =>
      exact hs.of_connections rfl rfl (.inl ⟨rfl, rfl⟩) rfl rfl
  | uriDone =>
      unfold Exchange.uriDone
      split
      · exact hs.of_connections rfl rfl (.inl ⟨rfl, rfl⟩) rfl rfl
      · exact hs.of_connections rfl rfl (.inl ⟨rfl, rfl⟩) rfl rfl
  | mark hrev hwev hupRev hupWev hfd hidle =>
      refine ⟨?_, ?_, ?_, ?_, ?_, ?_, hs.body⟩
      · rw [hrev.handler]
        exact hs.rev
      · rw [hwev.handler]
        exact hs.wev
      · rw [hupRev.handler]
        exact hs.upRev
      · rw [hupWev.handler]
        exact hs.upWev
      · unfold Exchange.Starts
        rw [hrev.handler]
        exact hs.start
      · rw [hfd]
        exact hs.detached
  | parse hrev hbuf hup hdone hcur => exact hs.of_connections rfl rfl (.inl ⟨hup, rfl⟩) hcur rfl
  | timeRev now timer =>
      exact hs.of_connections (EventS.addTimer_handler _ _ _) rfl (.inl ⟨rfl, rfl⟩) rfl rfl
  | timeWev now timer =>
      exact hs.of_connections rfl (EventS.addTimer_handler _ _ _) (.inl ⟨rfl, rfl⟩) rfl rfl
  | delWev => exact hs.of_connections rfl (EventS.delEvent_handler _) (.inl ⟨rfl, rfl⟩) rfl rfl
  | rewind => exact hs.of_connections (EventS.delEvent_handler _) rfl (.inl ⟨rfl, rfl⟩) rfl rfl
  | passAll hfd hb => exact hs.of_connections (EventS.addEvent_handler _) rfl (.inl ⟨rfl, rfl⟩) rfl rfl
  | lineBegins hrev =>
      exact ⟨fun h heq => .inr (.inl (Option.some.inj heq).symm), hs.wev, hs.upRev, hs.upWev,
        fun _ => hs.start (.inl hrev), hs.detached, hs.body⟩
  | headersRead =>
      exact hs.lineRead (.inr rfl) rfl (.inr (.inl rfl)) (.inr (.inl rfl)) hs.detached rfl
  | openFile hrev hdone hr =>
      refine hs.lineRead (.inl rfl) rfl (.inr (.inl rfl)) (.inr (.inl rfl)) ?_ rfl
      rw [hr]
      exact hs.detached
  | forward hrev hdone hr hbuf hsel hupRev hupWev =>
      refine hs.lineRead (.inl rfl) rfl (hupRev.imp_right .inr) (hupWev.imp_right .inr) (fun hnone => ?_) rfl
      rw [hsel.frame] at hnone
      exact nomatch hnone
  | reconnect hfd hcur hsel hupRev hupWev =>
      have hattached : s.r.upstream ≠ none := fun hnone => absurd hfd (not_lt.mpr (hs.detached hnone))
      refine ⟨hs.rev, hs.wev, fun h heq => ?_, fun h heq => ?_, fun hstart => ?_, fun hnone => ?_, hs.body⟩
      · cases hupRev with
        | inl hsame => exact hs.upRev h (hsame.symm.trans heq)
        | inr hset => exact Option.some.inj (heq.symm.trans hset)
      · rcases hupWev with hsame | hpass | hresult
        · exact hs.upWev h (hsame.symm.trans heq)
        · exact .inl (Option.some.inj (heq.symm.trans hpass))
        · exact .inr (Option.some.inj (heq.symm.trans hresult))
      · exact absurd (hs.start hstart).2 hattached
      · rw [hsel.frame] at hnone
        exact absurd hnone hattached
  | err c r b m up ds status hc hline hcur hup hds h =>
      have hans := constructErr_answered h
      have hbase : Handled { s with r := r, up := up } := hs.of_connections rfl rfl hup hcur rfl
      have hwev := hbase.setWev s'.c.wev (.inl hans.wevHandler)
      refine ⟨fun h heq => ?_, hwev.wev, ?_, ?_, fun hstart => ?_, ?_, ?_⟩
      · rw [hans.rev, EventS.delEvent_handler] at heq
        rcases hc with hsame | hheaders
        · rw [hsame] at heq
          exact hs.rev h heq
        · rw [hheaders.2] at heq
          exact .inr (.inr (.inl (Option.some.inj heq).symm))
      · rw [hans.up]
        exact hwev.upRev
      · rw [hans.up]
        exact hwev.upWev
      · unfold Exchange.Starts at hstart
        rw [hans.rev, EventS.delEvent_handler] at hstart
        rw [hans.request]
        rcases hc with hsame | hheaders
        · rw [hsame] at hstart
          exact hwev.start hstart
        · rw [hheaders.2] at hstart
          simp at hstart
      · rw [hans.up, hans.request]
        exact hwev.detached
      · rw [hans.body]
        exact hs.body
  | respond hrev hreads hup hdone h =>
      obtain ⟨b, -, hs'⟩ := constructResponse_eq h
      rw [hs']
      have hwev := hs.setWev (EventS.addEvent { s.c.wev with handler := some .handleResponse })
        (.inl (EventS.addEvent_handler _))
      exact hwev.of_connections (EventS.delEvent_handler _) rfl (.inl ⟨rfl, rfl⟩) rfl rfl
  | await hrev hup hdone =>
      have hwev := hs.setWev { s.c.wev with handler := some .handleResponse } (.inl rfl)
      exact hwev.of_connections (EventS.delEvent_handler _) rfl (.inl ⟨rfl, rfl⟩) rfl rfl
  | attached hup hfd hupRev hupWev =>
      refine ⟨hs.rev, hs.wev, fun h heq => ?_, fun h heq => ?_, hs.start, fun hnone => absurd hnone hup, hs.body⟩
      · cases hupRev with
        | inl hsame => exact hs.upRev h (hsame.symm.trans heq)
        | inr hset => exact Option.some.inj (heq.symm.trans hset)
      · cases hupWev with
        | inl hsame => exact hs.upWev h (hsame.symm.trans heq)
        | inr hset => exact .inl (Option.some.inj (heq.symm.trans hset))
  | relay hfd hb =>
      refine ⟨hs.rev, fun h heq => ?_, hs.upRev, hs.upWev, hs.start, hs.detached, hs.body⟩
      dsimp only [Exchange.onWev, Exchange.tell] at heq
      split at heq
      · exact .inl (Option.some.inj heq).symm
      · exact hs.wev h heq
  | upstreamEof hfd => exact hs.of_connections rfl rfl (.inr ⟨rfl, rfl⟩) rfl rfl
  | toFile => exact hs.setWev _ (.inr rfl)
  | done calls hwrites hdone h =>
      have hset : Handled { s with r := { s.r with responseDone := true } } :=
        hs.of_connections rfl rfl (.inl ⟨rfl, rfl⟩) rfl rfl
      exact hset.done h
  | close calls => exact hs.close calls
  | drop hrev =>
      exact hs.of_connections (EventS.close_handler _) (EventS.close_handler _) (.inl ⟨rfl, rfl⟩) rfl rfl

end

/-! ## what no move does -/

/-- What is done at the end of a request. -/
def Deed.ends : Deed → Bool
  | .discard _ | .clearRequest _ | .closeRequest _ | .balancer _ => true
  | _ => false

section

variable {cfg : Config} {l : Label} {s s' : Exchange}

theorem httpCloseRequest_log (calls : Calls) (s : Exchange) :
    ∃ ds, (s.httpCloseRequest calls).log = s.log ++ ds ∧ ∀ d ∈ ds, d.ends = true := by
  rw [httpCloseRequest_eq]
  refine ⟨_, rfl, fun d hd => ?_⟩
  cases hd with
  | head => rfl
  | tail _ hact =>
      obtain ⟨a, -, hd'⟩ := List.mem_map.mp hact
      rw [← hd']
      rfl

/-- What is logged when a response is complete. -/
theorem httpResponseDone_log {calls : Calls} (h : s.httpResponseDone cfg calls = .ok s') :
    ∃ ds, s'.log = s.log ++ .responseDone :: ds ∧ (∀ d ∈ ds, d.ends = true) ∧
      (s'.closed = true ∨ ∃ us, .clearRequest us ∈ ds) := by
  cases httpResponseDone_cases h with
  | inl hkept =>
      refine ⟨[.discard s.places, .clearRequest s.r.curUpstream], ?_, fun d hd => ?_, .inr ⟨s.r.curUpstream, ?_⟩⟩
      · rw [hkept.2, keptAlive, httpClearRequest_eq]
        exact List.append_assoc s.log [.responseDone] _
      · cases hd with
        | head => rfl
        | tail _ hd =>
            rw [List.mem_singleton.mp hd]
            rfl
      · exact List.mem_cons_of_mem _ List.mem_cons_self
  | inr hclosed =>
      obtain ⟨ds, hds, hends⟩ := httpCloseRequest_log calls (s.tell .responseDone)
      refine ⟨ds, ?_, hends, .inl ?_⟩
      · rw [hclosed.2, hds]
        exact List.append_assoc s.log [.responseDone] ds
      · rw [hclosed.2, httpCloseRequest_eq]

/-- The log only grows, and it is with the request line that a back end is
looked up. -/
theorem Move.log (hmove : Move cfg l s s') :
    ∃ ds, s'.log = s.log ++ ds ∧
      (.openUpstream ∈ ds → s.c.rev.handler = some .ngxHttpProcessRequestLine) := by
  cases hmove with
  | mark | recv | parse | uriDone | state | timeRev | lineBegins | openFile | await | attached |
    upstreamEof | timeWev | delWev | toFile | drop =>
      exact ⟨[], (List.append_nil _).symm, fun h => nomatch h⟩
  | forward hrev => exact ⟨_, rfl, fun _ => hrev⟩
  | reconnect => exact ⟨_, rfl, fun h => by simp at h⟩
  | err c r b m up ds status hc hline hcur hup hds h =>
      refine ⟨ds ++ [.constructErr status s'.sendBuffer.pending], ?_, fun hmem => ?_⟩
      · rw [constructErr_log h, List.append_assoc]
      · rcases List.mem_append.mp hmem with hold | hnew
        · rcases hds _ hold with h | ⟨us, h⟩ <;> contradiction
        · exact nomatch List.mem_singleton.mp hnew
  | respond hrev hreads hup hdone h =>
      obtain ⟨b, -, hs'⟩ := constructResponse_eq h
      rw [hs']
      exact ⟨[_], rfl, fun hmem => nomatch List.mem_singleton.mp hmem⟩
  | ran | headersRead | rewind | pass | relay | send | sendFile =>
      exact ⟨[_], rfl, fun hmem => nomatch List.mem_singleton.mp hmem⟩
  | passAll =>
      exact ⟨[_, _], List.append_assoc _ _ _, fun hmem => by simp at hmem⟩
  | done calls hwrites hdone h =>
      obtain ⟨ds, hlog, hends, -⟩ := httpResponseDone_log h
      refine ⟨_, hlog, fun hmem => ?_⟩
      cases hmem with
      | tail _ hmem => exact nomatch hends _ hmem
  | close calls =>
      obtain ⟨ds, hlog, hends⟩ := httpCloseRequest_log calls s
      exact ⟨ds, hlog, fun hmem => nomatch hends _ hmem⟩

/-- The request line is not read again before the request is over. -/
theorem Exchange.LineRead.move (hline : s.LineRead) (hmove : Move cfg l s s') :
    s'.LineRead ∨ ∃ us, .clearRequest us ∈ s'.log := by
  have hsame : s'.c.rev.handler = s.c.rev.handler → s'.LineRead ∨ ∃ us, .clearRequest us ∈ s'.log := by
    intro heq
    refine .inl ?_
    unfold Exchange.LineRead
    rw [heq]
    exact hline
  have hlate : s.c.rev.handler ≠ some .ngxHttpProcessRequestLine := fun hrev => hline.not_starts (.inr hrev)
  cases hmove with
  | ran | recv | parse | uriDone | state | reconnect | attached | pass | relay | upstreamEof | timeWev | delWev |
    send | toFile | sendFile => exact hsame rfl
  | mark hrev => exact hsame hrev.handler
  | timeRev => exact hsame (EventS.addTimer_handler _ _ _)
  | rewind => exact hsame (EventS.delEvent_handler _)
  | await => exact hsame (EventS.delEvent_handler _)
  | passAll => exact hsame (EventS.addEvent_handler _)
  | lineBegins hrev => exact absurd (.inl hrev) hline.not_starts
  | headersRead => exact .inl (.inr rfl)
  | openFile hrev | forward hrev => exact absurd hrev hlate
  | err c r b m up ds status hc hline' hcur hup hds h =>
      refine hsame ?_
      rw [(constructErr_answered h).rev, EventS.delEvent_handler, hc.resolve_right fun hboth => hlate hboth.1]
  | respond hrev hreads hup hdone h =>
      obtain ⟨b, -, hs'⟩ := constructResponse_eq h
      refine hsame ?_
      rw [hs']
      exact EventS.delEvent_handler _
  | done calls hwrites hdone h =>
      cases httpResponseDone_cases h with
      | inl hkept =>
          refine .inr ⟨s.r.curUpstream, ?_⟩
          rw [hkept.2, keptAlive, httpClearRequest_eq]
          exact List.mem_append_right _ (List.mem_cons_of_mem _ List.mem_cons_self)
      | inr hclosed =>
          refine hsame ?_
          rw [hclosed.2, httpCloseRequest_eq]
          exact EventS.close_handler _
  | close calls =>
      refine hsame ?_
      rw [httpCloseRequest_eq]
      exact EventS.close_handler _
  | drop hrev => exact hsame (EventS.close_handler _)

end

end PWebServer
