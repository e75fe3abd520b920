import PWebServer.Event.Events
import PWebServer.Http.AbsPath
import PWebServer.Http.ParseHeaders
import PWebServer.Http.SendFile
import PWebServer.Module.ConsistentHash

/-!
# Http.Exchange

The handlers of `http.c` as one machine: a client's connection, the request on
it and the connection to the back end, driven by events and timers in any
order.

An `Exchange` is what the handlers read and write, with a log of what they do.
What the system calls of one run of a handler return is in `Calls`; the servers
of the balancer are as other requests have left them, whatever that is.
-/

namespace PWebServer

open Function

/-! ## system calls -/

/-- A `recv` that is not interrupted. -/
inductive Recv where
  | bytes (xs : List UInt8)
  | again
  /-- the peer has closed its side -/
  | eof
  | fail
  deriving DecidableEq, Repr

/-- The `send`s of one `buffer_send`: after how many bytes they stop, and why. -/
inductive Send where
  | all
  | again (n : Nat)
  | fail (n : Nat)
  deriving DecidableEq, Repr

/-- What the system calls of one run of a handler return.  A handler that calls
the next one when it is done lets that receive too, so there is a `recv` for
each.  `reached k`: the `k`th failed connect had got as far as `connect`. -/
structure Calls where
  now : BitVec 32 := 0
  recvLine : Recv := .again
  recvHeaders : Recv := .again
  recvBody : Recv := .again
  recvUpstream : Recv := .again
  send : Send := .all
  sendfile : List Sendfile := [.complete]
  openat : Int := -1
  isDir : Bool := false
  openatIndex : Int := -1
  stSize : Nat := 0
  slot : Option Slot := none
  socket : Int := 0
  reached : Nat → Bool := fun _ => true
  /-- `getsockopt`, `none` if it fails -/
  soError : Option Int := some 0
  outside : Outside
  servers : Servers
  rings : Nat → Option Ring

/-- `server_cfg`, and what the process has at hand: the bytes behind its static
arrays, the size of the file its standard input is, `0` if it is none, and what
the memory of a new receive buffer holds. -/
structure Config where
  postAcceptTimeout : BitVec 32 := 60000
  keepAliveTimeout : BitVec 32 := 60000
  upstreamTimeout : BitVec 32 := 60000
  locations : List UInt8 → Bool
  loadBalance : LoadBalance := .roundMode
  behind : Nat → UInt8 := fun _ => 0
  stdin : Nat := 0
  memory : List UInt8 := []

/-! ## buffers -/

/-- `end - begin`: what a buffer has that was not sent. -/
def Buffer.pending (b : Buffer) : List UInt8 := b.bytes.drop b.begin

/-- `buffer_recv`, with the bytes it adds. -/
def bufferRecv (b : Buffer) (o : Recv) : Ret × List UInt8 × Buffer :=
  if b.full then (.again, [], b)
  else
    match o with
    | .bytes xs => (.again, xs.take (bufSize - b.bytes.length), b.recv xs)
    | .again => (.again, [], b)
    | .eof => (.ok, [], b)
    | .fail => (.error, [], b)

/-- `buffer_send`, with the bytes it sends. -/
def bufferSend (b : Buffer) (o : Send) : Ret × List UInt8 × Buffer :=
  let rest := b.pending
  match o with
  | .all => (.ok, rest, b.clear)
  | .again n =>
      if rest.length ≤ n then (.ok, rest, b.clear)
      else (.again, rest.take n, { b with begin := b.begin + n })
  | .fail n =>
      if rest.length ≤ n then (.ok, rest, b.clear)
      else (.error, rest.take n, { b with begin := b.begin + n })

theorem bufferRecv_bytes (b : Buffer) (o : Recv) :
    (bufferRecv b o).2.2 = { b with bytes := b.bytes ++ (bufferRecv b o).2.1 } := by
  unfold bufferRecv
  split
  · simp
  · cases o with
    | bytes xs => rfl
    | again | eof | fail => simp

/-- What `buffer_send` sends, by what it returns. -/
theorem bufferSend_length {b b' : Buffer} {o : Send} {ret : Ret} {xs : List UInt8}
    (h : bufferSend b o = (ret, xs, b')) :
    ret = .ok ∧ xs = b.pending ∨ ret ≠ .ok ∧ b' = { b with begin := b.begin + xs.length } := by
  unfold bufferSend at h
  cases o with
  | all =>
      cases h
      exact .inl ⟨rfl, rfl⟩
  | again n | fail n =>
      dsimp only at h
      split at h
      · cases h
        exact .inl ⟨rfl, rfl⟩
      · next hlong =>
        cases h
        refine .inr ⟨nofun, ?_⟩
        rw [List.length_take, Nat.min_eq_left (Nat.le_of_not_le hlong)]

theorem bufferRecv_pending {b b' : Buffer} {o : Recv} {ret : Ret} {xs : List UInt8}
    (h : bufferRecv b o = (ret, xs, b')) (hbegin : b.begin ≤ b.bytes.length) :
    b'.pending = b.pending ++ xs ∧ b'.begin ≤ b'.bytes.length := by
  unfold bufferRecv at h
  split at h
  · cases h
    exact ⟨(List.append_nil _).symm, hbegin⟩
  · cases o with
    | bytes sent =>
        cases h
        refine ⟨List.drop_append_of_le_length hbegin, ?_⟩
        rw [Buffer.recv, List.length_append]
        exact hbegin.trans (Nat.le_add_right _ _)
    | again | eof | fail =>
        cases h
        exact ⟨(List.append_nil _).symm, hbegin⟩

theorem bufferSend_pending {b b' : Buffer} {o : Send} {ret : Ret} {xs : List UInt8}
    (h : bufferSend b o = (ret, xs, b')) : b.pending = xs ++ b'.pending ∧ b'.begin ≤ b'.bytes.length := by
  have hall : b.pending = b.bytes.drop b.begin ++ b.clear.pending ∧
      b.clear.begin ≤ b.clear.bytes.length := ⟨(List.append_nil _).symm, le_refl 0⟩
  unfold bufferSend at h
  cases o with
  | all =>
      cases h
      exact hall
  | again n | fail n =>
      dsimp only at h
      split at h
      · cases h
        exact hall
      · next hlong =>
        cases h
        rw [Buffer.pending, List.length_drop, not_le] at hlong
        refine ⟨?_, by dsimp only; omega⟩
        rw [Buffer.pending, Buffer.pending, ← List.drop_drop]
        exact (List.take_append_drop n _).symm

/-! ## sessions -/

/-- What an exchange does that others see, and what its handlers are. -/
inductive Deed where
  /-- a handler is run -/
  | ran (h : EventHandler)
  /-- bytes go to the back end; they were received at these places -/
  | toUpstream (places : List Nat) (xs : List UInt8)
  /-- bytes received at these places leave the receive buffer -/
  | discard (places : List Nat)
  /-- the header ends before this place -/
  | headersRead (place : Nat)
  /-- bytes come from the back end -/
  | fromUpstream (xs : List UInt8)
  /-- bytes go to the client -/
  | toClient (xs : List UInt8)
  /-- the bytes of the file at these places go to the client -/
  | fileToClient (places : List Nat)
  /-- `open_upstream_connection` -/
  | openUpstream
  /-- `construct_err`, and what it leaves in the send buffer -/
  | constructErr (status : Int) (page : List UInt8)
  | constructResponse (header : List UInt8)
  | responseDone
  /-- `http_close_request` of a request with that server -/
  | closeRequest (us : Option ServerId)
  /-- `http_clear_request` of a request with that server -/
  | clearRequest (us : Option ServerId)
  | balancer (a : Act)
  deriving DecidableEq, Repr

/-- A client's connection `c`, its request `r` with the buffers, and the
connection `r.upstream` points to; `recvBehind` is the memory behind the `end` of
the receive buffer, which slices of the request may still point to.  The last
three fields are no part of the program: the places in what the client has sent
of the bytes in the receive buffer, how many bytes the client has sent, and what
has been done. -/
structure Exchange where
  c : Connection
  r : HttpRequest := {}
  recvBuffer : Buffer := {}
  recvBehind : List UInt8 := []
  sendBuffer : Buffer := {}
  up : Connection := {}
  extension : Extension := .html
  resourceFd : Int := 0
  fileSize : Nat := 0
  file : Sending := { resourceLen := 0 }
  contentLength : Int := 0
  bodyReceived : Int := 0
  closed : Bool := false
  places : List Nat := []
  arrived : Nat := 0
  log : List Deed := []

namespace Exchange

variable (cfg : Config) (calls : Calls) (s : Exchange)

/-- A deed is entered in the log. -/
def tell (d : Deed) : Exchange := { s with log := s.log ++ [d] }

/-- What the balancer does is entered in the log. -/
def tellAll (acts : List Act) : Exchange := { s with log := s.log ++ acts.map .balancer }

/-- An operation on the read event of the client's connection. -/
def onRev (f : EventS → EventS) : Exchange := { s with c := { s.c with rev := f s.c.rev } }

/-- An operation on the write event of the client's connection. -/
def onWev (f : EventS → EventS) : Exchange := { s with c := { s.c with wev := f s.c.wev } }

/-- An operation on the read event of the back end's connection. -/
def onUpRev (f : EventS → EventS) : Exchange := { s with up := { s.up with rev := f s.up.rev } }

/-- An operation on the write event of the back end's connection. -/
def onUpWev (f : EventS → EventS) : Exchange := { s with up := { s.up with wev := f s.up.wev } }

/-- `http_close_connection(r->upstream)` -/
def closeUpstream : Exchange := { s with r := { s.r with upstream := none }, up := s.up.close }

/-- `buffer_recv(r->recv_buffer, c->fd)` -/
def recvClient (o : Recv) : Ret × Exchange :=
  let (ret, xs, b) := bufferRecv s.recvBuffer o
  (ret, { s with
    recvBuffer := b
    recvBehind := s.recvBehind.drop xs.length
    places := s.places ++ List.range' s.arrived xs.length
    arrived := s.arrived + xs.length })

/-- `buffer_clear(r->recv_buffer)`, which leaves the bytes where they are. -/
def clearRecv : Exchange :=
  { s.tell (.discard s.places) with
    recvBuffer := s.recvBuffer.clear
    recvBehind := s.recvBuffer.bytes ++ s.recvBehind
    places := [] }

/-- `b->end = b->begin; b->begin = b->data` on the receive buffer. -/
def rewindRecv : Exchange :=
  { s.tell (.discard (s.places.drop s.recvBuffer.begin)) with
    recvBuffer := ⟨s.recvBuffer.bytes.take s.recvBuffer.begin, 0⟩
    recvBehind := s.recvBuffer.bytes.drop s.recvBuffer.begin ++ s.recvBehind
    places := s.places.take s.recvBuffer.begin }

/-! ## responses -/

/-- `construct_err` -/
def constructErr (err : Int) : Except Fault Exchange := do
  let b ← constructErrBuffer cfg.behind s.r.version err s.sendBuffer
  let s := { s.tell (.constructErr err b.pending) with sendBuffer := b, r := s.r.constructErr err }
  pure ((s.onWev fun ev => { ev.addEvent with handler := some .handleResponse }).onRev EventS.delEvent)

/-- `construct_response` -/
def constructResponse : Except Fault Exchange := do
  let b ← constructResponseBuffer s.r.version s.r.status s.extension s.file.resourceLen s.sendBuffer
  pure { s.tell (.constructResponse b.pending) with sendBuffer := b }

/-! ## the end of a request -/

/-- `http_close_request` -/
def httpCloseRequest : Exchange :=
  let s := s.tell (.closeRequest s.r.curUpstream)
  let s := { s with c := s.c.close, closed := true }
  let s := if s.r.upstream = none then s else s.closeUpstream
  let s := if 0 < s.resourceFd then { s with resourceFd := -1 } else s
  s.tellAll (PWebServer.httpCloseRequest calls.now calls.servers s.r).2

/-- `http_clear_request` -/
def httpClearRequest : Exchange :=
  let s := s.clearRecv.tell (.clearRequest s.r.curUpstream)
  let s := { s with sendBuffer := s.sendBuffer.clear }
  let s := if s.r.upstream = none then s else s.closeUpstream
  let (r, _, acts) := PWebServer.httpClearRequest calls.now calls.servers s.r
  let s := { s with
    r := r
    extension := .html
    resourceFd := 0
    fileSize := cfg.stdin
    file := { resourceLen := 0 }
    contentLength := 0
    bodyReceived := 0
    c := { s.c with isIdle := true } }
  s.tellAll acts

/-- `http_response_done` -/
def httpResponseDone : Except Fault Exchange :=
  if s.r.responseDone = false then .error .abort
  else
    let s := s.tell .responseDone
    if s.r.keepAlive then
      let s := s.httpClearRequest cfg calls
      let s := s.onWev EventS.delEvent
      pure (s.onRev fun ev => ({ ev.addEvent with handler := some .ngxHttpProcessRequestLine }).addTimer
        calls.now cfg.keepAliveTimeout)
    else pure (s.httpCloseRequest calls)

/-! ## the client's write event -/

/-- `handle_response_file` -/
def handleResponseFile : Except Fault Exchange := do
  let s := s.tell (.ran .handleResponseFile)
  if s.c.wev.timedout then s.constructErr cfg 404
  else
    let (ret, file, _) ← sendFile s.fileSize s.file s.file.resourceLen calls.sendfile
    let sent := file.sent.drop s.file.sent.length
    let s := { s.tell (.fileToClient sent) with file := file }
    match ret with
    | none => .error .fuel
    | some .ok => httpResponseDone cfg calls { s with r := { s.r with responseDone := true } }
    | some .error => pure (s.httpCloseRequest calls)
    | some _ =>
        if s.c.wev.timerSet then pure (s.onWev (EventS.addTimer calls.now cfg.postAcceptTimeout))
        else pure s

/-- `handle_response` -/
def handleResponse : Except Fault Exchange := do
  let s := s.tell (.ran .handleResponse)
  if s.c.wev.timedout then pure (s.httpCloseRequest calls)
  else
    let (err, xs, b) := bufferSend s.sendBuffer calls.send
    let s := { s.tell (.toClient xs) with sendBuffer := b }
    match err with
    | .ok =>
        if s.r.responseDone then httpResponseDone cfg calls s
        else if s.r.upstream ≠ none then pure (s.onWev EventS.delEvent)
        else if 0 < s.resourceFd then
          handleResponseFile cfg calls
            (s.onWev fun ev => { ev with handler := some .handleResponseFile })
        else httpResponseDone cfg calls { s with r := { s.r with responseDone := true } }
    | .again => pure (s.onWev (EventS.addTimer calls.now cfg.postAcceptTimeout))
    | _ => pure (s.httpCloseRequest calls)

/-! ## the client's read event -/

/-- `parse_request_body_identity` -/
def parseRequestBodyIdentity : Ret × Exchange :=
  if s.contentLength ≤ 0 then (.ok, s)
  else
    let size : Int := s.recvBuffer.bytes.length - s.recvBuffer.begin
    let received := min (s.contentLength - s.bodyReceived) size
    let s := { s with
      bodyReceived := s.bodyReceived + received
      recvBuffer := { s.recvBuffer with begin := (s.recvBuffer.begin + received).toNat } }
    if s.bodyReceived = s.contentLength then (.ok, s) else (.again, s)

/-- `request_handle_body` -/
def requestHandleBody : Except Fault Exchange := do
  let s := s.tell (.ran .requestHandleBody)
  if s.c.rev.timedout then s.constructErr cfg 404
  else
    let (n, s) := s.recvClient calls.recvBody
    if n = .error ∨ n = .ok then pure (s.httpCloseRequest calls)
    else
      match s.parseRequestBodyIdentity with
      | (.again, s) =>
          let s := { s with recvBuffer := { s.recvBuffer with begin := 0 } }
          if s.r.upstream = none then pure s
          else if s.up.isConnected then pure ((s.onRev EventS.delEvent).onUpWev EventS.addEvent)
          else pure { s with r := { s.r with state := .bodyRecvBegin } }
      | (.ok, s) =>
          let s := s.onRev EventS.delEvent
          if s.r.upstream = none then
            let s := s.onWev fun ev => { ev with handler := some .handleResponse }
            if s.r.responseDone then pure s
            else do
              let s := s.onWev EventS.addEvent
              let s ← constructResponse { s with r := { s.r with status := 200 } }
              pure (s.onWev (EventS.addTimer calls.now cfg.postAcceptTimeout))
          else if s.up.isConnected then
            pure (s.rewindRecv.onUpWev fun ev =>
              ev.addEvent.addTimer calls.now cfg.postAcceptTimeout)
          else pure { s.rewindRecv with r := { s.r with state := .bodyRecvDone } }
      | (_, s) => s.constructErr cfg 400

/-- `http_parse_headers` -/
def httpParseHeaders : Except Fault Exchange := do
  let s := s.tell (.ran .httpParseHeaders)
  if s.c.rev.timedout then
    constructErr cfg { s with r := { s.r with keepAlive := false } } 404
  else
    let (n, s) := s.recvClient calls.recvHeaders
    if n = .error ∨ n = .ok then pure (s.httpCloseRequest calls)
    else
      let d ← headersLoop s.r s.recvBuffer s.recvBehind
      -- the loop is left when a line of the header has called `construct_err`
      let failed := d.r.responseDone && !s.r.responseDone
      let s := { s with r := d.r, recvBuffer := d.b, recvBehind := d.behind }
      match d.status with
      | .waiting =>
          if s.c.rev.timerSet then pure s
          else pure (s.onRev (EventS.addTimer calls.now cfg.postAcceptTimeout))
      | .body => do
          let s ← if failed then s.constructErr cfg 400 else pure s
          let s := s.tell (.headersRead (s.arrived - (s.recvBuffer.bytes.length - s.recvBuffer.begin)))
          requestHandleBody cfg calls
            (s.onRev fun ev => { ev with handler := some .requestHandleBody })
      | _ => pure (s.httpCloseRequest calls)

/-! ## back ends -/

/-- `init_upstream_connection` -/
def initUpstreamConnection : Exchange :=
  { s with up := { s.up with
      isConnected := true
      wev := ({ s.up.wev with handler := some .httpProxyPass }).addTimer calls.now cfg.upstreamTimeout
      rev := { s.up.rev.addEvent with handler := some .httpRecvUpstream } } }

/-- What `try_connect` does to the connection, by what it returns; `k` counts
its failures. -/
def tryConnect (k : Nat) (ret : Ret) : Exchange :=
  let s := if s.up.fd ≤ 0 then { s with up := { s.up with fd := calls.socket } } else s
  match ret with
  | .ok => s.initUpstreamConnection cfg calls
  | .again =>
      s.onUpWev fun ev => ({ ev with handler := some .processConnectionResultOfUpstream }).addEvent.addTimer
        calls.now cfg.postAcceptTimeout
  | _ => if calls.reached k then s.onUpWev EventS.delEvent else s

/-- What a selection does to the exchange, act by act. -/
def applyActs : Nat → List Act → Exchange → Except Fault Exchange
  | _, [], s => pure s
  | k, a :: acts, s =>
      let s := s.tell (.balancer a)
      match a with
      | .tryConnect _ ret =>
          applyActs (if ret = .ok ∨ ret = .again then k else k + 1) acts (s.tryConnect cfg calls k ret)
      | .constructErr err => do
          let s ← s.constructErr cfg err
          applyActs k acts s
      | _ => applyActs k acts s

/-- `try_connect_upstream` -/
def tryConnectUpstream (target : Option (List UInt8)) : Except Fault Exchange := do
  let o := { calls.outside with now := calls.now, ip := s.c.ip }
  let sel ← PWebServer.tryConnectUpstream cfg.loadBalance o calls.servers calls.rings s.r target
  applyActs cfg calls 0 sel.acts { s with r := sel.r }

/-- `process_extension` -/
def processExtension (bytes : List UInt8) (uri : Uri) : Extension :=
  match uri.extensionStr.c with
  | none => .html
  | some _ =>
      let str := uri.extensionStr.text bytes
      if str = cstr "html" then .html
      else if str = cstr "txt" then .txt
      else if str = cstr "json" then .json
      else .unknownExtension

/-- The end of `request_process_uri`. -/
def uriDone : Exchange :=
  { s with
    extension := processExtension s.recvBuffer.bytes s.r.uri
    r := if s.r.version.minor = 1 then { s.r with keepAlive := true } else s.r }

/-- `request_process_uri` -/
def requestProcessUri : Except Fault Exchange :=
  match PWebServer.requestProcessUri cfg.locations s.r.uri s.recvBuffer with
  | (.upstream, _) =>
      if s.r.upstream ≠ none then .error .abort
      else
        match calls.slot with
        | none => .error .null
        | some slot => do
            let s := s.tell .openUpstream
            let s := { s with r := { s.r with upstream := some slot }, up := .idle }
            let s ← s.tryConnectUpstream cfg calls (some (s.r.uri.absPath.text s.recvBuffer.bytes))
            pure s.uriDone
  | (.openat _, b) =>
      let s := { s with recvBuffer := b }
      if calls.openat ≤ 0 then s.constructErr cfg 404
      else if calls.isDir then
        if calls.openatIndex ≤ 0 then s.constructErr cfg 403
        else
          pure (uriDone { s with
            resourceFd := calls.openatIndex
            fileSize := calls.stSize
            file := { resourceLen := calls.stSize } })
      else
        pure (uriDone { s with
          resourceFd := calls.openat
          fileSize := calls.stSize
          file := { resourceLen := calls.stSize } })

/-- `ngx_http_process_request_line` -/
def ngxHttpProcessRequestLine : Except Fault Exchange := do
  let s := s.tell (.ran .ngxHttpProcessRequestLine)
  if s.c.rev.timedout then s.constructErr cfg 404
  else
    let (n, s) := s.recvClient calls.recvLine
    if n = .error ∨ n = .ok then pure (s.httpCloseRequest calls)
    else
      match parseRequestLine s.r s.recvBuffer with
      | (.ok, r, b) => do
          let s := { s with r := { r with state := .hdBegin }, recvBuffer := b }
          let s := s.onRev fun ev => { ev with handler := some .httpParseHeaders }
          let s ← s.requestProcessUri cfg calls
          s.httpParseHeaders cfg calls
      | (.again, r, b) =>
          let s := { s with r := r, recvBuffer := b }
          if b.full then .error .abort
          else pure (s.onRev (EventS.addTimer calls.now cfg.postAcceptTimeout))
      | (_, r, b) => constructErr cfg { s with r := r, recvBuffer := b } 400

/-- `http_init_request`; a connection that has no request yet is closed. -/
def httpInitRequest : Except Fault Exchange :=
  let s := s.tell (.ran .httpInitRequest)
  if s.c.rev.timedout then pure { s with c := s.c.close, closed := true }
  else
    let s := s.onRev fun ev => { ev with handler := some .ngxHttpProcessRequestLine }
    s.ngxHttpProcessRequestLine cfg calls

/-- `http_proxy_pass` -/
def httpProxyPass : Except Fault Exchange := do
  let s := s.tell (.ran .httpProxyPass)
  if s.up.fd ≤ 0 then pure s
  else if s.up.wev.timedout then s.closeUpstream.constructErr cfg 408
  else
    let (err, xs, b) := bufferSend s.recvBuffer calls.send
    let s := s.tell (.toUpstream ((s.places.drop s.recvBuffer.begin).take xs.length) xs)
    let s ←
      match err with
      | .ok => pure ((s.clearRecv.onRev EventS.addEvent).onUpWev EventS.delEvent)
      | .error => constructErr cfg { s with recvBuffer := b } 503
      | _ => pure { s with recvBuffer := b }
    if s.up.rev.timerSet then pure s
    else pure (s.onUpRev (EventS.addTimer calls.now cfg.upstreamTimeout))

/-- `http_recv_upstream` -/
def httpRecvUpstream : Except Fault Exchange := do
  let s := s.tell (.ran .httpRecvUpstream)
  if s.up.fd ≤ 0 then pure s
  else if s.up.rev.timedout then s.closeUpstream.constructErr cfg 504
  else
    let (err, xs, b) := bufferRecv s.sendBuffer calls.recvUpstream
    let s := { s.tell (.fromUpstream xs) with sendBuffer := b }
    let s := s.onWev fun ev =>
      { ev.addEvent with handler := if ev.handler = none then some .handleResponse else ev.handler }
    match err with
    | .ok => pure { s.closeUpstream with r := { s.r with upstream := none, responseDone := true } }
    | .error => s.constructErr cfg 503
    | _ => pure (s.onUpRev (EventS.addTimer calls.now cfg.upstreamTimeout))

/-- `process_connection_result_of_upstream` -/
def processConnectionResultOfUpstream : Except Fault Exchange := do
  let s := s.tell (.ran .processConnectionResultOfUpstream)
  if s.up.fd ≤ 0 then pure s
  else if s.up.wev.timedout then do
    let us ← deref s.r.curUpstream
    (s.tell (.balancer (.connectTimedout us))).constructErr cfg 504
  else
    match calls.soError with
    | none => s.constructErr cfg 502
    | some err => do
        let us ← deref s.r.curUpstream
        if err = 0 then pure (s.initUpstreamConnection cfg calls)
        else
          let server := calls.servers.get us
          let s := { s with r := { s.r with curUpstream := none } }
          let s := s.tellAll [.connectFailed us, .free us]
          let s := s.onUpWev EventS.delEvent
          let calls := { calls with servers := calls.servers.set us (failServer calls.now server) }
          s.tryConnectUpstream cfg calls none

/-! ## turns -/

/-- The handlers by their names. -/
def call (h : EventHandler) : Except Fault Exchange :=
  match h with
  | .httpInitRequest => s.httpInitRequest cfg calls
  | .ngxHttpProcessRequestLine => s.ngxHttpProcessRequestLine cfg calls
  | .httpParseHeaders => s.httpParseHeaders cfg calls
  | .requestHandleBody => s.requestHandleBody cfg calls
  | .handleResponse => s.handleResponse cfg calls
  | .handleResponseFile => s.handleResponseFile cfg calls
  | .processConnectionResultOfUpstream => s.processConnectionResultOfUpstream cfg calls
  | .httpProxyPass => s.httpProxyPass cfg calls
  | .httpRecvUpstream => s.httpRecvUpstream cfg calls

end Exchange

/-- The events of an exchange. -/
inductive EventId where
  | rev
  | wev
  | upRev
  | upWev
  deriving DecidableEq, Repr

namespace Exchange

/-- An event. -/
def event (s : Exchange) (e : EventId) : EventS :=
  match e with
  | .rev => s.c.rev
  | .wev => s.c.wev
  | .upRev => s.up.rev
  | .upWev => s.up.wev

/-- The handlers of a batch have all been run. -/
def batchDone (s : Exchange) : Exchange := { s with c := s.c.batchDone, up := s.up.batchDone }

/-- An operation on an event. -/
def onEvent (s : Exchange) (e : EventId) (f : EventS → EventS) : Exchange :=
  match e with
  | .rev => s.onRev f
  | .wev => s.onWev f
  | .upRev => s.onUpRev f
  | .upWev => s.onUpWev f

end Exchange

/-- What makes the worker turn to an exchange. -/
inductive Stimulus where
  /-- `kevent` returns -/
  | poll
  /-- the event is next in the batch -/
  | ready (e : EventId)
  /-- the timer of the event expires -/
  | expire (e : EventId)
  deriving DecidableEq, Repr

/-- A stimulus and what the system calls of the handler return. -/
structure Turn where
  stimulus : Stimulus
  calls : Calls

namespace Exchange

variable (cfg : Config)

/-- One turn.  The timers come when the batch is through; one that has expired
does not ask whether there is a handler. -/
def step (t : Turn) (s : Exchange) : Except Fault Exchange :=
  if s.closed then pure s
  else
    match t.stimulus with
    | .poll => pure { s with c := s.c.poll, up := s.up.poll }
    | .ready e =>
        if (s.event e).fetched then
          let s := s.onEvent e fun ev => { ev with fetched := false }
          match (s.event e).handler with
          | none => pure s
          | some h => s.call cfg t.calls h
        else pure s
    | .expire e =>
        if (s.event e).timerSet then do
          -- the node goes out of the tree and loses its key, the flag stays set
          let h ← deref (s.event e).handler
          (s.batchDone.onEvent e fun ev => { ev with timedout := true, timerKey := 0 }).call cfg t.calls h
        else pure s

/-- Turn after turn. -/
def run : List Turn → Exchange → Except Fault Exchange
  | [], s => pure s
  | t :: ts, s => do
      let s ← s.step cfg t
      run ts s

/-- Every turn of a run meets a condition on the state it begins in. -/
def Always (P : Exchange → Turn → Prop) : List Turn → Exchange → Prop
  | [], _ => True
  | t :: ts, s => P s t ∧ ∀ s', s.step cfg t = .ok s' → Always P ts s'

/-- What every turn of a run preserves holds at its end. -/
theorem run_induction {cfg : Config} {P : Exchange → Turn → Prop} {I : Exchange → Prop}
    (hstep : ∀ s t s', I s → P s t → s.step cfg t = .ok s' → I s') {ts : List Turn} {s s' : Exchange}
    (halways : Always cfg P ts s) (hs : I s) (hrun : run cfg ts s = .ok s') : I s' := by
  induction ts generalizing s with
  | nil =>
      cases hrun
      exact hs
  | cons t ts ih =>
      rw [run] at hrun
      cases hone : s.step cfg t with
      | error f =>
          rw [hone] at hrun
          contradiction
      | ok s₁ =>
          rw [hone] at hrun
          exact ih (halways.2 s₁ hone) (hstep s t s₁ hs halways.1 hone) hrun

theorem always_true (cfg : Config) (ts : List Turn) (s : Exchange) : Always cfg (fun _ _ => True) ts s := by
  induction ts generalizing s with
  | nil => trivial
  | cons t ts ih => exact ⟨trivial, fun s' _ => ih s'⟩

/-- A run that ends in a state that meets `p`. -/
def runTest (p : Exchange → Bool) (ts : List Turn) (s : Exchange) : Bool :=
  match run cfg ts s with
  | .ok s' => p s'
  | .error _ => false

/-- Whether `p` holds at every turn of a run. -/
def alwaysTest (p : Exchange → Turn → Bool) : List Turn → Exchange → Bool
  | [], _ => true
  | t :: ts, s =>
      p s t &&
        match s.step cfg t with
        | .ok s' => alwaysTest p ts s'
        | .error _ => true

theorem exists_of_runTest {cfg : Config} {p : Exchange → Bool} {ts : List Turn} {s : Exchange}
    (h : runTest cfg p ts s = true) : ∃ s', run cfg ts s = .ok s' ∧ p s' = true := by
  unfold runTest at h
  split at h
  · next s' hrun => exact ⟨s', hrun, h⟩
  · contradiction

theorem always_of_alwaysTest {cfg : Config} {p : Exchange → Turn → Bool} {P : Exchange → Turn → Prop}
    (hp : ∀ s t, p s t = true → P s t) {ts : List Turn} {s : Exchange} (h : alwaysTest cfg p ts s = true) :
    Always cfg P ts s := by
  induction ts generalizing s with
  | nil => trivial
  | cons t ts ih =>
      rw [alwaysTest, Bool.and_eq_true] at h
      refine ⟨hp s t h.1, fun s' hstep => ih ?_⟩
      rw [hstep] at h
      exact h.2

/-- A connection that has just been accepted, after `init_connection`. -/
def accepted (now : BitVec 32) (slot : Slot) (fd : Int) (ip : BitVec 32) : Exchange where
  c := { fd := fd, ip := ip, isConnected := true
         rev := ({ handler := some .httpInitRequest : EventS }.addTimer now
           cfg.postAcceptTimeout).addEvent }
  r := { connection := some slot }
  recvBehind := cfg.memory
  fileSize := cfg.stdin

end Exchange

/-! ## a small set-up -/

/-- Requests for `/b` are passed on. -/
def forwardsB : Config where
  locations := fun path => path = [98]

/-- The system calls of a turn, with one server behind the process to which all
connects succeed. -/
def oneServer : Calls where
  slot := some 1
  socket := 9
  outside :=
    { now := 0, conn := fun _ => .ok, ip := 0, pCeil := fun _ _ => 0, qsort := id
      block := some fun _ => 0, retryBlock := none, cycle := none }
  servers := equalServers 1
  rings := fun _ => none

/-- `GET /b HTTP/1.x` and an empty header. -/
def getB (minor : Char) : List UInt8 :=
  text ['G', 'E', 'T', ' ', '/', 'b', ' ', 'H', 'T', 'T', 'P', '/', '1', '.', minor, '\r', '\n', '\r', '\n']

/-- A request for a file of five bytes, whose header is then written. -/
def readsFile : List Turn :=
  [⟨.poll, oneServer⟩, ⟨.ready .rev, { oneServer with
      recvLine := .bytes (text ['G', 'E', 'T', ' ', '/', 'a', ' ', 'H', 'T', 'T', 'P', '/', '1', '.', '1', '\r', '\n',
        '\r', '\n'])
      openat := 7
      stSize := 5 }⟩,
    ⟨.poll, oneServer⟩]

end PWebServer
