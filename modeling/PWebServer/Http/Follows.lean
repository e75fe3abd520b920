import PWebServer.Http.Handlers
import PWebServer.Http.Unwritten

/-!
# Http.Follows

One exchange beside another.

A connection that `http_response_done` keeps is not a fresh one: the deadlines
of its timers, the handler of its write event, the name of a header line, the
connection to its last back end and the bytes in its receive buffer are left
over.  `Exchange.Follows` says what may differ of two exchanges that do the same;
here it is shown for the operations the handlers are made of.
-/

namespace PWebServer

open Function Lockstep

/-! ## events -/

/-- Two events that differ in the deadline of a timer that has not expired. -/
inductive EventS.Alike : EventS → EventS → Prop
  | mk (ev : EventS) (key : BitVec 32) (h : ev.timedout = true → key = ev.timerKey) :
      Alike { ev with timerKey := key } ev

/-- An event that can not become due. -/
structure EventS.Idle (ev : EventS) : Prop where
  active : ev.active = false
  timerSet : ev.timerSet = false
  timedout : ev.timedout = false
  fetched : ev.fetched = false

/-- The write event of a connection that is kept, and that of a fresh one: until
there is an answer the first has the handler of the last answer. -/
inductive EventS.Trails : EventS → EventS → Prop
  | alike {ev ev' : EventS} (h : ev.Alike ev') : Trails ev ev'
  | unused {ev ev' : EventS} (hidle : ev.Idle) (hidle' : ev'.Idle) (hnone : ev'.handler = none)
      (hleft : ∀ h, ev.handler = some h → h = .handleResponse ∨ h = .handleResponseFile) : Trails ev ev'

section

variable {ev ev' : EventS}

theorem EventS.Alike.refl (ev : EventS) : ev.Alike ev := .mk ev ev.timerKey fun _ => rfl

theorem EventS.Alike.handler (h : ev.Alike ev') : ev.handler = ev'.handler := by
  cases h
  rfl

theorem EventS.Alike.timerSet (h : ev.Alike ev') : ev.timerSet = ev'.timerSet := by
  cases h
  rfl

theorem EventS.Alike.timedout (h : ev.Alike ev') : ev.timedout = ev'.timedout := by
  cases h
  rfl

theorem EventS.Alike.fetched (h : ev.Alike ev') : ev.fetched = ev'.fetched := by
  cases h
  rfl

theorem EventS.Alike.setHandler (h : ev.Alike ev') (handler : Option EventHandler) :
    EventS.Alike { ev with handler := handler } { ev' with handler := handler } := by
  cases h with
  | mk _ key h => exact .mk { ev' with handler := handler } key h

theorem EventS.Alike.setFetched (h : ev.Alike ev') (fetched : Bool) :
    EventS.Alike { ev with fetched := fetched } { ev' with fetched := fetched } := by
  cases h with
  | mk _ key h => exact .mk { ev' with fetched := fetched } key h

theorem EventS.Alike.expired (h : ev.Alike ev') :
    EventS.Alike { ev with timedout := true, timerKey := 0 } { ev' with timedout := true, timerKey := 0 } := by
  cases h
  exact .refl _

theorem EventS.Alike.poll (h : ev.Alike ev') : ev.poll.Alike ev'.poll := by
  cases h with
  | mk _ key h => exact .mk ev'.poll key h

theorem EventS.Alike.addEvent (h : ev.Alike ev') : ev.addEvent.Alike ev'.addEvent := by
  cases h with
  | mk _ key h =>
      rw [EventS.addEvent_eq, EventS.addEvent_eq]
      exact .mk { ev' with active := true } key h

theorem EventS.Alike.delEvent (h : ev.Alike ev') : ev.delEvent.Alike ev'.delEvent := by
  cases h with
  | mk _ key h =>
      unfold EventS.delEvent
      dsimp only
      split
      · split
        · exact .mk { ev' with active := false, timerSet := false, timedout := false } key (by simp)
        · exact .mk { ev' with active := false } key h
      · exact .mk ev' key h

theorem EventS.Alike.close (h : ev.Alike ev') : ev.close.Alike ev'.close := by
  cases h with
  | mk _ key h =>
      unfold EventS.close
      dsimp only
      split
      · exact .mk { ev' with active := false, timerSet := false, timedout := false } key (by simp)
      · exact .mk { ev' with active := false } key h

/-- A timer that has not expired is set. -/
theorem EventS.addTimer_eq (now timer : BitVec 32) (htime : ev.timedout = false) :
    ∃ key, ev.addTimer now timer = { ev with timerSet := true, timerKey := key } := by
  unfold EventS.addTimer
  dsimp only
  split
  · next hset => exact ⟨ev.timerKey, by rw [← hset.1]⟩
  · split
    · exact ⟨now + timer, by simp [EventS.delTimer, htime]⟩
    · exact ⟨now + timer, rfl⟩

/-- The deadline says only whether the timer is set again, and a timer that has
not expired is set in any case. -/
theorem EventS.Alike.addTimer (h : ev.Alike ev') (now timer : BitVec 32) :
    (ev.addTimer now timer).Alike (ev'.addTimer now timer) := by
  cases h with
  | mk _ key h =>
      by_cases htime : ev'.timedout = true
      · rw [h htime]
        exact .refl _
      · have htime' : ev'.timedout = false := Bool.eq_false_iff.mpr htime
        obtain ⟨k, hk⟩ := @EventS.addTimer_eq { ev' with timerKey := key } now timer htime'
        obtain ⟨k', hk'⟩ := EventS.addTimer_eq now timer htime'
        rw [hk, hk']
        exact .mk { ev' with timerSet := true, timerKey := k' } k fun h => absurd h htime

theorem EventS.Idle.eq (h : ev.Idle) : ev = { handler := ev.handler, timerKey := ev.timerKey } := by
  obtain ⟨handler, _, _, _, key, _⟩ := ev
  obtain ⟨hactive, hset, htime, hfetched⟩ := h
  dsimp only at hactive hset htime hfetched
  rw [hactive, hset, htime, hfetched]

theorem EventS.Idle.poll (h : ev.Idle) : ev.poll.Idle := ⟨h.active, h.timerSet, h.timedout, h.active⟩

theorem EventS.Idle.setFetched (h : ev.Idle) : EventS.Idle { ev with fetched := false } :=
  ⟨h.active, h.timerSet, h.timedout, rfl⟩

theorem EventS.Idle.close_eq (h : ev.Idle) : ev.close = ev := by
  rw [h.eq]
  rfl

theorem EventS.Trails.setHandler (h : ev.Trails ev') (handler : Option EventHandler) :
    EventS.Alike { ev with handler := handler } { ev' with handler := handler } := by
  cases h with
  | alike h => exact h.setHandler handler
  | unused hidle hidle' =>
      rw [hidle.eq, hidle'.eq]
      exact .mk { handler := handler, timerKey := ev'.timerKey } ev.timerKey (by simp)

/-- An answer brings the write events together. -/
theorem EventS.Trails.answer (h : ev.Trails ev') (handler : Option EventHandler) :
    EventS.Alike { ev.addEvent with handler := handler } { ev'.addEvent with handler := handler } := by
  rw [EventS.addEvent_eq, EventS.addEvent_eq]
  have hset := (h.setHandler handler).addEvent
  rw [EventS.addEvent_eq, EventS.addEvent_eq] at hset
  exact hset

theorem EventS.Trails.poll (h : ev.Trails ev') : ev.poll.Trails ev'.poll := by
  cases h with
  | alike h => exact .alike h.poll
  | unused hidle hidle' hnone hleft => exact .unused hidle.poll hidle'.poll hnone hleft

theorem EventS.Trails.setFetched (h : ev.Trails ev') :
    EventS.Trails { ev with fetched := false } { ev' with fetched := false } := by
  cases h with
  | alike h => exact .alike (h.setFetched false)
  | unused hidle hidle' hnone hleft => exact .unused hidle.setFetched hidle'.setFetched hnone hleft

theorem EventS.Trails.close (h : ev.Trails ev') : ev.close.Trails ev'.close := by
  cases h with
  | alike h => exact .alike h.close
  | unused hidle hidle' hnone hleft =>
      rw [hidle.close_eq, hidle'.close_eq]
      exact .unused hidle hidle' hnone hleft

/-- An event that is due, or can be, is like the other one. -/
theorem EventS.Trails.due (h : ev.Trails ev') (hdue : ev'.fetched = true ∨ ev'.timerSet = true) :
    ev.Alike ev' := by
  cases h with
  | alike h => exact h
  | unused hidle hidle' => simp [hidle'.fetched, hidle'.timerSet] at hdue

theorem EventS.Trails.same (h : ev.Trails ev') : ev.fetched = ev'.fetched ∧ ev.timerSet = ev'.timerSet := by
  cases h with
  | alike h => exact ⟨h.fetched, h.timerSet⟩
  | unused hidle hidle' => exact ⟨hidle.fetched.trans hidle'.fetched.symm, hidle.timerSet.trans hidle'.timerSet.symm⟩

end

/-! ## exchanges -/

/-- A deed without the places of the bytes in what the client has sent. -/
def Deed.unplaced : Deed → Deed
  | .toUpstream _ xs => .toUpstream [] xs
  | .discard _ => .discard []
  | .headersRead _ => .headersRead 0
  | d => d

/-- Neither event of a connection can become due. -/
structure Connection.Unused (c : Connection) : Prop where
  rev : c.rev.Off ∧ c.rev.fetched = false
  wev : c.wev.Off ∧ c.wev.fetched = false

/-- Two requests whose header is read from the same buffer: the name of the line
is the same unless the next byte begins one, and so is the memory behind the
buffer, all of it or what is read. -/
structure Parsing (Same : Prop) (r r' : HttpRequest) (b : Buffer) (m m' : List UInt8) : Prop where
  name : r.headerName = r'.headerName ∨ r'.state = .hdBegin
  memory : Same ∨ ∃ k, SameRead k r' b m m'

/-- The rest of the requests is not read. -/
theorem Parsing.of_same {Same : Prop} {r r' q q' : HttpRequest} {b : Buffer} {m m' : List UInt8}
    (h : Parsing Same r r' b m m') (hname : q.headerName = r.headerName) (hname' : q'.headerName = r'.headerName)
    (hvalue : q'.headerValue = r'.headerValue) (hstate : q'.state = r'.state) : Parsing Same q q' b m m' := by
  refine ⟨?_, h.memory.imp_right fun ⟨k, hread⟩ => ⟨k, hread.begins, hread.written, hread.memory, ?_⟩⟩
  · rw [hname, hname', hstate]
    exact h.name
  · refine hread.placed.imp hstate.trans fun hw => ⟨?_, ?_⟩
    · rw [hname']
      exact hw.name
    · rw [hvalue]
      exact hw.value

/-- The buffer, or the memory behind it, changes for both. -/
theorem Parsing.imp {Same : Prop} {r r' : HttpRequest} {b b' : Buffer} {m m' m₁ m₁' : List UInt8}
    (h : Parsing Same r r' b m m') (hread : ∀ k, SameRead k r' b m m' → ∃ k', SameRead k' r' b' m₁ m₁') :
    Parsing Same r r' b' m₁ m₁' :=
  ⟨h.name, h.memory.imp_right fun ⟨k, hk⟩ => hread k hk⟩

/-- What is the same of two ends of the loop over the header. -/
structure HeadersConn.Follows (Same : Prop) (d d' : HeadersConn) : Prop where
  status : d.status = d'.status
  b : d.b = d'.b
  behind : Same → d.behind = d'.behind
  r : d.r = d'.r.stamped d.r.connection d.r.headerName
  parsing : d'.r.responseDone = false → d'.status ≠ .closed → Parsing Same d.r d'.r d'.b d.behind d'.behind

theorem headersLoop_follows {Same : Prop} {r : HttpRequest} {b : Buffer} {m m' : List UInt8} {o : Option Slot}
    {n : Str} (hmemory : Same → m = m')
    (h : r.responseDone = false → Parsing Same (r.stamped o n) r b m m') :
    Agree (HeadersConn.Follows Same) (headersLoop (r.stamped o n) b m) (headersLoop r b m') := by
  have hstamped : Agree HeadersConn.Alike (headersLoop (r.stamped o n) b m) (headersLoop r b m) :=
    headersLoop_stamped fun hdone => (h hdone).name
  by_cases hsame : Same
  · rw [← hmemory hsame]
    exact hstamped.mono fun d d' hd =>
      ⟨hd.status, hd.b, fun _ => hd.behind, hd.r, fun hdone _ => ⟨hd.name hdone, .inl hsame⟩⟩
  · obtain ⟨k, hread⟩ : ∃ k, r.responseDone = false → SameRead k r b m m' := by
      by_cases hdone : r.responseDone = false
      · obtain ⟨k, hread⟩ := (h hdone).memory.resolve_left hsame
        exact ⟨k, fun _ => hread⟩
      · exact ⟨0, fun hdone' => absurd hdone' hdone⟩
    refine (hstamped.trans (headersLoop_same hread)).mono fun d d' ⟨d₁, hd, hd'⟩ => ?_
    refine ⟨hd.status.trans hd'.status, hd.b.trans hd'.b, fun h => absurd h hsame, ?_, fun hdone hopen => ?_⟩
    · rw [← hd'.r]
      exact hd.r
    · refine ⟨?_, .inr ⟨k, ?_⟩⟩
      · rw [← hd'.r]
        exact hd.name (by rw [hd'.r]; exact hdone)
      · rw [hd.behind]
        exact hd'.read hdone hopen

/-- The value of a line of the header has begun, and the line is not at its end. -/
structure Exchange.InValue (s : Exchange) : Prop where
  header : s.c.rev.handler = some .httpParseHeaders
  waits : s.r.responseDone = false
  line : s.r.state ≠ .hdBegin
  value : s.r.headerValue.c ≠ none

/-- An exchange beside another one: behind `pre` and `pre'` their logs are the
same but for places, and nothing differs of the two that is read outside the
header.  `Same`: the memory of their receive buffers is the same. -/
structure Exchange.Beside (Same : Prop) (pre pre' : List Deed) (s t : Exchange) : Prop where
  ip : s.c.ip = t.c.ip
  rev : s.c.rev.Alike t.c.rev
  wev : s.c.wev.Trails t.c.wev
  request : s.r = t.r.stamped s.r.connection s.r.headerName
  up : s.up = t.up ∨ t.r.upstream = none ∧ s.up.Unused ∧ t.up.Unused
  recvBuffer : s.recvBuffer = t.recvBuffer
  recvBehind : Same → s.recvBehind = t.recvBehind
  sendBuffer : s.sendBuffer = t.sendBuffer
  extension : s.extension = t.extension
  resourceFd : s.resourceFd = t.resourceFd
  fileSize : s.fileSize = t.fileSize
  file : s.file = t.file
  contentLength : s.contentLength = t.contentLength
  bodyReceived : s.bodyReceived = t.bodyReceived
  closed : s.closed = t.closed
  log : ∃ ds, s.log.map Deed.unplaced = pre ++ ds ∧ t.log.map Deed.unplaced = pre' ++ ds

/-- An exchange follows another one: what may differ of the two is not read. -/
structure Exchange.Follows (Same : Prop) (pre pre' : List Deed) (s t : Exchange) : Prop
    extends Exchange.Beside Same pre pre' s t where
  parsing : t.c.rev.handler = some .httpParseHeaders → t.r.responseDone = false → t.closed = false →
    Parsing Same s.r t.r t.recvBuffer s.recvBehind t.recvBehind

section

variable {Same : Prop} {pre pre' : List Deed} {s t : Exchange}

/-! ### what is read of the request -/

theorem Exchange.Beside.done (h : s.Beside Same pre pre' t) : s.r.responseDone = t.r.responseDone :=
  congrArg (·.responseDone) h.request

theorem Exchange.Beside.keepAlive (h : s.Beside Same pre pre' t) : s.r.keepAlive = t.r.keepAlive :=
  congrArg (·.keepAlive) h.request

theorem Exchange.Beside.upstream (h : s.Beside Same pre pre' t) : s.r.upstream = t.r.upstream :=
  congrArg (·.upstream) h.request

theorem Exchange.Beside.curUpstream (h : s.Beside Same pre pre' t) : s.r.curUpstream = t.r.curUpstream :=
  congrArg (·.curUpstream) h.request

theorem Exchange.Beside.version (h : s.Beside Same pre pre' t) : s.r.version = t.r.version :=
  congrArg (·.version) h.request

theorem Exchange.Beside.status (h : s.Beside Same pre pre' t) : s.r.status = t.r.status :=
  congrArg (·.status) h.request

theorem Exchange.Beside.uri (h : s.Beside Same pre pre' t) : s.r.uri = t.r.uri :=
  congrArg (·.uri) h.request

/-- An attached back end is the same. -/
theorem Exchange.Beside.attached (h : s.Beside Same pre pre' t) (hup : t.r.upstream ≠ none) : s.up = t.up :=
  h.up.resolve_right fun hnone => hup hnone.1

end

namespace Exchange.Follows

variable {Same : Prop} {cfg : Config} {calls : Calls} {pre pre' : List Deed} {s t : Exchange}

/-! ### the operations -/

theorem tell (h : s.Follows Same pre pre' t) (d d' : Deed) (hd : d.unplaced = d'.unplaced) :
    (s.tell d).Follows Same pre pre' (t.tell d') := by
  obtain ⟨ds, hs, ht⟩ := h.log
  refine { h with log := ⟨ds ++ [d.unplaced], ?_, ?_⟩ }
  · simp [Exchange.tell, hs]
  · simp [Exchange.tell, ht, hd]

theorem tellAll (h : s.Follows Same pre pre' t) (acts : List Act) :
    (s.tellAll acts).Follows Same pre pre' (t.tellAll acts) := by
  obtain ⟨ds, hs, ht⟩ := h.log
  refine { h with log := ⟨ds ++ (acts.map Deed.balancer).map Deed.unplaced, ?_, ?_⟩ }
  · simp [Exchange.tellAll, hs]
  · simp [Exchange.tellAll, ht]

/-- The read event, as long as it does not begin to read the header. -/
theorem onRev (h : s.Follows Same pre pre' t) {f : EventS → EventS} (hf : (f s.c.rev).Alike (f t.c.rev))
    (hhandler : (f t.c.rev).handler = t.c.rev.handler ∨ (f t.c.rev).handler ≠ some .httpParseHeaders) :
    (s.onRev f).Follows Same pre pre' (t.onRev f) := by
  refine { h with rev := hf, parsing := fun heq => ?_ }
  cases hhandler with
  | inl hsame => exact h.parsing (hsame.symm.trans heq)
  | inr hother => exact absurd heq hother

theorem onWev (h : s.Follows Same pre pre' t) {f : EventS → EventS} (hf : (f s.c.wev).Trails (f t.c.wev)) :
    (s.onWev f).Follows Same pre pre' (t.onWev f) := { h with wev := hf }

theorem addTimerRev (h : s.Follows Same pre pre' t) (now timer : BitVec 32) :
    (s.onRev (EventS.addTimer now timer)).Follows Same pre pre' (t.onRev (EventS.addTimer now timer)) :=
  h.onRev (h.rev.addTimer now timer) (.inl (EventS.addTimer_handler _ _ _))

theorem delRev (h : s.Follows Same pre pre' t) :
    (s.onRev EventS.delEvent).Follows Same pre pre' (t.onRev EventS.delEvent) :=
  h.onRev h.rev.delEvent (.inl (EventS.delEvent_handler _))

theorem setUp (h : s.Follows Same pre pre' t) (up : Connection) :
    Exchange.Follows Same pre pre' { s with up := up } { t with up := up } := { h with up := .inl rfl }

theorem onUpRev (h : s.Follows Same pre pre' t) (hup : s.up = t.up) (f : EventS → EventS) :
    (s.onUpRev f).Follows Same pre pre' (t.onUpRev f) :=
  { h with up := .inl (by simp only [Exchange.onUpRev, hup]) }

theorem onUpWev (h : s.Follows Same pre pre' t) (hup : s.up = t.up) (f : EventS → EventS) :
    (s.onUpWev f).Follows Same pre pre' (t.onUpWev f) :=
  { h with up := .inl (by simp only [Exchange.onUpWev, hup]) }

theorem closeUpstream (h : s.Follows Same pre pre' t) (hup : s.up = t.up) :
    s.closeUpstream.Follows Same pre pre' t.closeUpstream :=
  { h with
    request := congrArg (fun r : HttpRequest => { r with upstream := none }) h.request
    parsing := fun heq hdone hopen => (h.parsing heq hdone hopen).of_same rfl rfl rfl rfl
    up := .inl (by simp only [Exchange.closeUpstream, hup]) }

theorem recvClient (h : s.Follows Same pre pre' t) (o : Recv) :
    (s.recvClient o).1 = (t.recvClient o).1 ∧ (s.recvClient o).2.Follows Same pre pre' (t.recvClient o).2 := by
  unfold Exchange.recvClient
  rw [h.recvBuffer]
  refine ⟨rfl, { h with
    recvBuffer := rfl
    recvBehind := fun hsame => by dsimp only; rw [h.recvBehind hsame]
    parsing := fun heq hdone hopen => (h.parsing heq hdone hopen).imp fun k hread => ?_ }⟩
  dsimp only
  rw [bufferRecv_bytes]
  exact hread.recv _

/-- A part of the buffer is sent. -/
theorem sendRecv (h : s.Follows Same pre pre' t) {o : Send} {ret : Ret} {xs : List UInt8} {b : Buffer}
    (hsend : bufferSend t.recvBuffer o = (ret, xs, b)) (hret : ret ≠ .ok) :
    Exchange.Follows Same pre pre' { s with recvBuffer := b } { t with recvBuffer := b } := by
  obtain rfl := ((bufferSend_length hsend).resolve_left fun hall => hret hall.1).2
  exact { h with
    recvBuffer := rfl
    parsing := fun heq hdone hopen => (h.parsing heq hdone hopen).imp fun k hread =>
      ⟨k, hread.over rfl (Nat.le_add_right _ _) (bufferSend_pending hsend).2⟩ }

/-- The buffer is emptied, but not under the value of a line. -/
theorem clearRecv (h : s.Follows Same pre pre' t) (huncut : Same ∨ ¬ s.InValue) :
    s.clearRecv.Follows Same pre pre' t.clearRecv := by
  have htold := h.tell (.discard s.places) (.discard t.places) rfl
  refine { htold with
    recvBuffer := by rw [Exchange.clearRecv, Exchange.clearRecv, h.recvBuffer]
    recvBehind := fun hsame => by rw [Exchange.clearRecv, Exchange.clearRecv, h.recvBuffer, h.recvBehind hsame]
    parsing := fun heq hdone hopen => ?_ }
  have hparsing := h.parsing heq hdone hopen
  rcases huncut with hsame | huncut
  · exact ⟨hparsing.name, .inl hsame⟩
  · refine hparsing.imp fun k hread => ⟨k, ?_⟩
    rw [Exchange.clearRecv, Exchange.clearRecv, h.recvBuffer]
    refine hread.clear ?_
    by_contra hvalue
    obtain ⟨hbegin, hnone⟩ := not_or.mp hvalue
    refine huncut ⟨h.rev.handler.trans heq, h.done.trans hdone, ?_, ?_⟩
    · rw [h.request]
      exact hbegin
    · rw [h.request]
      exact hnone

theorem rewindRecv (h : s.Follows Same pre pre' t) (hrev : t.c.rev.handler ≠ some .httpParseHeaders) :
    s.rewindRecv.Follows Same pre pre' t.rewindRecv := by
  have htold := h.tell (.discard (s.places.drop s.recvBuffer.begin)) (.discard (t.places.drop t.recvBuffer.begin)) rfl
  exact { htold with
    recvBuffer := by rw [Exchange.rewindRecv, Exchange.rewindRecv, h.recvBuffer]
    recvBehind := fun hsame => by rw [Exchange.rewindRecv, Exchange.rewindRecv, h.recvBuffer, h.recvBehind hsame]
    parsing := fun heq => absurd heq hrev }

/-- The request, as long as what is read of the header is the same. -/
theorem setRequest (h : s.Follows Same pre pre' t) (f : HttpRequest → HttpRequest)
    (hf : f s.r = (f t.r).stamped (f s.r).connection (f s.r).headerName)
    (hup : (f t.r).upstream = t.r.upstream)
    (hparsing : t.c.rev.handler = some .httpParseHeaders → (f t.r).responseDone = false → t.closed = false →
      Parsing Same (f s.r) (f t.r) t.recvBuffer s.recvBehind t.recvBehind) :
    Exchange.Follows Same pre pre' { s with r := f s.r } { t with r := f t.r } :=
  { h with
    request := hf
    parsing := hparsing
    up := h.up.imp_right fun hnone => ⟨hup.trans hnone.1, hnone.2⟩ }

theorem constructErr (h : s.Follows Same pre pre' t) (err : Int) :
    Agree (Exchange.Follows Same pre pre') (s.constructErr cfg err) (t.constructErr cfg err) := by
  unfold Exchange.constructErr
  rw [h.version, h.sendBuffer]
  refine Agree.bind_same fun b => .ok ?_
  have htold := h.tell (.constructErr err b.pending) (.constructErr err b.pending) rfl
  exact { htold with
    rev := h.rev.delEvent
    wev := .alike (h.wev.answer (some .handleResponse))
    request := congrArg (·.constructErr err) h.request
    parsing := fun _ hdone => by cases hdone
    sendBuffer := rfl }

theorem constructResponse (h : s.Follows Same pre pre' t) :
    Agree (fun s' t' => s'.Follows Same pre pre' t' ∧ s'.c = s.c ∧ t'.c = t.c)
      s.constructResponse t.constructResponse := by
  unfold Exchange.constructResponse
  rw [h.version, h.status, h.extension, h.file, h.sendBuffer]
  refine Agree.bind_same fun b => .ok ⟨?_, rfl, rfl⟩
  have htold := h.tell (.constructResponse b.pending) (.constructResponse b.pending) rfl
  exact { htold with sendBuffer := rfl }

end Exchange.Follows

end PWebServer
