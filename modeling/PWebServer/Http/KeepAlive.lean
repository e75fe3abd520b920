import PWebServer.Http.Complete
import PWebServer.Http.SideBySide

/-!
# Http.KeepAlive

The requests of one connection, one after the other.

When an answer is complete and the connection is kept, the exchange is at rest
until the client sends something (`Exchange.AtRest`).  What it does from then on
is what it would do on a connection that has just been accepted, over the same
memory (`kept_as_accepted`) or, if no value of the header is cut, over any other
(`served_afresh`).
-/

namespace PWebServer

open Function Lockstep

/-! ## between two requests -/

/-- What `http_response_done` leaves of an exchange that is kept, until the next
request comes.  The back end is not attached, and the client's write event has
the handler of the last answer. -/
structure Exchange.AtRest (cfg : Config) (s : Exchange) : Prop where
  rev : ∃ key fetched, s.c.rev =
    { handler := some .ngxHttpProcessRequestLine, active := true, timerSet := true, timerKey := key
      fetched := fetched }
  wev : s.c.wev.Idle
  request : s.r = ({} : HttpRequest).stamped s.r.connection s.r.headerName
  recvBuffer : s.recvBuffer = {}
  sendBuffer : s.sendBuffer = {}
  extension : s.extension = .html
  resourceFd : s.resourceFd = 0
  fileSize : s.fileSize = cfg.stdin
  file : s.file = { resourceLen := 0 }
  contentLength : s.contentLength = 0
  bodyReceived : s.bodyReceived = 0
  opened : s.closed = false

section

variable {cfg : Config} {calls : Calls} {pre pre' : List Deed} {s s' s₁ t : Exchange} {u : Turn} {h' : EventHandler}

theorem keptAlive_atRest (hopen : s.closed = false) (hwrites : s.Writes) (htime : s.c.wev.timedout = false)
    (hrev : s.c.rev.timedout = false) : (keptAlive cfg calls s).AtRest cfg := by
  rw [keptAlive, httpClearRequest_eq]
  refine ⟨?_, ?_, rfl, rfl, rfl, rfl, rfl, rfl, rfl, rfl, rfl, hopen⟩
  · obtain ⟨key, hkey⟩ := @EventS.addTimer_eq { s.c.rev.addEvent with handler := some .ngxHttpProcessRequestLine }
      calls.now cfg.keepAliveTimeout (by rw [EventS.addEvent_eq]; exact hrev)
    refine ⟨key, s.c.rev.fetched, hkey.trans ?_⟩
    rw [EventS.addEvent_eq, ← hrev]
  · exact ⟨EventS.delEvent_active _, EventS.delEvent_timerSet _ hwrites.active, EventS.delEvent_timedout htime,
      (EventS.delEvent_fetched _).trans hwrites.ready⟩

/-- A handler that completes the answer of a request to be kept. -/
theorem handleResponseFile_kept (h : s.handleResponseFile cfg calls = .ok s')
    (hcompletes : s.Completes calls .handleResponseFile) (hkeep : s.r.keepAlive = true) :
    ∃ s₁, s' = keptAlive cfg calls s₁ ∧ s₁.c = s.c ∧ s₁.closed = s.closed := by
  obtain ⟨htime, file, os, hfile⟩ := hcompletes
  unfold Exchange.handleResponseFile at h
  dsimp only at h
  rw [if_neg (show ¬ (s.tell (.ran .handleResponseFile)).c.wev.timedout = true from Bool.eq_false_iff.mp htime)] at h
  obtain ⟨v, hv, h⟩ := bind_ok h
  cases hv.symm.trans hfile
  cases httpResponseDone_cases h with
  | inl hkept => exact ⟨_, hkept.2, rfl, rfl⟩
  | inr hclosed => exact absurd (hkeep.symm.trans hclosed.1) (by simp)

theorem handleResponse_kept (h : s.handleResponse cfg calls = .ok s')
    (hcompletes : s.Completes calls .handleResponse) (hkeep : s.r.keepAlive = true) :
    ∃ s₁ handler, s' = keptAlive cfg calls s₁ ∧ s₁.c = { s.c with wev := { s.c.wev with handler := handler } } ∧
      s₁.closed = s.closed := by
  obtain ⟨htime, hret, hdone⟩ := hcompletes
  unfold Exchange.handleResponse at h
  dsimp only at h
  rw [if_neg (show ¬ (s.tell (.ran .handleResponse)).c.wev.timedout = true from Bool.eq_false_iff.mp htime)] at h
  cases hb : bufferSend (s.tell (.ran .handleResponse)).sendBuffer calls.send with
  | mk err rest =>
  obtain ⟨xs, b⟩ := rest
  rw [hb] at h
  obtain rfl : err = .ok := (congrArg Prod.fst hb).symm.trans hret
  have hkept : ∀ {s₂ : Exchange}, s₂.httpResponseDone cfg calls = .ok s' → s₂.r.keepAlive = true → s₂.c = s.c →
      s₂.closed = s.closed →
      ∃ s₁ handler, s' = keptAlive cfg calls s₁ ∧ s₁.c = { s.c with wev := { s.c.wev with handler := handler } } ∧
        s₁.closed = s.closed := fun h hkeep₂ hc hclosed => by
    cases httpResponseDone_cases h with
    | inl hkept => exact ⟨_, s.c.wev.handler, hkept.2, hc, hclosed⟩
    | inr hclosed => exact absurd (hkeep₂.symm.trans hclosed.1) (by simp)
  dsimp only at h
  split at h
  · exact hkept h hkeep rfl rfl
  · next hnot =>
    replace hdone := hdone.resolve_left hnot
    split at h
    · next hup => exact absurd hdone.1 hup
    · split at h
      · next hfd =>
        obtain ⟨s₁, hs', hc, hclosed⟩ := handleResponseFile_kept h ⟨htime, hdone.2 hfd⟩ hkeep
        exact ⟨s₁, some .handleResponseFile, hs', hc, hclosed⟩
      · exact hkept h hkeep rfl rfl

/-- A turn that completes the answer to a request that is to be kept. -/
theorem completes_atRest (hs : InOrder s) (hpunctual : s.Punctual) (hruns : s.Runs u h' s₁)
    (hcompletes : s₁.Completes u.calls h') (hkeep : s₁.r.keepAlive = true) (hstep : s.step cfg u = .ok s') :
    s'.AtRest cfg := by
  have hrev := completes_inTime hs hpunctual hruns hcompletes hkeep
  rw [hruns.step] at hstep
  obtain ⟨e, hdue⟩ := hruns.due
  have hs₁ := hruns.inOrder cfg hs
  have hwev : e = .wev := by
    cases e with
    | wev => rfl
    | rev => rcases hs₁.handled.rev h' hdue.handler with rfl | rfl | rfl | rfl <;> exact hcompletes.elim
    | upRev =>
        obtain rfl := hs₁.handled.upRev h' hdue.handler
        exact hcompletes.elim
    | upWev => rcases hs₁.handled.upWev h' hdue.handler with rfl | rfl <;> exact hcompletes.elim
  subst hwev
  have hwrites := hdue.writes (hs.flagged hruns.open)
  have hopen : s₁.closed = false := hruns.closed.trans hruns.open
  have hends : ∀ {s₂ : Exchange} {handler : Option EventHandler},
      s₂.c = { s₁.c with wev := { s₁.c.wev with handler := handler } } → s₂.closed = s₁.closed →
      s₁.c.wev.timedout = false → (keptAlive cfg u.calls s₂).AtRest cfg := fun {s₂ handler} hc hclosed htime => by
    refine keptAlive_atRest (hclosed.trans hopen) ⟨?_, ?_⟩ ?_ ?_
    · rw [hc]
      exact hwrites.ready
    · rw [hc]
      exact hwrites.active
    · rw [hc]
      exact htime
    · rw [hc]
      exact hrev
  rcases hs₁.handled.wev h' hdue.handler with rfl | rfl
  · obtain ⟨s₂, handler, rfl, hc, hclosed⟩ := handleResponse_kept hstep hcompletes hkeep
    exact hends hc hclosed hcompletes.1
  · obtain ⟨s₂, rfl, hc, hclosed⟩ := handleResponseFile_kept hstep hcompletes hkeep
    exact hends hc hclosed hcompletes.1

/-- The events of a back end that is not attached find its connection closed. -/
theorem call_detached (hs : Handled s) (hfd : s.up.fd ≤ 0) {e : EventId} (he : e = .upRev ∨ e = .upWev)
    (hhandler : (s.event e).handler = some h') (h : s.call cfg calls h' = .ok s') : s' = s.tell (.ran h') := by
  have hclosed : (s.tell (.ran h')).up.fd ≤ 0 := hfd
  rcases he with rfl | rfl
  · obtain rfl := hs.upRev h' hhandler
    unfold Exchange.call Exchange.httpRecvUpstream at h
    dsimp only at h
    rw [if_pos hclosed] at h
    exact (Except.ok.inj h).symm
  · rcases hs.upWev h' hhandler with rfl | rfl
    · unfold Exchange.call Exchange.httpProxyPass at h
      dsimp only at h
      rw [if_pos hclosed] at h
      exact (Except.ok.inj h).symm
    · unfold Exchange.call Exchange.processConnectionResultOfUpstream at h
      dsimp only at h
      rw [if_pos hclosed] at h
      exact (Except.ok.inj h).symm

/-- Until the client sends something or its timer expires, nothing changes. -/
theorem Exchange.AtRest.step (hs : InOrder s) (h : s.AtRest cfg)
    (hrev : u.stimulus ≠ .ready .rev ∧ u.stimulus ≠ .expire .rev) (hstep : s.step cfg u = .ok s') : s'.AtRest cfg := by
  have hup : s.r.upstream = none := congrArg (·.upstream) h.request
  have hoff := (hs.flagged h.opened).detached hup
  have hfd := hs.handled.detached hup
  unfold Exchange.step at hstep
  rw [if_neg (by simp [h.opened])] at hstep
  cases hu : u.stimulus with
  | poll =>
      rw [hu] at hstep
      cases hstep
      refine { h with rev := ?_, wev := h.wev.poll }
      obtain ⟨key, fetched, hwaits⟩ := h.rev
      exact ⟨key, true, by rw [show s.c.poll.rev = s.c.rev.poll from rfl, hwaits]; rfl⟩
  | expire e =>
      have hunset : (s.event e).timerSet = false := by
        cases e with
        | rev => exact absurd hu hrev.2
        | wev => exact h.wev.timerSet
        | upRev => exact hoff.1.timerSet
        | upWev => exact hoff.2.timerSet
      rw [hu] at hstep
      dsimp only at hstep
      rw [if_neg (by simp [hunset])] at hstep
      cases hstep
      exact h
  | ready e =>
      rw [hu] at hstep
      dsimp only at hstep
      split at hstep
      · next hfetched =>
        have he : e = .upRev ∨ e = .upWev := by
          cases e with
          | rev => exact absurd hu hrev.1
          | wev => exact absurd (h.wev.fetched.symm.trans hfetched) (by simp)
          | upRev => exact .inl rfl
          | upWev => exact .inr rfl
        have hkept : Exchange.AtRest cfg (s.onEvent e fun ev => { ev with fetched := false }) := by
          rcases he with rfl | rfl
          · exact { h with }
          · exact { h with }
        have hfd₁ : (s.onEvent e fun ev => { ev with fetched := false }).up.fd ≤ 0 := by
          rcases he with rfl | rfl
          · exact hfd
          · exact hfd
        split at hstep
        · cases hstep
          exact hkept
        · next h' hhandler =>
          have hsame : ((s.onEvent e fun ev => { ev with fetched := false }).event e).handler =
              (s.event e).handler := by cases e <;> rfl
          have hruns : s.Runs u h' _ := .ready h.opened hu hfetched (hsame.symm.trans hhandler)
          have hs₁ := hruns.inOrder cfg hs
          rw [call_detached hs₁.handled hfd₁ he hhandler hstep]
          exact { hkept with }
      · cases hstep
        exact h

end

theorem Exchange.AtRest.run {cfg : Config} {mid : List Turn} {s s' : Exchange} (hs : InOrder s) (h : s.AtRest cfg)
    (hmid : ∀ u ∈ mid, u.stimulus ≠ .ready .rev ∧ u.stimulus ≠ .expire .rev)
    (hrun : Exchange.run cfg mid s = .ok s') : InOrder s' ∧ s'.AtRest cfg := by
  induction mid generalizing s with
  | nil =>
      cases hrun
      exact ⟨hs, h⟩
  | cons u mid ih =>
      obtain ⟨s₁, hstep, hrun⟩ := bind_ok hrun
      have hrest := h.step hs (hmid u List.mem_cons_self) hstep
      exact ih (hs.step hstep) hrest (fun u' hu' => hmid u' (List.mem_cons_of_mem u hu')) hrun

/-! ## the next request -/

section

variable {cfg : Config} {s : Exchange}

open Exchange (Follows)

/-- `kevent` has returned for an exchange. -/
def Exchange.polled (s : Exchange) : Exchange := { s with c := s.c.poll, up := s.up.poll }

/-- The configuration with other contents of a new receive buffer. -/
def Config.over (cfg : Config) (memory : List UInt8) : Config := { cfg with memory := memory }

/-- An exchange that has just been accepted, as `http_init_request` leaves it to
`ngx_http_process_request_line`. -/
def Exchange.greeted (cfg : Config) (now : BitVec 32) (slot : Slot) (fd : Int) (ip : BitVec 32) : Exchange :=
  (((Exchange.accepted cfg now slot fd ip).polled.onEvent .rev fun ev => { ev with fetched := false }).tell
    (.ran .httpInitRequest)).onRev fun ev => { ev with handler := some .ngxHttpProcessRequestLine }

theorem polled_step (hopen : s.closed = false) (calls : Calls) : s.step cfg ⟨.poll, calls⟩ = .ok s.polled := by
  unfold Exchange.step
  rw [if_neg (by simp [hopen])]
  rfl

/-- The read event that `event_accept` leaves. -/
theorem accepted_rev (cfg : Config) (now : BitVec 32) (slot : Slot) (fd : Int) (ip : BitVec 32) :
    ∃ key, (Exchange.accepted cfg now slot fd ip).c.rev =
      { handler := some .httpInitRequest, active := true, timerSet := true, timerKey := key } := by
  obtain ⟨key, hkey⟩ := @EventS.addTimer_eq { handler := some .httpInitRequest } now cfg.postAcceptTimeout rfl
  refine ⟨key, ?_⟩
  change EventS.addEvent (EventS.addTimer now cfg.postAcceptTimeout { handler := some .httpInitRequest }) = _
  rw [EventS.addEvent_eq, hkey]

/-- The first bytes of a client make `ngx_http_process_request_line` run. -/
theorem kept_reads (h : s.AtRest cfg) (calls : Calls) :
    s.polled.step cfg ⟨.ready .rev, calls⟩ =
      (s.polled.onEvent .rev fun ev => { ev with fetched := false }).ngxHttpProcessRequestLine cfg calls := by
  obtain ⟨key, fetched, hrev⟩ := h.rev
  have hruns : s.polled.Runs ⟨.ready .rev, calls⟩ .ngxHttpProcessRequestLine
      (s.polled.onEvent .rev fun ev => { ev with fetched := false }) := by
    refine .ready h.opened rfl ?_ ?_
    · exact congrArg EventS.active hrev
    · exact congrArg EventS.handler hrev
  exact hruns.step cfg

theorem accepted_reads {cfg' : Config} (now : BitVec 32) (slot : Slot) (fd : Int) (ip : BitVec 32) (calls : Calls) :
    (Exchange.accepted cfg' now slot fd ip).polled.step cfg ⟨.ready .rev, calls⟩ =
      (Exchange.greeted cfg' now slot fd ip).ngxHttpProcessRequestLine cfg calls := by
  obtain ⟨key, hrev⟩ := accepted_rev cfg' now slot fd ip
  have hruns : (Exchange.accepted cfg' now slot fd ip).polled.Runs ⟨.ready .rev, calls⟩ .httpInitRequest
      ((Exchange.accepted cfg' now slot fd ip).polled.onEvent .rev fun ev => { ev with fetched := false }) := by
    refine .ready rfl rfl ?_ ?_
    · exact congrArg EventS.active hrev
    · exact congrArg EventS.handler hrev
  refine (hruns.step cfg).trans ?_
  have htime : (Exchange.accepted cfg' now slot fd ip).c.rev.timedout = false := congrArg EventS.timedout hrev
  unfold Exchange.call Exchange.httpInitRequest
  dsimp only
  rw [if_neg]
  · rfl
  · exact Bool.eq_false_iff.mp htime

variable {Same : Prop} {memory : List UInt8}

/-- What is left of the requests before is not read. -/
theorem greeted_follows (hs : InOrder s) (h : s.AtRest cfg) (hmemory : Same → memory = s.recvBehind)
    (now : BitVec 32) (slot : Slot) (fd : Int) :
    (s.polled.onEvent .rev fun ev => { ev with fetched := false }).Follows Same (s.log.map Deed.unplaced)
      [.ran .httpInitRequest] (.greeted (cfg.over memory) now slot fd s.c.ip) := by
  obtain ⟨key, fetched, hrev⟩ := h.rev
  obtain ⟨key', hrev'⟩ := accepted_rev (cfg.over memory) now slot fd s.c.ip
  have hoff := (hs.flagged h.opened).detached (congrArg (·.upstream) h.request)
  refine ⟨⟨rfl, ?_, ?_, h.request, .inr ⟨rfl, ?_, ?_⟩, h.recvBuffer, fun hsame => (hmemory hsame).symm,
    h.sendBuffer, h.extension, h.resourceFd, h.fileSize, h.file, h.contentLength, h.bodyReceived, h.opened,
    ⟨[], ?_, rfl⟩⟩,
    fun heq => by cases heq⟩
  · change EventS.Alike { s.c.rev.poll with fetched := false }
      { (Exchange.accepted (cfg.over memory) now slot fd s.c.ip).c.rev.poll with
        fetched := false, handler := some .ngxHttpProcessRequestLine }
    rw [hrev, hrev']
    exact .mk { handler := some .ngxHttpProcessRequestLine, active := true, timerSet := true, timerKey := key' } key
      (by simp)
  · exact .unused h.wev.poll ⟨rfl, rfl, rfl, rfl⟩ rfl hs.handled.wev
  · exact ⟨⟨⟨hoff.1.active, hoff.1.timerSet⟩, hoff.1.active⟩, ⟨⟨hoff.2.active, hoff.2.timerSet⟩, hoff.2.active⟩⟩
  · exact ⟨⟨⟨rfl, rfl⟩, rfl⟩, ⟨⟨rfl, rfl⟩, rfl⟩⟩
  · rw [List.append_nil]
    rfl

/-- An exchange between two requests goes on like one that has just been
accepted, over the same memory or, where no value of the header is cut, over any
other. -/
theorem atRest_follows (hs : InOrder s) (h : s.AtRest cfg) (hmemory : Same → memory = s.recvBehind)
    {calls calls' : Calls} {us : List Turn}
    (hleft : Exchange.Always cfg Exchange.Unhindered (⟨.poll, calls⟩ :: ⟨.ready .rev, calls'⟩ :: us) s)
    (huncut : Same ∨ Exchange.Always cfg Exchange.Uncut (⟨.poll, calls⟩ :: ⟨.ready .rev, calls'⟩ :: us) s)
    (now : BitVec 32) (slot : Slot) (fd : Int) :
    Agree (Follows Same (s.log.map Deed.unplaced) [.ran .httpInitRequest])
      (Exchange.run cfg (⟨.poll, calls⟩ :: ⟨.ready .rev, calls'⟩ :: us) s)
      (Exchange.run cfg (⟨.poll, calls⟩ :: ⟨.ready .rev, calls'⟩ :: us)
        (.accepted (cfg.over memory) now slot fd s.c.ip)) := by
  have hpoll : s.step cfg ⟨.poll, calls⟩ = .ok s.polled := polled_step h.opened calls
  have hpoll' : (Exchange.accepted (cfg.over memory) now slot fd s.c.ip).step cfg ⟨.poll, calls⟩ = .ok _ :=
    polled_step rfl calls
  have hq : InOrder (Exchange.accepted (cfg.over memory) now slot fd s.c.ip).polled :=
    (inOrder_accepted (cfg.over memory) now slot fd s.c.ip).step hpoll'
  have hrest : ∀ s', s.polled.step cfg ⟨.ready .rev, calls'⟩ = .ok s' →
      Exchange.Always cfg Exchange.Unhindered us s' ∧ (Same ∨ Exchange.Always cfg Exchange.Uncut us s') :=
    fun s' hstep => ⟨(hleft.2 _ hpoll).2 s' hstep, huncut.imp_right fun huncut => (huncut.2 _ hpoll).2 s' hstep⟩
  rw [kept_reads h] at hrest
  have hline := (ngxHttpProcessRequestLine_follows cfg calls' (greeted_follows hs h hmemory now slot fd)
    rfl rfl rfl).and hrest fun t' ht' => hq.step ((accepted_reads now slot fd s.c.ip calls').trans ht')
  rw [Exchange.run, Exchange.run, hpoll, hpoll']
  change Agree _ (s.polled.step cfg ⟨.ready .rev, calls'⟩ >>= _)
    ((Exchange.accepted (cfg.over memory) now slot fd s.c.ip).polled.step cfg ⟨.ready .rev, calls'⟩ >>= _)
  rw [kept_reads h, accepted_reads]
  exact hline.bind fun s' t' h' => run_follows h'.2.2 h'.1 h'.2.1.1 h'.2.1.2

/-- When an answer is complete and the connection is kept, it is at rest until
the client sends something. -/
theorem completes_waits {now : BitVec 32} {slot : Slot} {fd : Int} {ip : BitVec 32} {ts mid : List Turn} {u : Turn}
    {s₀ s₁ s₂ s₃ : Exchange} {h : EventHandler}
    (hrun : Exchange.run cfg ts (.accepted cfg now slot fd ip) = .ok s₀)
    (hruns : s₀.Runs u h s₁) (hcompletes : s₁.Completes u.calls h) (hkeep : s₁.r.keepAlive = true)
    (hstep : s₀.step cfg u = .ok s₂)
    (hmid : ∀ u ∈ mid, u.stimulus ≠ .ready .rev ∧ u.stimulus ≠ .expire .rev)
    (hwaits : Exchange.run cfg mid s₂ = .ok s₃) : InOrder s₃ ∧ s₃.AtRest cfg := by
  have hs₀ := (run_induct (I := fun _ => True) (fun _ _ _ _ _ _ _ _ _ _ _ _ => trivial) (Exchange.always_true cfg ts _)
    (inOrder_accepted cfg now slot fd ip) trivial hrun).1
  obtain ⟨key, hrev⟩ := accepted_rev cfg now slot fd ip
  have hpunctual := punctual_run (inOrder_accepted cfg now slot fd ip)
    (punctual_of_inTime (congrArg EventS.timedout hrev)) hrun
  have hrest := completes_atRest hs₀ hpunctual hruns hcompletes hkeep hstep
  exact hrest.run (hs₀.step hstep) hmid hwaits

/-- A connection that is kept after an answer goes on, from the next request on,
like one that has just been accepted from the same client and whose receive
buffer lies over the same bytes: the same handlers run and the same is sent, or
both fail. -/
theorem kept_as_accepted {now now' : BitVec 32} {slot slot' : Slot} {fd fd' : Int} {ip : BitVec 32}
    {ts mid us : List Turn} {u : Turn} {s₀ s₁ s₂ s₃ : Exchange} {h : EventHandler} {calls calls' : Calls}
    (hrun : Exchange.run cfg ts (.accepted cfg now slot fd ip) = .ok s₀)
    (hruns : s₀.Runs u h s₁) (hcompletes : s₁.Completes u.calls h) (hkeep : s₁.r.keepAlive = true)
    (hstep : s₀.step cfg u = .ok s₂)
    (hmid : ∀ u ∈ mid, u.stimulus ≠ .ready .rev ∧ u.stimulus ≠ .expire .rev)
    (hwaits : Exchange.run cfg mid s₂ = .ok s₃)
    (hleft : Exchange.Always cfg Exchange.Unhindered (⟨.poll, calls⟩ :: ⟨.ready .rev, calls'⟩ :: us) s₃) :
    Agree (fun s' t' => ∃ ds, s'.log.map Deed.unplaced = s₃.log.map Deed.unplaced ++ ds ∧
        t'.log.map Deed.unplaced = .ran .httpInitRequest :: ds ∧ s'.closed = t'.closed)
      (Exchange.run cfg (⟨.poll, calls⟩ :: ⟨.ready .rev, calls'⟩ :: us) s₃)
      (Exchange.run cfg (⟨.poll, calls⟩ :: ⟨.ready .rev, calls'⟩ :: us)
        (.accepted (cfg.over s₃.recvBehind) now' slot' fd' s₃.c.ip)) := by
  obtain ⟨hs₃, hrest₃⟩ := completes_waits hrun hruns hcompletes hkeep hstep hmid hwaits
  refine (atRest_follows hs₃ hrest₃ (fun _ : True => rfl) hleft (.inl trivial) now' slot' fd').mono fun s' t' h' => ?_
  obtain ⟨ds, hs', ht'⟩ := h'.log
  exact ⟨ds, hs', ht', h'.closed⟩

end

/-- A write event without the handler of a file hinders nothing. -/
theorem Exchange.unhindered_of_wev {s : Exchange} (h : s.c.wev.handler ≠ some .handleResponseFile) (u : Turn) :
    s.Unhindered u := by
  intro s₁ hruns _
  obtain ⟨e, hdue⟩ := hruns.due
  exact fun heq => h ((hdue.marked .wev).handler.symm.trans heq)

/-- Where no header is read, no value is cut. -/
theorem Exchange.uncut_of_rev {s : Exchange} (h : s.c.rev.handler ≠ some .httpParseHeaders) (u : Turn) :
    s.Uncut u := by
  intro s₁ hruns _ hvalue
  obtain ⟨e, hdue⟩ := hruns.due
  exact h ((hdue.marked .rev).handler.symm.trans hvalue.header)

/-- What the turn before the last one of `twoBytesDone` leaves, and how the
connection goes on when the same is sent again. -/
def Exchange.endsTwoBytes (s₀ : Exchange) : Bool :=
  !s₀.closed && s₀.c.wev.fetched && decide (s₀.c.wev.handler = some .handleResponse) && !s₀.c.wev.timedout &&
    decide ((bufferSend s₀.sendBuffer .all).1 = .ok) && s₀.r.responseDone && s₀.r.keepAlive &&
    Exchange.runTest forwardsB
      (fun s => Exchange.alwaysTest forwardsB (fun s _ => decide (s.c.wev.handler ≠ some .handleResponseFile))
          twoBytesDone s &&
        Exchange.alwaysTest forwardsB (fun s _ => decide (s.c.rev.handler ≠ some .httpParseHeaders)) twoBytesDone s)
      [⟨.ready .wev, oneServer⟩, ⟨.poll, oneServer⟩] s₀

/-- Two bytes of the back end are sent on, and the connection is kept. -/
theorem twoBytes_kept :
    ∃ s₀ s₁ s₂ s₃, Exchange.run forwardsB (twoBytesDone.take 7) (.accepted forwardsB 0 0 5 0) = .ok s₀ ∧
      s₀.Runs ⟨.ready .wev, oneServer⟩ .handleResponse s₁ ∧ s₁.Completes oneServer .handleResponse ∧
      s₁.r.keepAlive = true ∧ s₀.step forwardsB ⟨.ready .wev, oneServer⟩ = .ok s₂ ∧
      Exchange.run forwardsB [⟨.poll, oneServer⟩] s₂ = .ok s₃ ∧
      Exchange.Always forwardsB Exchange.Unhindered twoBytesDone s₃ ∧
      Exchange.Always forwardsB Exchange.Uncut twoBytesDone s₃ := by
  have htest : Exchange.runTest forwardsB Exchange.endsTwoBytes (twoBytesDone.take 7) (.accepted forwardsB 0 0 5 0) =
      true := by decide +kernel
  obtain ⟨s₀, hrun, hends⟩ := Exchange.exists_of_runTest htest
  simp only [Exchange.endsTwoBytes, Bool.and_eq_true, Bool.not_eq_true', decide_eq_true_eq] at hends
  obtain ⟨⟨⟨⟨⟨⟨⟨hopen, hfetched⟩, hhandler⟩, htime⟩, hsent⟩, hdone⟩, hkeep⟩, hrest⟩ := hends
  obtain ⟨s₃, hrun₃, hends₃⟩ := Exchange.exists_of_runTest hrest
  obtain ⟨hleft, huncut⟩ := Bool.and_eq_true_iff.mp hends₃
  obtain ⟨s₂, hstep, hwaits⟩ := bind_ok hrun₃
  refine ⟨s₀, _, s₂, s₃, hrun, .ready hopen rfl hfetched hhandler, ⟨htime, hsent, .inl hdone⟩, hkeep, hstep, hwaits,
    ?_, ?_⟩
  · exact Exchange.always_of_alwaysTest (fun s u h => Exchange.unhindered_of_wev (of_decide_eq_true h) u) hleft
  · exact Exchange.always_of_alwaysTest (fun s u h => Exchange.uncut_of_rev (of_decide_eq_true h) u) huncut

/-- A poll brings nothing from the client. -/
theorem poll_waits : ∀ u ∈ [(⟨.poll, oneServer⟩ : Turn)], u.stimulus ≠ .ready .rev ∧ u.stimulus ≠ .expire .rev := by
  intro u hu
  rw [List.mem_singleton.mp hu]
  exact ⟨nofun, nofun⟩

theorem kept_as_accepted_twoBytes :
    ∃ s₀ s₃, Exchange.run forwardsB (twoBytesDone.take 7) (.accepted forwardsB 0 0 5 0) = .ok s₀ ∧
      Exchange.run forwardsB [⟨.ready .wev, oneServer⟩, ⟨.poll, oneServer⟩] s₀ = .ok s₃ ∧
      Agree (fun s' t' => ∃ ds, s'.log.map Deed.unplaced = s₃.log.map Deed.unplaced ++ ds ∧
          t'.log.map Deed.unplaced = .ran .httpInitRequest :: ds ∧ s'.closed = t'.closed)
        (Exchange.run forwardsB twoBytesDone s₃)
        (Exchange.run forwardsB twoBytesDone (.accepted (forwardsB.over s₃.recvBehind) 7 3 6 s₃.c.ip)) := by
  obtain ⟨s₀, s₁, s₂, s₃, hrun, hruns, hcompletes, hkeep, hstep, hwaits, hleft, -⟩ := twoBytes_kept
  refine ⟨s₀, s₃, hrun, ?_, kept_as_accepted hrun hruns hcompletes hkeep hstep poll_waits hwaits hleft⟩
  rw [Exchange.run, hstep]
  exact hwaits

/-- `Connection: clo` comes in front of the write event that clears the buffer, the
end of the line behind it. -/
def cutValue : List Turn :=
  [⟨.poll, oneServer⟩, ⟨.ready .rev, { oneServer with
      outside := { oneServer.outside with conn := fun _ => .again }
      recvLine := .bytes (text ['G', 'E', 'T', ' ', '/', 'b', ' ', 'H', 'T', 'T', 'P', '/', '1', '.', '1', '\r', '\n',
        'C', 'o', 'n', 'n', 'e', 'c', 't', 'i', 'o', 'n', ':', ' ', 'c', 'l', 'o']) }⟩,
    ⟨.poll, oneServer⟩, ⟨.ready .upWev, oneServer⟩, ⟨.poll, oneServer⟩, ⟨.ready .upWev, oneServer⟩,
    ⟨.poll, oneServer⟩, ⟨.ready .rev, { oneServer with recvHeaders := .bytes (text ['\r', '\n']) }⟩]

-- the value is read on into what the memory held before: only after `se` is it not refused
example : (Exchange.run forwardsB cutValue (.accepted forwardsB 0 0 5 0)).map (·.r.responseDone) = .ok true ∧
    (Exchange.run forwardsB cutValue (.accepted (forwardsB.over (List.replicate 32 0 ++ text ['s', 'e'])) 0 0 5 0)).map
      (·.r.responseDone) = .ok false := by decide +kernel

end PWebServer
