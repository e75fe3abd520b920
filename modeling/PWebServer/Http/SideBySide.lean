import PWebServer.Http.Follows
import PWebServer.Http.Punctual

/-!
# Http.SideBySide

The handlers of two exchanges that follow each other: both fail in the same way,
or both return and the exchanges still follow each other (`run_follows`).

There are two handlers that read what is left over.  `http_recv_upstream` keeps
the handler of the client's write event if there is one, and that of a file may
be left from an answer before; `Exchange.Unhindered` excludes it.
`http_parse_headers` compares a value past what was received if `http_proxy_pass`
has emptied the buffer under it; where `Exchange.Uncut` excludes that, the memory
of the two buffers need not be the same.
-/

namespace PWebServer

open Function Lockstep

section

variable {Same : Prop} {cfg : Config} {calls : Calls} {pre pre' : List Deed} {s t : Exchange}

open Exchange (Follows)

/-! ## the ends of a request -/

theorem httpCloseRequest_stamped (now : BitVec 32) (servers : Servers) (r : HttpRequest) (o : Option Slot) (n : Str) :
    httpCloseRequest now servers (r.stamped o n) = httpCloseRequest now servers r := rfl

theorem httpCloseRequest_beside (h : s.Beside Same pre pre' t) (calls : Calls) :
    (s.httpCloseRequest calls).Follows Same pre pre' (t.httpCloseRequest calls) := by
  have hacts : (httpCloseRequest calls.now calls.servers s.r).2 =
      (httpCloseRequest calls.now calls.servers t.r).2 := by
    rw [h.request, httpCloseRequest_stamped]
  obtain ⟨ds, hs, ht⟩ := h.log
  rw [httpCloseRequest_eq, httpCloseRequest_eq, hacts, h.curUpstream]
  refine { h with
    rev := h.rev.close
    wev := h.wev.close
    request := congrArg (fun r : HttpRequest => { r with upstream := none }) h.request
    parsing := fun _ _ hopen => by cases hopen
    up := ?_
    resourceFd := by dsimp only; rw [h.resourceFd]
    closed := rfl
    log := ⟨_, by rw [List.map_append, hs, List.append_assoc], by rw [List.map_append, ht, List.append_assoc]⟩ }
  dsimp only
  rw [h.upstream]
  split
  · next hnone => exact h.up.imp_right fun hgone => ⟨rfl, hgone.2⟩
  · next hup => exact .inl (by rw [h.attached hup])

theorem httpCloseRequest_follows (h : s.Follows Same pre pre' t) (calls : Calls) :
    (s.httpCloseRequest calls).Follows Same pre pre' (t.httpCloseRequest calls) :=
  httpCloseRequest_beside h.toBeside calls

theorem httpClearRequest_beside (cfg : Config) (calls : Calls) (h : s.Follows Same pre pre' t) :
    (s.httpClearRequest cfg calls).Beside Same pre pre' (t.httpClearRequest cfg calls) := by
  have htold := (h.tell (.discard s.places) (.discard t.places) rfl).tell (.clearRequest s.r.curUpstream)
    (.clearRequest t.r.curUpstream) (by rw [h.curUpstream])
  rw [httpClearRequest_eq, httpClearRequest_eq]
  refine ⟨h.ip, h.rev, h.wev, rfl, ?_, rfl, ?_, rfl, rfl, rfl, rfl, rfl, rfl, rfl, h.closed, ?_⟩
  · dsimp only
    rw [h.upstream]
    split
    · exact h.up.imp_right fun hgone => ⟨rfl, hgone.2⟩
    · next hup => exact .inl (by rw [h.attached hup])
  · intro hsame
    dsimp only
    rw [h.recvBuffer, h.recvBehind hsame]
  · have hlog := htold.log
    simp only [Exchange.tell, List.append_assoc, List.singleton_append] at hlog
    exact hlog

theorem httpResponseDone_follows (h : s.Follows Same pre pre' t) (hwev : s.c.wev.Alike t.c.wev) :
    Agree (Follows Same pre pre') (s.httpResponseDone cfg calls) (t.httpResponseDone cfg calls) := by
  unfold Exchange.httpResponseDone
  refine Agree.ite (by rw [h.done]) (fun _ => .error _) fun _ => ?_
  have htold := h.tell .responseDone .responseDone rfl
  refine Agree.ite (by rw [htold.keepAlive]) (fun _ => .ok ?_) fun _ => .ok (httpCloseRequest_follows htold calls)
  have hcleared := httpClearRequest_beside cfg calls htold
  have hwev' : ((s.tell .responseDone).httpClearRequest cfg calls).c.wev.delEvent.Alike
      ((t.tell .responseDone).httpClearRequest cfg calls).c.wev.delEvent := by
    rw [httpClearRequest_eq, httpClearRequest_eq]
    exact hwev.delEvent
  refine { hcleared with
    rev := (hcleared.rev.addEvent.setHandler _).addTimer _ _
    wev := .alike hwev'
    parsing := fun heq => ?_ }
  have hline := (EventS.addTimer_handler _ _ _).symm.trans heq
  cases hline

/-- A response that is complete. -/
theorem responseDone_follows (h : s.Follows Same pre pre' t) (hwev : s.c.wev.Alike t.c.wev) :
    Agree (Follows Same pre pre') (Exchange.httpResponseDone cfg calls { s with r := { s.r with responseDone := true } })
      (Exchange.httpResponseDone cfg calls { t with r := { t.r with responseDone := true } }) := by
  refine httpResponseDone_follows (h.setRequest (fun r => { r with responseDone := true }) ?_ rfl ?_) hwev
  · exact congrArg (fun r : HttpRequest => { r with responseDone := true }) h.request
  · exact fun _ hdone => by cases hdone

/-! ## the client's write event -/

theorem handleResponseFile_follows (h : s.Follows Same pre pre' t) (hwev : s.c.wev.Alike t.c.wev) :
    Agree (Follows Same pre pre') (s.handleResponseFile cfg calls) (t.handleResponseFile cfg calls) := by
  unfold Exchange.handleResponseFile
  replace h := h.tell (.ran .handleResponseFile) (.ran .handleResponseFile) rfl
  replace hwev : (s.tell (.ran .handleResponseFile)).c.wev.Alike (t.tell (.ran .handleResponseFile)).c.wev := hwev
  generalize s.tell (.ran .handleResponseFile) = s at h hwev ⊢
  generalize t.tell (.ran .handleResponseFile) = t at h hwev ⊢
  dsimp only
  refine Agree.ite (by rw [hwev.timedout]) (fun _ => h.constructErr 404) fun _ => ?_
  rw [h.fileSize, h.file]
  refine Agree.bind_same fun v => ?_
  obtain ⟨ret, file, os⟩ := v
  dsimp only
  have hsent := h.tell (.fileToClient (file.sent.drop t.file.sent.length))
    (.fileToClient (file.sent.drop t.file.sent.length)) rfl
  replace hsent : Follows Same pre pre' { s.tell (.fileToClient (file.sent.drop t.file.sent.length)) with file := file }
      { t.tell (.fileToClient (file.sent.drop t.file.sent.length)) with file := file } := { hsent with file := rfl }
  cases ret with
  | none => exact .error _
  | some ret =>
      cases ret with
      | ok => exact responseDone_follows hsent hwev
      | error => exact .ok (httpCloseRequest_follows hsent calls)
      | again | invalidRequest =>
          refine Agree.ite (by exact iff_of_eq (congrArg (· = true) hwev.timerSet)) (fun _ => .ok ?_) fun _ => .ok hsent
          exact hsent.onWev (.alike (hwev.addTimer _ _))

theorem handleResponse_follows (h : s.Follows Same pre pre' t) (hwev : s.c.wev.Alike t.c.wev) :
    Agree (Follows Same pre pre') (s.handleResponse cfg calls) (t.handleResponse cfg calls) := by
  unfold Exchange.handleResponse
  replace h := h.tell (.ran .handleResponse) (.ran .handleResponse) rfl
  replace hwev : (s.tell (.ran .handleResponse)).c.wev.Alike (t.tell (.ran .handleResponse)).c.wev := hwev
  generalize s.tell (.ran .handleResponse) = s at h hwev ⊢
  generalize t.tell (.ran .handleResponse) = t at h hwev ⊢
  dsimp only
  refine Agree.ite (by rw [hwev.timedout]) (fun _ => .ok (httpCloseRequest_follows h calls)) fun _ => ?_
  rw [h.sendBuffer]
  generalize bufferSend t.sendBuffer calls.send = v
  obtain ⟨err, xs, b⟩ := v
  have hsent := h.tell (.toClient xs) (.toClient xs) rfl
  replace hsent : Follows Same pre pre' { s.tell (.toClient xs) with sendBuffer := b }
      { t.tell (.toClient xs) with sendBuffer := b } := { hsent with sendBuffer := rfl }
  dsimp only
  cases err with
  | ok =>
      refine Agree.ite (by exact iff_of_eq (congrArg (· = true) h.done))
        (fun _ => httpResponseDone_follows hsent hwev) fun _ => ?_
      refine Agree.ite (by exact iff_of_eq (congrArg (· ≠ none) h.upstream)) (fun _ => .ok ?_) fun _ => ?_
      · exact hsent.onWev (.alike hwev.delEvent)
      · refine Agree.ite (by exact iff_of_eq (congrArg (0 < ·) h.resourceFd)) (fun _ => ?_) fun _ => ?_
        · exact handleResponseFile_follows (hsent.onWev (.alike (hwev.setHandler _))) (hwev.setHandler _)
        · exact responseDone_follows hsent hwev
  | again => exact .ok (hsent.onWev (.alike (hwev.addTimer _ _)))
  | error | invalidRequest => exact .ok (httpCloseRequest_follows hsent calls)

/-! ## the client's read event -/

theorem parseRequestBodyIdentity_follows (h : s.Follows Same pre pre' t)
    (hrev : t.c.rev.handler ≠ some .httpParseHeaders) :
    s.parseRequestBodyIdentity.1 = t.parseRequestBodyIdentity.1 ∧
      s.parseRequestBodyIdentity.2.Follows Same pre pre' t.parseRequestBodyIdentity.2 := by
  unfold Exchange.parseRequestBodyIdentity
  rw [h.contentLength, h.recvBuffer, h.bodyReceived]
  split
  · exact ⟨rfl, h⟩
  · have hbody : ∀ b n m, Follows Same pre pre' { s with recvBuffer := b, contentLength := n, bodyReceived := m }
        { t with recvBuffer := b, contentLength := n, bodyReceived := m } := fun b n m =>
      { h with recvBuffer := rfl, contentLength := rfl, bodyReceived := rfl, parsing := fun heq => absurd heq hrev }
    dsimp only
    split
    · exact ⟨rfl, hbody _ _ _⟩
    · exact ⟨rfl, hbody _ _ _⟩

theorem requestState_follows (h : s.Follows Same pre pre' t) (hrev : t.c.rev.handler ≠ some .httpParseHeaders)
    (st : ReqState) :
    Follows Same pre pre' { s with r := { s.r with state := st } } { t with r := { t.r with state := st } } :=
  h.setRequest (fun r => { r with state := st })
    (congrArg (fun r : HttpRequest => { r with state := st }) h.request) rfl (fun heq => absurd heq hrev)

theorem requestHandleBody_follows (h : s.Follows Same pre pre' t) (hrev : t.c.rev.handler ≠ some .httpParseHeaders) :
    Agree (Follows Same pre pre') (s.requestHandleBody cfg calls) (t.requestHandleBody cfg calls) := by
  unfold Exchange.requestHandleBody
  replace h := h.tell (.ran .requestHandleBody) (.ran .requestHandleBody) rfl
  replace hrev : (t.tell (.ran .requestHandleBody)).c.rev.handler ≠ some .httpParseHeaders := hrev
  generalize s.tell (.ran .requestHandleBody) = s at h ⊢
  generalize t.tell (.ran .requestHandleBody) = t at h hrev ⊢
  dsimp only
  refine Agree.ite (by rw [h.rev.timedout]) (fun _ => h.constructErr 404) fun _ => ?_
  obtain ⟨hret, hrecv⟩ := h.recvClient calls.recvBody
  replace hrev : (t.recvClient calls.recvBody).2.c.rev.handler ≠ some .httpParseHeaders := hrev
  generalize s.recvClient calls.recvBody = v at hret hrecv ⊢
  generalize t.recvClient calls.recvBody = v' at hret hrecv hrev ⊢
  obtain ⟨n, s₁⟩ := v
  obtain ⟨n', t₁⟩ := v'
  dsimp only at hret hrecv hrev ⊢
  rw [hret]
  refine Agree.ite Iff.rfl (fun _ => .ok (httpCloseRequest_follows hrecv calls)) fun _ => ?_
  obtain ⟨hret₁, hbody⟩ := parseRequestBodyIdentity_follows hrecv hrev
  have hrev₂ : t₁.parseRequestBodyIdentity.2.c.rev.handler ≠ some .httpParseHeaders := by
    unfold Exchange.parseRequestBodyIdentity
    split
    · exact hrev
    · dsimp only
      split
      · exact hrev
      · exact hrev
  generalize s₁.parseRequestBodyIdentity = v at hret₁ hbody ⊢
  generalize t₁.parseRequestBodyIdentity = v' at hret₁ hbody hrev₂ ⊢
  obtain ⟨ret, s₂⟩ := v
  obtain ⟨ret', t₂⟩ := v'
  dsimp only at hret₁ hbody hrev₂ ⊢
  subst hret₁
  cases ret with
  | again =>
      dsimp only
      replace hbody : Follows Same pre pre' { s₂ with recvBuffer := { s₂.recvBuffer with begin := 0 } }
          { t₂ with recvBuffer := { t₂.recvBuffer with begin := 0 } } :=
        { hbody with
          recvBuffer := by dsimp only; rw [hbody.recvBuffer]
          parsing := fun heq => absurd heq hrev₂ }
      refine Agree.ite (by exact iff_of_eq (congrArg (· = none) hbody.upstream)) (fun _ => .ok hbody) fun hup => ?_
      have hsame := hbody.attached hup
      refine Agree.ite (by exact iff_of_eq (congrArg (·.isConnected = true) hsame)) (fun _ => .ok ?_) fun _ => .ok ?_
      · exact hbody.delRev.onUpWev hsame _
      · exact requestState_follows hbody hrev₂ _
  | ok =>
      dsimp only
      replace hbody := hbody.delRev
      have hrev₃ : (t₂.onRev EventS.delEvent).c.rev.handler ≠ some .httpParseHeaders := by
        rw [← EventS.delEvent_handler] at hrev₂
        exact hrev₂
      generalize s₂.onRev EventS.delEvent = s₃ at hbody ⊢
      generalize t₂.onRev EventS.delEvent = t₃ at hbody hrev₃ ⊢
      refine Agree.ite (by rw [hbody.upstream]) (fun _ => ?_) fun hup => ?_
      · have hset := hbody.wev.setHandler (some .handleResponse)
        have hwait := hbody.onWev (f := fun ev => { ev with handler := some .handleResponse }) (.alike hset)
        refine Agree.ite (by rw [hwait.done]) (fun _ => .ok hwait) fun _ => ?_
        have hadd := hwait.onWev (.alike hset.addEvent)
        have hstatus := hadd.setRequest (fun r => { r with status := 200 })
          (congrArg (fun r : HttpRequest => { r with status := 200 }) hadd.request) rfl
          (fun heq => absurd heq hrev₃)
        refine hstatus.constructResponse.bind fun a a' ha => .ok ?_
        refine ha.1.onWev (.alike ?_)
        rw [ha.2.1, ha.2.2]
        exact hset.addEvent.addTimer _ _
      · have hsame := hbody.attached hup
        refine Agree.ite (by rw [hsame]) (fun _ => .ok ?_) fun _ => .ok ?_
        · exact (hbody.rewindRecv hrev₃).onUpWev hsame _
        · exact requestState_follows (hbody.rewindRecv hrev₃) hrev₃ _
  | error | invalidRequest => exact hbody.constructErr 400

end

section

variable {Same : Prop} {cfg : Config} {calls : Calls} {pre pre' : List Deed} {s t : Exchange}

open Exchange (Follows)

/-! ## the selection of a back end -/

/-- The exchanges follow each other and have the same back end; the handler of
the read event is still that of `t`, and the connection is as open. -/
structure Exchange.Abides (Same : Prop) (pre pre' : List Deed) (t s' t' : Exchange) : Prop where
  follows : s'.Follows Same pre pre' t'
  up : s'.up = t'.up
  handler : t'.c.rev.handler = t.c.rev.handler
  closed : t'.closed = t.closed

open Exchange (Abides)

theorem constructErr_answers (h : s.Follows Same pre pre' t) (err : Int) :
    Agree (fun s' t' => s'.Follows Same pre pre' t' ∧ Answered s s' err ∧ Answered t t' err)
      (s.constructErr cfg err) (t.constructErr cfg err) :=
  (h.constructErr err).and (fun _ => constructErr_answered) (fun _ => constructErr_answered)

theorem constructErr_abides (h : s.Follows Same pre pre' t) (hup : s.up = t.up) (err : Int) :
    Agree (Abides Same pre pre' t) (s.constructErr cfg err) (t.constructErr cfg err) := by
  refine (constructErr_answers h err).mono fun s' t' h' => ⟨h'.1, ?_, ?_, h'.2.2.closed⟩
  · exact h'.2.1.up.trans (hup.trans h'.2.2.up.symm)
  · rw [h'.2.2.rev, EventS.delEvent_handler]

theorem initUpstreamConnection_abides (cfg : Config) (calls : Calls) (h : s.Follows Same pre pre' t)
    (hup : s.up = t.up) :
    Abides Same pre pre' t (s.initUpstreamConnection cfg calls) (t.initUpstreamConnection cfg calls) := by
  have hsame : (s.initUpstreamConnection cfg calls).up = (t.initUpstreamConnection cfg calls).up := by
    simp only [Exchange.initUpstreamConnection, hup]
  exact ⟨{ h with up := .inl hsame }, hsame, rfl, rfl⟩

theorem onUpWev_abides (h : s.Follows Same pre pre' t) (hup : s.up = t.up) (f : EventS → EventS) :
    Abides Same pre pre' t (s.onUpWev f) (t.onUpWev f) :=
  ⟨h.onUpWev hup f, by simp only [Exchange.onUpWev, hup], rfl, rfl⟩

theorem tryConnect_abides (cfg : Config) (calls : Calls) (h : s.Follows Same pre pre' t) (hup : s.up = t.up) (k : Nat)
    (ret : Ret) :
    Abides Same pre pre' t (s.tryConnect cfg calls k ret) (t.tryConnect cfg calls k ret) := by
  unfold Exchange.tryConnect
  dsimp only
  have hsocket : Abides Same pre pre' t
      (if s.up.fd ≤ 0 then { s with up := { s.up with fd := calls.socket } } else s)
      (if t.up.fd ≤ 0 then { t with up := { t.up with fd := calls.socket } } else t) := by
    rw [hup]
    split
    · exact ⟨h.setUp _, rfl, rfl, rfl⟩
    · exact ⟨h, hup, rfl, rfl⟩
  generalize (if s.up.fd ≤ 0 then { s with up := { s.up with fd := calls.socket } } else s) = s₁ at hsocket ⊢
  generalize (if t.up.fd ≤ 0 then { t with up := { t.up with fd := calls.socket } } else t) = t₁ at hsocket ⊢
  obtain ⟨hfollows, hup₁, hrev, hclosed⟩ := hsocket
  cases ret with
  | ok =>
      have hinit := initUpstreamConnection_abides cfg calls hfollows hup₁
      exact ⟨hinit.follows, hinit.up, hinit.handler.trans hrev, hinit.closed.trans hclosed⟩
  | again =>
      have hwait := onUpWev_abides hfollows hup₁ fun ev =>
        ({ ev with handler := some .processConnectionResultOfUpstream }).addEvent.addTimer
          calls.now cfg.postAcceptTimeout
      exact ⟨hwait.follows, hwait.up, hwait.handler.trans hrev, hwait.closed.trans hclosed⟩
  | error | invalidRequest =>
      dsimp only
      split
      · have hdel := onUpWev_abides hfollows hup₁ EventS.delEvent
        exact ⟨hdel.follows, hdel.up, hdel.handler.trans hrev, hdel.closed.trans hclosed⟩
      · exact ⟨hfollows, hup₁, hrev, hclosed⟩

theorem applyActs_abides (acts : List Act) (k : Nat) (h : s.Follows Same pre pre' t) (hup : s.up = t.up) :
    Agree (Abides Same pre pre' t) (s.applyActs cfg calls k acts) (t.applyActs cfg calls k acts) := by
  induction acts generalizing k s t with
  | nil => exact .ok ⟨h, hup, rfl, rfl⟩
  | cons a acts ih =>
      have htold := h.tell (.balancer a) (.balancer a) rfl
      cases a with
      | tryConnect us ret =>
          have hconnect := tryConnect_abides cfg calls htold hup k ret
          refine (ih _ hconnect.follows hconnect.up).mono fun s' t' h' => ?_
          exact ⟨h'.follows, h'.up, h'.handler.trans hconnect.handler, h'.closed.trans hconnect.closed⟩
      | constructErr err =>
          refine (constructErr_abides htold hup err).bind fun s' t' h' => ?_
          refine (ih k h'.follows h'.up).mono fun s'' t'' h'' => ?_
          exact ⟨h''.follows, h''.up, h''.handler.trans h'.handler, h''.closed.trans h'.closed⟩
      | connectFailed us | connectTimedout us | free us =>
          exact (ih k htold hup).mono fun s' t' h' => ⟨h'.follows, h'.up, h'.handler, h'.closed⟩

theorem tryConnectUpstream_abides (h : s.Follows Same pre pre' t) (hup : s.up = t.up) (hcur : t.r.curUpstream = none)
    {target target' : Option (List UInt8)} (htarget : target = target') :
    Agree (Abides Same pre pre' t) (s.tryConnectUpstream cfg calls target) (t.tryConnectUpstream cfg calls target') := by
  subst htarget
  unfold Exchange.tryConnectUpstream
  dsimp only
  rw [h.ip]
  have hstamped := tryConnectUpstream_stamped (o := s.r.connection) (n := s.r.headerName) cfg.loadBalance
    { calls.outside with now := calls.now, ip := t.c.ip } calls.servers calls.rings t.r target
  rw [← h.request] at hstamped
  rw [hstamped]
  cases hsel : tryConnectUpstream cfg.loadBalance { calls.outside with now := calls.now, ip := t.c.ip } calls.servers
      calls.rings t.r target with
  | error e => exact .error e
  | ok sel =>
      have hnext : Follows Same pre pre' { s with r := sel.r.stamped s.r.connection s.r.headerName }
          { t with r := sel.r } := by
        refine { h with request := rfl, parsing := fun heq hdone hopen => ?_, up := .inl hup }
        -- the selection keeps the name, or gives up
        cases tryConnectUpstream_chooses hcur hsel with
        | inl hkept =>
            have hframe := hkept.frame
            dsimp only at hdone ⊢
            rw [hframe] at hdone ⊢
            exact (h.parsing heq hdone hopen).of_same rfl rfl rfl rfl
        | inr hgives =>
            obtain ⟨r₁, -, -, hr, -⟩ := hgives
            dsimp only at hdone
            rw [hr] at hdone
            cases hdone
      change Agree _
        (Exchange.applyActs cfg calls 0 sel.acts { s with r := sel.r.stamped s.r.connection s.r.headerName })
        (Exchange.applyActs cfg calls 0 sel.acts { t with r := sel.r })
      exact (applyActs_abides sel.acts 0 hnext hup).mono fun s' t' h' => ⟨h'.follows, h'.up, h'.handler, h'.closed⟩

/-! ## the request line and the header -/

theorem uriDone_follows (h : s.Follows Same pre pre' t) : s.uriDone.Follows Same pre pre' t.uriDone := by
  have hextension : Exchange.processExtension s.recvBuffer.bytes s.r.uri =
      Exchange.processExtension t.recvBuffer.bytes t.r.uri := by
    rw [h.recvBuffer, h.uri]
  unfold Exchange.uriDone
  rw [h.version]
  split
  · exact { h with
      request := congrArg (fun r : HttpRequest => { r with keepAlive := true }) h.request
      parsing := fun heq hdone hopen => (h.parsing heq hdone hopen).of_same rfl rfl rfl rfl
      extension := hextension }
  · exact { h with extension := hextension }

/-- What is opened for a file. -/
theorem openFile_follows (h : s.Follows Same pre pre' t) (fd : Int) (size : Nat) :
    Follows Same pre pre' { s with resourceFd := fd, fileSize := size, file := { resourceLen := size } }
      { t with resourceFd := fd, fileSize := size, file := { resourceLen := size } } :=
  { h with resourceFd := rfl, fileSize := rfl, file := rfl }

/-- The lookup ends the path with a NUL. -/
theorem requestProcessUri_leaves (locations : List UInt8 → Bool) (uri : Uri) (b : Buffer) :
    (requestProcessUri locations uri b).2.bytes.length = b.bytes.length ∧
      (requestProcessUri locations uri b).2.begin = b.begin := by
  unfold requestProcessUri
  split
  · exact ⟨rfl, rfl⟩
  · unfold processAbsPath
    cases uri.absPath.c with
    | none => exact ⟨rfl, rfl⟩
    | some p => exact ⟨List.length_set, rfl⟩

theorem requestProcessUri_follows (h : s.Follows Same pre pre' t) (hcur : t.r.curUpstream = none) :
    Agree (fun s' t' => s'.Follows Same pre pre' t' ∧ t'.c.rev.handler = t.c.rev.handler ∧ t'.closed = t.closed)
      (s.requestProcessUri cfg calls) (t.requestProcessUri cfg calls) := by
  have hleaves := requestProcessUri_leaves cfg.locations t.r.uri t.recvBuffer
  unfold Exchange.requestProcessUri
  rw [h.uri, h.recvBuffer, h.upstream]
  have herr : ∀ {s₁ t₁ : Exchange}, s₁.Follows Same pre pre' t₁ → t₁.c.rev.handler = t.c.rev.handler →
      t₁.closed = t.closed → ∀ err,
      Agree (fun s' t' => s'.Follows Same pre pre' t' ∧ t'.c.rev.handler = t.c.rev.handler ∧ t'.closed = t.closed)
        (s₁.constructErr cfg err) (t₁.constructErr cfg err) := fun h₁ hrev hclosed err => by
    refine (constructErr_answers h₁ err).mono fun s' t' h' => ⟨h'.1, ?_, h'.2.2.closed.trans hclosed⟩
    rw [h'.2.2.rev, EventS.delEvent_handler]
    exact hrev
  generalize requestProcessUri cfg.locations t.r.uri t.recvBuffer = v at hleaves ⊢
  obtain ⟨lookup, b⟩ := v
  cases lookup with
  | upstream =>
      dsimp only
      refine Agree.ite Iff.rfl (fun _ => .error _) fun _ => ?_
      cases calls.slot with
      | none => exact .error _
      | some slot =>
          have htold := h.tell .openUpstream .openUpstream rfl
          have hattached : Follows Same pre pre' { s.tell .openUpstream with
              r := { (s.tell .openUpstream).r with upstream := some slot }, up := .idle }
              { t.tell .openUpstream with
                r := { (t.tell .openUpstream).r with upstream := some slot }, up := .idle } :=
            { htold with
              request := congrArg (fun r : HttpRequest => { r with upstream := some slot }) h.request
              parsing := fun heq hdone hopen => (h.parsing heq hdone hopen).of_same rfl rfl rfl rfl
              up := .inl rfl }
          refine Agree.bind (tryConnectUpstream_abides hattached rfl hcur ?_) fun s' t' h' => ?_
          · change some (s.r.uri.absPath.text s.recvBuffer.bytes) = some (t.r.uri.absPath.text t.recvBuffer.bytes)
            rw [h.uri, h.recvBuffer]
          · exact .ok ⟨uriDone_follows h'.follows, h'.handler, h'.closed⟩
  | openat path =>
      dsimp only
      have hbuf : Follows Same pre pre' { s with recvBuffer := b } { t with recvBuffer := b } :=
        { h with
          recvBuffer := rfl
          parsing := fun heq hdone hopen => (h.parsing heq hdone hopen).imp fun k hread =>
            ⟨k, hread.over hleaves.1 hleaves.2.ge (hleaves.2.trans_le (hread.begins.trans hleaves.1.ge))⟩ }
      refine Agree.ite Iff.rfl (fun _ => herr hbuf rfl rfl 404) fun _ => ?_
      refine Agree.ite Iff.rfl (fun _ => ?_) fun _ => .ok ⟨uriDone_follows (openFile_follows hbuf _ _), rfl, rfl⟩
      refine Agree.ite Iff.rfl (fun _ => herr hbuf rfl rfl 403) fun _ => ?_
      exact .ok ⟨uriDone_follows (openFile_follows hbuf _ _), rfl, rfl⟩

theorem httpParseHeaders_follows (h : s.Follows Same pre pre' t) (hrev : t.c.rev.handler = some .httpParseHeaders)
    (hopen : t.closed = false) :
    Agree (Follows Same pre pre') (s.httpParseHeaders cfg calls) (t.httpParseHeaders cfg calls) := by
  unfold Exchange.httpParseHeaders
  replace h := h.tell (.ran .httpParseHeaders) (.ran .httpParseHeaders) rfl
  replace hrev : (t.tell (.ran .httpParseHeaders)).c.rev.handler = some .httpParseHeaders := hrev
  replace hopen : (t.tell (.ran .httpParseHeaders)).closed = false := hopen
  generalize s.tell (.ran .httpParseHeaders) = s at h ⊢
  generalize t.tell (.ran .httpParseHeaders) = t at h hrev hopen ⊢
  dsimp only
  refine Agree.ite (by rw [h.rev.timedout]) (fun _ => ?_) fun _ => ?_
  · refine (h.setRequest (fun r => { r with keepAlive := false }) ?_ rfl fun heq hdone hopen => ?_).constructErr 404
    · exact congrArg (fun r : HttpRequest => { r with keepAlive := false }) h.request
    · exact (h.parsing heq hdone hopen).of_same rfl rfl rfl rfl
  obtain ⟨hret, hrecv⟩ := h.recvClient calls.recvHeaders
  replace hrev : (t.recvClient calls.recvHeaders).2.c.rev.handler = some .httpParseHeaders := hrev
  replace hopen : (t.recvClient calls.recvHeaders).2.closed = false := hopen
  generalize s.recvClient calls.recvHeaders = v at hret hrecv ⊢
  generalize t.recvClient calls.recvHeaders = v' at hret hrecv hrev hopen ⊢
  obtain ⟨n, s₁⟩ := v
  obtain ⟨n', t₁⟩ := v'
  dsimp only at hret hrecv hrev hopen ⊢
  rw [hret]
  refine Agree.ite Iff.rfl (fun _ => .ok (httpCloseRequest_follows hrecv calls)) fun _ => ?_
  have hloop : Agree (HeadersConn.Follows Same) (headersLoop s₁.r s₁.recvBuffer s₁.recvBehind)
      (headersLoop t₁.r t₁.recvBuffer t₁.recvBehind) := by
    have hparsing := hrecv.parsing hrev
    rw [hrecv.request, hrecv.recvBuffer]
    refine headersLoop_follows hrecv.recvBehind fun hdone => ?_
    rw [← hrecv.request]
    exact hparsing hdone hopen
  refine (hloop.and (fun _ _ => trivial) (fun _ => headersLoop_frame)).bind fun d d' hd => ?_
  obtain ⟨hd, -, hframe⟩ := hd
  have hbeside : Exchange.Beside Same pre pre' { s₁ with r := d.r, recvBuffer := d.b, recvBehind := d.behind }
      { t₁ with r := d'.r, recvBuffer := d'.b, recvBehind := d'.behind } :=
    { hrecv with
      request := hd.r
      up := by
        dsimp only
        rw [hframe]
        exact hrecv.up
      recvBuffer := hd.b
      recvBehind := hd.behind }
  have hnext : d'.status ≠ .closed → Follows Same pre pre'
      { s₁ with r := d.r, recvBuffer := d.b, recvBehind := d.behind }
      { t₁ with r := d'.r, recvBuffer := d'.b, recvBehind := d'.behind } := fun hstatus =>
    ⟨hbeside, fun _ hdone _ => hd.parsing hdone hstatus⟩
  have hfailed : (d.r.responseDone && !s₁.r.responseDone) = (d'.r.responseDone && !t₁.r.responseDone) := by
    rw [hbeside.done, hrecv.done]
  rw [hd.status, hfailed]
  cases hstatus : d'.status with
  | waiting =>
      replace hnext := hnext (by simp [hstatus])
      refine Agree.ite (by rw [hrecv.rev.timerSet]) (fun _ => .ok hnext) fun _ => .ok (hnext.addTimerRev _ _)
  | answered | closed => exact .ok (httpCloseRequest_beside hbeside calls)
  | body =>
      replace hnext := hnext (by simp [hstatus])
      have hbody : ∀ {s t : Exchange}, s.Follows Same pre pre' t → Agree (Follows Same pre pre')
          (Exchange.requestHandleBody cfg calls ((s.tell (.headersRead s.headersEnd)).onRev fun ev =>
            { ev with handler := some .requestHandleBody }))
          (Exchange.requestHandleBody cfg calls ((t.tell (.headersRead t.headersEnd)).onRev fun ev =>
            { ev with handler := some .requestHandleBody })) := fun {s t} h => by
        have htold := h.tell (.headersRead s.headersEnd) (.headersRead t.headersEnd) rfl
        refine requestHandleBody_follows (htold.onRev (htold.rev.setHandler _) (.inr ?_)) ?_
        · exact fun heq => by cases heq
        · exact fun heq => by cases heq
      refine Agree.ite Iff.rfl (fun _ => ?_) fun _ => hbody hnext
      exact (hnext.constructErr 400).bind fun _ _ h => hbody h

end

section

variable {Same : Prop} {cfg : Config} {calls : Calls} {pre pre' : List Deed} {s t : Exchange}

open Exchange (Follows)

theorem ngxHttpProcessRequestLine_follows (cfg : Config) (calls : Calls) (h : s.Follows Same pre pre' t)
    (hrev : t.c.rev.handler = some .ngxHttpProcessRequestLine) (hcur : t.r.curUpstream = none)
    (hopen : t.closed = false) :
    Agree (Follows Same pre pre') (s.ngxHttpProcessRequestLine cfg calls) (t.ngxHttpProcessRequestLine cfg calls) := by
  have hline : t.c.rev.handler ≠ some .httpParseHeaders := by
    rw [hrev]
    exact fun heq => by cases heq
  unfold Exchange.ngxHttpProcessRequestLine
  replace h := h.tell (.ran .ngxHttpProcessRequestLine) (.ran .ngxHttpProcessRequestLine) rfl
  replace hline : (t.tell (.ran .ngxHttpProcessRequestLine)).c.rev.handler ≠ some .httpParseHeaders := hline
  replace hcur : (t.tell (.ran .ngxHttpProcessRequestLine)).r.curUpstream = none := hcur
  replace hopen : (t.tell (.ran .ngxHttpProcessRequestLine)).closed = false := hopen
  generalize s.tell (.ran .ngxHttpProcessRequestLine) = s at h ⊢
  generalize t.tell (.ran .ngxHttpProcessRequestLine) = t at h hline hcur hopen ⊢
  dsimp only
  refine Agree.ite (by rw [h.rev.timedout]) (fun _ => h.constructErr 404) fun _ => ?_
  obtain ⟨hret, hrecv⟩ := h.recvClient calls.recvLine
  replace hline : (t.recvClient calls.recvLine).2.c.rev.handler ≠ some .httpParseHeaders := hline
  replace hcur : (t.recvClient calls.recvLine).2.r.curUpstream = none := hcur
  replace hopen : (t.recvClient calls.recvLine).2.closed = false := hopen
  generalize s.recvClient calls.recvLine = v at hret hrecv ⊢
  generalize t.recvClient calls.recvLine = v' at hret hrecv hline hcur hopen ⊢
  obtain ⟨n, s₁⟩ := v
  obtain ⟨n', t₁⟩ := v'
  dsimp only at hret hrecv hline hcur hopen ⊢
  rw [hret]
  refine Agree.ite Iff.rfl (fun _ => .ok (httpCloseRequest_follows hrecv calls)) fun _ => ?_
  have hstamped := parseRequestLine_stamped (o := s₁.r.connection) (n := s₁.r.headerName) t₁.r t₁.recvBuffer
  rw [← hrecv.request, ← hrecv.recvBuffer] at hstamped
  rw [hstamped, hrecv.recvBuffer]
  cases hparse : parseRequestLine t₁.r t₁.recvBuffer with
  | mk ret rest =>
      obtain ⟨r, b⟩ := rest
      have hframe := parseRequestLine_frame hparse
      have hup : s₁.up = t₁.up ∨ r.upstream = none ∧ s₁.up.Unused ∧ t₁.up.Unused := by
        rw [hframe]
        exact hrecv.up
      have hnext : Follows Same pre pre'
          { s₁ with r := r.stamped s₁.r.connection s₁.r.headerName, recvBuffer := b }
          { t₁ with r := r, recvBuffer := b } :=
        { hrecv with
          request := rfl
          parsing := fun heq => absurd heq hline
          up := hup
          recvBuffer := rfl }
      cases ret with
      | ok =>
          have hb : b.begin ≤ b.bytes.length := by
            rw [parseRequestLine_eq] at hparse
            exact (parseCall_ok hparse).2.trans_eq (parseCall_length hparse).symm
          have hbegins : Follows Same pre pre'
              ({ s₁ with
                r := { r.stamped s₁.r.connection s₁.r.headerName with state := .hdBegin }
                recvBuffer := b }.onRev fun ev => { ev with handler := some .httpParseHeaders })
              ({ t₁ with r := { r with state := .hdBegin }, recvBuffer := b }.onRev fun ev =>
                { ev with handler := some .httpParseHeaders }) :=
            { hnext with
              rev := hrecv.rev.setHandler _
              request := rfl
              parsing := fun _ _ _ => ⟨.inr rfl, .inr ⟨_, .start rfl hb _ _⟩⟩ }
          have hnone : r.curUpstream = none := by
            rw [hframe]
            exact hcur
          refine (requestProcessUri_follows hbegins hnone).bind fun s' t' h' => ?_
          exact httpParseHeaders_follows h'.1 h'.2.1 (h'.2.2.trans hopen)
      | again =>
          refine Agree.ite Iff.rfl (fun _ => .error _) fun _ => .ok ?_
          exact hnext.addTimerRev _ _
      | error | invalidRequest => exact hnext.constructErr 400

theorem httpInitRequest_follows (h : s.Follows Same pre pre' t) (hrev : t.c.rev.handler = some .httpInitRequest)
    (hcur : t.r.curUpstream = none) (hopen : t.closed = false) :
    Agree (Follows Same pre pre') (s.httpInitRequest cfg calls) (t.httpInitRequest cfg calls) := by
  have hline : t.c.rev.handler ≠ some .httpParseHeaders := by
    rw [hrev]
    exact fun heq => by cases heq
  unfold Exchange.httpInitRequest
  replace h := h.tell (.ran .httpInitRequest) (.ran .httpInitRequest) rfl
  dsimp only
  refine Agree.ite (by rw [h.rev.timedout]) (fun _ => .ok ?_) fun _ => ?_
  · exact { h with
      rev := h.rev.close
      wev := h.wev.close
      parsing := fun heq => absurd ((EventS.close_handler _).symm.trans heq) hline
      closed := rfl }
  · refine ngxHttpProcessRequestLine_follows cfg calls (h.onRev (h.rev.setHandler _) (.inr ?_)) rfl hcur hopen
    exact fun heq => by cases heq

/-! ## the back end -/

/-- `http_proxy_pass` empties the receive buffer. -/
structure Exchange.Empties (s : Exchange) (calls : Calls) : Prop where
  attached : 0 < s.up.fd
  inTime : s.up.wev.timedout = false
  sent : (bufferSend s.recvBuffer calls.send).1 = .ok

theorem httpProxyPass_follows (h : s.Follows Same pre pre' t) (hup : s.up = t.up)
    (huncut : Same ∨ (s.Empties calls → ¬ s.InValue)) :
    Agree (Follows Same pre pre') (s.httpProxyPass cfg calls) (t.httpProxyPass cfg calls) := by
  unfold Exchange.httpProxyPass
  replace h := h.tell (.ran .httpProxyPass) (.ran .httpProxyPass) rfl
  replace hup : (s.tell (.ran .httpProxyPass)).up = (t.tell (.ran .httpProxyPass)).up := hup
  replace huncut : Same ∨ ((s.tell (.ran .httpProxyPass)).Empties calls → ¬ (s.tell (.ran .httpProxyPass)).InValue) :=
    huncut.imp_right fun huncut hempties hvalue => huncut ⟨hempties.attached, hempties.inTime, hempties.sent⟩
      ⟨hvalue.header, hvalue.waits, hvalue.line, hvalue.value⟩
  generalize s.tell (.ran .httpProxyPass) = s at h hup huncut ⊢
  generalize t.tell (.ran .httpProxyPass) = t at h hup ⊢
  dsimp only
  refine Agree.ite (by rw [hup]) (fun _ => .ok h) fun hfd => ?_
  refine Agree.ite (by rw [hup]) (fun _ => (h.closeUpstream hup).constructErr 408) fun htime => ?_
  rw [← hup] at hfd htime
  have hsent : ∀ xs, Follows Same pre pre'
      (s.tell (.toUpstream ((s.places.drop s.recvBuffer.begin).take xs.length) xs))
      (t.tell (.toUpstream ((t.places.drop t.recvBuffer.begin).take xs.length) xs)) := fun xs => h.tell _ _ rfl
  have hsame : bufferSend s.recvBuffer calls.send = bufferSend t.recvBuffer calls.send := by rw [h.recvBuffer]
  replace huncut : Same ∨ ((bufferSend t.recvBuffer calls.send).1 = .ok → ¬ s.InValue) :=
    huncut.imp_right fun huncut hok => huncut ⟨not_le.mp hfd, Bool.eq_false_iff.mpr htime, hsame ▸ hok⟩
  rw [hsame]
  generalize hsend : bufferSend t.recvBuffer calls.send = v at huncut
  obtain ⟨err, xs, b⟩ := v
  dsimp only at huncut ⊢
  replace hsent := hsent xs
  generalize hs₁ : s.tell (.toUpstream ((s.places.drop s.recvBuffer.begin).take xs.length) xs) = s₁ at hsent ⊢
  generalize ht₁ : t.tell (.toUpstream ((t.places.drop t.recvBuffer.begin).take xs.length) xs) = t₁ at hsent ⊢
  replace hup : s₁.up = t₁.up := by
    rw [← hs₁, ← ht₁]
    exact hup
  have hbuf : err ≠ .ok → Follows Same pre pre' { s₁ with recvBuffer := b } { t₁ with recvBuffer := b } := fun herr => by
    have hpart : bufferSend t₁.recvBuffer calls.send = (err, xs, b) := by
      rw [← ht₁]
      exact hsend
    exact hsent.sendRecv hpart herr
  have htime : ∀ {s' t' : Exchange}, s'.Follows Same pre pre' t' → s'.up = t'.up → Agree (Follows Same pre pre')
      (if s'.up.rev.timerSet then pure s' else pure (s'.onUpRev (EventS.addTimer calls.now cfg.upstreamTimeout)) :
        Except Fault Exchange)
      (if t'.up.rev.timerSet then pure t' else pure (t'.onUpRev (EventS.addTimer calls.now cfg.upstreamTimeout))) :=
    fun h' hup' => Agree.ite (by rw [hup']) (fun _ => .ok h') fun _ => .ok (h'.onUpRev hup' _)
  cases err with
  | ok =>
      have hcleared := hsent.clearRecv <| huncut.imp_right fun huncut hvalue => by
        rw [← hs₁] at hvalue
        exact huncut rfl ⟨hvalue.header, hvalue.waits, hvalue.line, hvalue.value⟩
      have hadd := hcleared.onRev hcleared.rev.addEvent (.inl (EventS.addEvent_handler _))
      refine htime (hadd.onUpWev ?_ EventS.delEvent) ?_
      · exact hup
      · exact congrArg (fun c : Connection => { c with wev := c.wev.delEvent }) hup
  | error =>
      refine (constructErr_abides (hbuf (by simp)) hup 503).bind fun s' t' h' => ?_
      exact htime h'.follows h'.up
  | again | invalidRequest => exact htime (hbuf (by simp)) hup

/-- The write event when something comes from the back end, unless the handler
of a file is left from the last answer. -/
theorem EventS.Trails.relay {ev ev' : EventS} (h : ev.Trails ev') (hleft : ev.handler ≠ some .handleResponseFile) :
    EventS.Alike { ev.addEvent with handler := if ev.handler = none then some .handleResponse else ev.handler }
      { ev'.addEvent with handler := if ev'.handler = none then some .handleResponse else ev'.handler } := by
  cases h with
  | alike h =>
      rw [h.handler]
      exact h.addEvent.setHandler _
  | unused hidle hidle' hnone hkind =>
      have hset : (if ev.handler = none then some .handleResponse else ev.handler) = some .handleResponse := by
        cases hev : ev.handler with
        | none => rfl
        | some handler =>
            cases hkind handler hev with
            | inl heq => rw [heq]; rfl
            | inr heq => exact absurd (hev.trans (congrArg some heq)) hleft
      rw [hset, hnone]
      exact EventS.Trails.answer (.unused hidle hidle' hnone hkind) _

/-- `http_recv_upstream` has something for the client, or waits for it. -/
structure Exchange.Relays (s : Exchange) (calls : Calls) : Prop where
  attached : 0 < s.up.fd
  inTime : s.up.rev.timedout = false
  received : (bufferRecv s.sendBuffer calls.recvUpstream).1 ≠ .error

/-- The page of an error is sent whatever the write event was about. -/
theorem constructErr_onWev (g : EventS → Option EventHandler) (err : Int) :
    (s.onWev fun ev => { ev.addEvent with handler := g ev }).constructErr cfg err = s.constructErr cfg err := by
  unfold Exchange.constructErr
  refine congrArg _ (funext fun b => ?_)
  simp only [Exchange.onWev, Exchange.onRev, Exchange.tell, EventS.addEvent_eq]

theorem httpRecvUpstream_follows (h : s.Follows Same pre pre' t) (hup : s.up = t.up)
    (hleft : s.Relays calls → s.c.wev.handler ≠ some .handleResponseFile) :
    Agree (Follows Same pre pre') (s.httpRecvUpstream cfg calls) (t.httpRecvUpstream cfg calls) := by
  unfold Exchange.httpRecvUpstream
  replace h := h.tell (.ran .httpRecvUpstream) (.ran .httpRecvUpstream) rfl
  replace hup : (s.tell (.ran .httpRecvUpstream)).up = (t.tell (.ran .httpRecvUpstream)).up := hup
  replace hleft : (s.tell (.ran .httpRecvUpstream)).Relays calls →
      (s.tell (.ran .httpRecvUpstream)).c.wev.handler ≠ some .handleResponseFile :=
    fun hrelays => hleft ⟨hrelays.attached, hrelays.inTime, hrelays.received⟩
  generalize s.tell (.ran .httpRecvUpstream) = s at h hup hleft ⊢
  generalize t.tell (.ran .httpRecvUpstream) = t at h hup ⊢
  dsimp only
  refine Agree.ite (by rw [hup]) (fun _ => .ok h) fun hfd => ?_
  refine Agree.ite (by rw [hup]) (fun _ => (h.closeUpstream hup).constructErr 504) fun htime => ?_
  rw [← hup] at hfd htime
  have hsame : bufferRecv s.sendBuffer calls.recvUpstream = bufferRecv t.sendBuffer calls.recvUpstream := by
    rw [h.sendBuffer]
  replace hleft : (bufferRecv t.sendBuffer calls.recvUpstream).1 ≠ .error →
      s.c.wev.handler ≠ some .handleResponseFile :=
    fun hreceived => hleft ⟨not_le.mp hfd, Bool.eq_false_iff.mpr htime, hsame ▸ hreceived⟩
  rw [hsame]
  generalize bufferRecv t.sendBuffer calls.recvUpstream = v at hleft ⊢
  obtain ⟨err, xs, b⟩ := v
  dsimp only at hleft ⊢
  have htold := h.tell (.fromUpstream xs) (.fromUpstream xs) rfl
  have hbuf : Follows Same pre pre' { s.tell (.fromUpstream xs) with sendBuffer := b }
      { t.tell (.fromUpstream xs) with sendBuffer := b } := { htold with sendBuffer := rfl }
  have hrelay := fun hreceived => hbuf.onWev (f := fun ev =>
    { ev.addEvent with handler := if ev.handler = none then some .handleResponse else ev.handler })
    (.alike (h.wev.relay (hleft hreceived)))
  cases err with
  | ok =>
      have hclosed := (hrelay (by simp)).closeUpstream hup
      refine .ok { hclosed with
        request := congrArg (fun r : HttpRequest => { r with upstream := none, responseDone := true }) h.request
        parsing := fun _ hdone => by cases hdone
        up := .inl (congrArg Connection.close hup) }
  | error =>
      dsimp only
      rw [constructErr_onWev, constructErr_onWev]
      exact hbuf.constructErr 503
  | again | invalidRequest => exact .ok ((hrelay (by simp)).onUpRev hup _)

theorem processConnectionResultOfUpstream_follows (h : s.Follows Same pre pre' t) (hup : s.up = t.up) :
    Agree (Follows Same pre pre') (s.processConnectionResultOfUpstream cfg calls)
      (t.processConnectionResultOfUpstream cfg calls) := by
  unfold Exchange.processConnectionResultOfUpstream
  replace h := h.tell (.ran .processConnectionResultOfUpstream) (.ran .processConnectionResultOfUpstream) rfl
  replace hup : (s.tell (.ran .processConnectionResultOfUpstream)).up =
    (t.tell (.ran .processConnectionResultOfUpstream)).up := hup
  generalize s.tell (.ran .processConnectionResultOfUpstream) = s at h hup ⊢
  generalize t.tell (.ran .processConnectionResultOfUpstream) = t at h hup ⊢
  dsimp only
  refine Agree.ite (by rw [hup]) (fun _ => .ok h) fun _ => ?_
  rw [h.curUpstream]
  refine Agree.ite (by rw [hup]) (fun _ => Agree.bind_same fun us => ?_) fun _ => ?_
  · exact (h.tell (.balancer (.connectTimedout us)) (.balancer (.connectTimedout us)) rfl).constructErr 504
  cases calls.soError with
  | none => exact h.constructErr 502
  | some err =>
      refine Agree.bind_same fun us => ?_
      refine Agree.ite Iff.rfl (fun _ => .ok (initUpstreamConnection_abides cfg calls h hup).follows) fun _ => ?_
      have hforgets := h.setRequest (fun r => { r with curUpstream := none })
        (congrArg (fun r : HttpRequest => { r with curUpstream := none }) h.request) rfl
        fun heq hdone hopen => (h.parsing heq hdone hopen).of_same rfl rfl rfl rfl
      have hfailed := hforgets.tellAll [.connectFailed us, .free us]
      have hdel := hfailed.onUpWev hup EventS.delEvent
      refine (tryConnectUpstream_abides hdel ?_ rfl rfl).mono fun s' t' h' => h'.follows
      exact congrArg (fun c : Connection => { c with wev := c.wev.delEvent }) hup

end

/-! ## turns -/

section

variable {Same : Prop} {cfg : Config} {calls : Calls} {pre pre' : List Deed} {s s' t : Exchange} {e : EventId}
  {u : Turn}

open Exchange (Follows)

/-- What the handler of an event that is due finds. -/
structure Exchange.Faces (Same : Prop) (pre pre' : List Deed) (e : EventId) (s t : Exchange) : Prop where
  follows : s.Follows Same pre pre' t
  handler : (s.event e).handler = (t.event e).handler
  wev : e = .wev → s.c.wev.Alike t.c.wev
  up : e = .upRev ∨ e = .upWev → s.up = t.up

open Exchange (Faces)

theorem Connection.Unused.poll {c : Connection} (h : c.Unused) : c.poll.Unused :=
  ⟨⟨⟨h.rev.1.active, h.rev.1.timerSet⟩, h.rev.1.active⟩, ⟨⟨h.wev.1.active, h.wev.1.timerSet⟩, h.wev.1.active⟩⟩

theorem Connection.Unused.batchDone {c : Connection} (h : c.Unused) : c.batchDone.Unused :=
  ⟨⟨⟨h.rev.1.active, h.rev.1.timerSet⟩, rfl⟩, ⟨⟨h.wev.1.active, h.wev.1.timerSet⟩, rfl⟩⟩

theorem poll_follows (h : s.Follows Same pre pre' t) :
    Follows Same pre pre' { s with c := s.c.poll, up := s.up.poll } { t with c := t.c.poll, up := t.up.poll } :=
  { h with
    rev := h.rev.poll
    wev := h.wev.poll
    up := h.up.imp (congrArg Connection.poll) fun hgone => ⟨hgone.1, hgone.2.1.poll, hgone.2.2.poll⟩ }

theorem batchDone_follows (h : s.Follows Same pre pre' t) : s.batchDone.Follows Same pre pre' t.batchDone :=
  { h with
    rev := h.rev.setFetched false
    wev := h.wev.setFetched
    up := h.up.imp (congrArg Connection.batchDone) fun hgone => ⟨hgone.1, hgone.2.1.batchDone, hgone.2.2.batchDone⟩ }

/-- The same events are due. -/
theorem due_same (h : s.Follows Same pre pre' t) (e : EventId) :
    (s.event e).fetched = (t.event e).fetched ∧ (s.event e).timerSet = (t.event e).timerSet := by
  cases e with
  | rev => exact ⟨h.rev.fetched, h.rev.timerSet⟩
  | wev => exact h.wev.same
  | upRev =>
      cases h.up with
      | inl hsame => exact ⟨congrArg (·.rev.fetched) hsame, congrArg (·.rev.timerSet) hsame⟩
      | inr hgone =>
          exact ⟨hgone.2.1.rev.2.trans hgone.2.2.rev.2.symm,
            hgone.2.1.rev.1.timerSet.trans hgone.2.2.rev.1.timerSet.symm⟩
  | upWev =>
      cases h.up with
      | inl hsame => exact ⟨congrArg (·.wev.fetched) hsame, congrArg (·.wev.timerSet) hsame⟩
      | inr hgone =>
          exact ⟨hgone.2.1.wev.2.trans hgone.2.2.wev.2.symm,
            hgone.2.1.wev.1.timerSet.trans hgone.2.2.wev.1.timerSet.symm⟩

/-- An event that is due belongs to a connection that is in use. -/
theorem due_up (h : s.Follows Same pre pre' t) (he : e = .upRev ∨ e = .upWev)
    (hdue : (t.event e).fetched = true ∨ (t.event e).timerSet = true) : s.up = t.up := by
  refine h.up.resolve_right fun hgone => ?_
  rcases he with rfl | rfl
  · change t.up.rev.fetched = true ∨ t.up.rev.timerSet = true at hdue
    simp [hgone.2.2.rev.2, hgone.2.2.rev.1.timerSet] at hdue
  · change t.up.wev.fetched = true ∨ t.up.wev.timerSet = true at hdue
    simp [hgone.2.2.wev.2, hgone.2.2.wev.1.timerSet] at hdue

/-- The mark that a handler finds on its event. -/
theorem onEvent_faces (h : s.Follows Same pre pre' t) {f : EventS → EventS}
    (hf : ∀ ev ev' : EventS, ev.Alike ev' → (f ev).Alike (f ev')) (hhandler : ∀ ev, (f ev).handler = ev.handler)
    (hwev : e = .wev → s.c.wev.Alike t.c.wev) (hup : e = .upRev ∨ e = .upWev → s.up = t.up) :
    Faces Same pre pre' e (s.onEvent e f) (t.onEvent e f) := by
  cases e with
  | rev =>
      refine ⟨h.onRev (hf _ _ h.rev) (.inl (hhandler _)), ?_, (fun heq => by cases heq), fun heq => by simp at heq⟩
      exact (hf _ _ h.rev).handler
  | wev =>
      have halike := hf _ _ (hwev rfl)
      exact ⟨h.onWev (.alike halike), halike.handler, fun _ => halike, fun heq => by simp at heq⟩
  | upRev =>
      have hsame := hup (.inl rfl)
      have hsame' : (s.onUpRev f).up = (t.onUpRev f).up :=
        congrArg (fun c : Connection => { c with rev := f c.rev }) hsame
      exact ⟨h.onUpRev hsame f, congrArg (·.rev.handler) hsame', (fun heq => by cases heq), fun _ => hsame'⟩
  | upWev =>
      have hsame := hup (.inr rfl)
      have hsame' : (s.onUpWev f).up = (t.onUpWev f).up :=
        congrArg (fun c : Connection => { c with wev := f c.wev }) hsame
      exact ⟨h.onUpWev hsame f, congrArg (·.wev.handler) hsame', (fun heq => by cases heq), fun _ => hsame'⟩

/-- A handler that is installed. -/
theorem call_follows {h' : EventHandler} (h : Faces Same pre pre' e s t) (hs : Handled t)
    (hhandler : (t.event e).handler = some h') (hopen : t.closed = false)
    (hleft : h' = .httpRecvUpstream → s.Relays calls → s.c.wev.handler ≠ some .handleResponseFile)
    (huncut : Same ∨ (h' = .httpProxyPass → s.Empties calls → ¬ s.InValue)) :
    Agree (Follows Same pre pre') (s.call cfg calls h') (t.call cfg calls h') := by
  cases e with
  | rev =>
      have hrev : t.c.rev.handler = some h' := hhandler
      rcases hs.rev h' hrev with rfl | rfl | rfl | rfl
      · exact httpInitRequest_follows h.follows hrev (hs.start (.inl hrev)).1 hopen
      · exact ngxHttpProcessRequestLine_follows cfg calls h.follows hrev (hs.start (.inr hrev)).1 hopen
      · exact httpParseHeaders_follows h.follows hrev hopen
      · refine requestHandleBody_follows h.follows ?_
        rw [hrev]
        exact fun heq => by cases heq
  | wev =>
      rcases hs.wev h' hhandler with rfl | rfl
      · exact handleResponse_follows h.follows (h.wev rfl)
      · exact handleResponseFile_follows h.follows (h.wev rfl)
  | upRev =>
      obtain rfl := hs.upRev h' hhandler
      exact httpRecvUpstream_follows h.follows (h.up (.inl rfl)) (hleft rfl)
  | upWev =>
      rcases hs.upWev h' hhandler with rfl | rfl
      · exact httpProxyPass_follows h.follows (h.up (.inr rfl)) (huncut.imp_right fun huncut => huncut rfl)
      · exact processConnectionResultOfUpstream_follows h.follows (h.up (.inr rfl))

/-- `http_recv_upstream` does not find the handler of a file that an answer
before has left to the client's write event. -/
def Exchange.Unhindered (s : Exchange) (u : Turn) : Prop :=
  ∀ s₁, s.Runs u .httpRecvUpstream s₁ → s₁.Relays u.calls → s₁.c.wev.handler ≠ some .handleResponseFile

/-- `http_proxy_pass` does not empty the receive buffer under the value of a line
that is still read. -/
def Exchange.Uncut (s : Exchange) (u : Turn) : Prop :=
  ∀ s₁, s.Runs u .httpProxyPass s₁ → s₁.Empties u.calls → ¬ s₁.InValue

/-- Turn by turn, whatever it is that makes the worker turn to the exchanges. -/
theorem step_follows (hs : InOrder t) (h : s.Follows Same pre pre' t) (hleft : s.Unhindered u)
    (huncut : Same ∨ s.Uncut u) :
    Agree (Follows Same pre pre') (s.step cfg u) (t.step cfg u) := by
  unfold Exchange.step
  refine Agree.ite (by rw [h.closed]) (fun _ => .ok h) fun hclosed => ?_
  have hopen : t.closed = false := Bool.eq_false_iff.mpr hclosed
  have hopen' : s.closed = false := h.closed.trans hopen
  cases hu : u.stimulus with
  | poll => exact .ok (poll_follows h)
  | ready e =>
      refine Agree.ite (by rw [(due_same h e).1]) (fun hfetched => ?_) fun _ => .ok h
      have hfaces : Faces Same pre pre' e (s.onEvent e fun ev => { ev with fetched := false })
          (t.onEvent e fun ev => { ev with fetched := false }) := by
        refine onEvent_faces h (fun _ _ h => h.setFetched false) (fun _ => rfl) (fun he => ?_)
          fun he => due_up h he (.inl hfetched)
        subst he
        exact h.wev.due (.inl hfetched)
      have hkept : ∀ x : Exchange,
          ((x.onEvent e fun ev => { ev with fetched := false }).event e).handler = (x.event e).handler :=
        fun x => by cases e <;> rfl
      dsimp only
      rw [hfaces.handler]
      cases hhandler : ((t.onEvent e fun ev => { ev with fetched := false }).event e).handler with
      | none => exact .ok hfaces.follows
      | some h' =>
          have hruns : t.Runs u h' _ := .ready hopen hu hfetched ((hkept t).symm.trans hhandler)
          have hruns' : s.Runs u h' _ := .ready hopen' hu ((due_same h e).1.trans hfetched)
            ((hkept s).symm.trans (hfaces.handler.trans hhandler))
          refine call_follows hfaces (hruns.inOrder cfg hs).handled hhandler (hruns.closed.trans hopen)
            (fun heq => ?_) (huncut.imp_right fun huncut heq => ?_)
          · subst heq
            exact hleft _ hruns'
          · subst heq
            exact huncut _ hruns'
  | expire e =>
      refine Agree.ite (by rw [(due_same h e).2]) (fun hset => ?_) fun _ => .ok h
      have hdone := batchDone_follows h
      have hset' : (t.batchDone.event e).timerSet = true := by cases e <;> exact hset
      have hfaces : Faces Same pre pre' e (s.batchDone.onEvent e fun ev => { ev with timedout := true, timerKey := 0 })
          (t.batchDone.onEvent e fun ev => { ev with timedout := true, timerKey := 0 }) := by
        refine onEvent_faces hdone (fun _ _ h => h.expired) (fun _ => rfl) (fun he => ?_)
          fun he => due_up hdone he (.inr hset')
        subst he
        exact hdone.wev.due (.inr hset')
      have hkept : ∀ x : Exchange,
          ((x.batchDone.onEvent e fun ev => { ev with timedout := true, timerKey := 0 }).event e).handler =
            (x.event e).handler := fun x => by cases e <;> rfl
      have hsame : (s.event e).handler = (t.event e).handler :=
        (hkept s).symm.trans (hfaces.handler.trans (hkept t))
      rw [hsame]
      cases hhandler : (t.event e).handler with
      | none => exact .error _
      | some h' =>
          have hruns : t.Runs u h' _ := .expire hopen hu hset hhandler
          have hruns' : s.Runs u h' _ := .expire hopen' hu ((due_same h e).2.trans hset) (hsame.trans hhandler)
          refine call_follows hfaces (hruns.inOrder cfg hs).handled ((hkept t).trans hhandler)
            (hruns.closed.trans hopen) (fun heq => ?_) (huncut.imp_right fun huncut heq => ?_)
          · subst heq
            exact hleft _ hruns'
          · subst heq
            exact huncut _ hruns'

theorem run_follows {us : List Turn} (hs : InOrder t) (h : s.Follows Same pre pre' t)
    (hleft : Exchange.Always cfg Exchange.Unhindered us s) (huncut : Same ∨ Exchange.Always cfg Exchange.Uncut us s) :
    Agree (Follows Same pre pre') (Exchange.run cfg us s) (Exchange.run cfg us t) := by
  induction us generalizing s t with
  | nil => exact .ok h
  | cons u us ih =>
      have hone : Agree (Follows Same pre pre') (s.step cfg u) (t.step cfg u) :=
        step_follows hs h hleft.1 (huncut.imp_right And.left)
      have hrest : ∀ s', s.step cfg u = .ok s' →
          Exchange.Always cfg Exchange.Unhindered us s' ∧ (Same ∨ Exchange.Always cfg Exchange.Uncut us s') :=
        fun s' hstep => ⟨hleft.2 s' hstep, huncut.imp_right fun huncut => huncut.2 s' hstep⟩
      exact (hone.and hrest fun _ => hs.step).bind fun s' t' h' => ih h'.2.2 h'.1 h'.2.1.1 h'.2.1.2

end

end PWebServer
