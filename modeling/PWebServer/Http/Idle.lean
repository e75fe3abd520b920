import PWebServer.Http.Release

/-!
# Http.Idle

When `is_idle` is set.

`http_clear_request` sets the flag and `http_close_connection` clears it; no
handler clears it when the next request begins.  So it tells that a connection
waits between requests only until something happens on it.
-/

namespace PWebServer

/-- The bytes that `recv` delivers. -/
def Recv.got : Recv → List UInt8
  | .bytes xs => xs
  | _ => []

namespace Exchange

/-- All that has arrived was discarded before a request was recycled. -/
def Served (s : Exchange) : Prop :=
  ∃ before us after, s.log = before ++ .clearRequest us :: after ∧
    ∀ i < s.arrived, ∃ places, .discard places ∈ before ∧ i ∈ places

/-- The connection waits between requests: nothing of the next one has arrived,
there is no back end, and no response is begun. -/
structure Waits (s : Exchange) : Prop where
  served : s.Served
  places : s.places = []
  recvBuffer : s.recvBuffer = {}
  line : s.c.rev.handler = some .ngxHttpProcessRequestLine
  upstream : s.r.upstream = none
  unanswered : s.r.responseDone = false
  sendBuffer : s.sendBuffer = {}
  noFile : s.resourceFd = 0
  wev : s.c.wev.active = false

/-- What `clear_idle_connections` does to the connection. -/
def clearIdle (s : Exchange) : Exchange :=
  if 0 < s.c.fd ∧ s.c.isIdle = true then { s with c := s.c.close } else s

/-- The connection was not recycled before this turn, or the turn neither
receives bytes for the next request nor finds that its timer has expired. -/
def Rests (s : Exchange) (t : Turn) : Prop :=
  s.c.isIdle = true → ∀ s₁, s.Runs t .ngxHttpProcessRequestLine s₁ →
    s₁.c.rev.timedout = false ∧ t.calls.recvLine.got = []

/-- What has arrived is in the receive buffer or has left it. -/
def Accounted (s : Exchange) : Prop :=
  ∀ i < s.arrived, i ∈ s.places ∨ ∃ places, .discard places ∈ s.log ∧ i ∈ places

end Exchange

section

variable {cfg : Config} {t : Turn} {l : Label} {calls : Calls} {h : EventHandler} {s s₁ s' : Exchange}

/-! ## what has arrived -/

theorem Exchange.Served.append {ds : List Deed} (h : s.Served) (hlog : s'.log = s.log ++ ds)
    (harrived : s'.arrived = s.arrived) : s'.Served := by
  obtain ⟨before, us, after, heq, hall⟩ := h
  refine ⟨before, us, after ++ ds, ?_, ?_⟩
  · rw [hlog, heq, List.append_assoc, List.cons_append]
  · rw [harrived]
    exact hall

/-- Places leave the buffer only as they are discarded. -/
theorem Exchange.Accounted.of_places {ds : List Deed} (h : s.Accounted) (hlog : s'.log = s.log ++ ds)
    (harrived : s'.arrived = s.arrived)
    (hplaces : ∀ i ∈ s.places, i ∈ s'.places ∨ ∃ places, .discard places ∈ ds ∧ i ∈ places) :
    s'.Accounted := by
  intro i hi
  rw [harrived] at hi
  rw [hlog]
  cases h i hi with
  | inl hmem =>
      refine (hplaces i hmem).imp_right fun ⟨places, hd, hp⟩ => ?_
      exact ⟨places, List.mem_append_right _ hd, hp⟩
  | inr hgone =>
      obtain ⟨places, hd, hp⟩ := hgone
      exact .inr ⟨places, List.mem_append_left _ hd, hp⟩

theorem Exchange.Accounted.recv (h : s.Accounted) (o : Recv) : (s.recvClient o).2.Accounted := by
  intro i hi
  change i < s.arrived + (bufferRecv s.recvBuffer o).2.1.length at hi
  change i ∈ s.places ++ List.range' s.arrived _ ∨ _
  by_cases hold : i < s.arrived
  · exact (h i hold).imp_left fun hmem => List.mem_append_left _ hmem
  · refine .inl (List.mem_append_right _ (List.mem_range'_1.mpr ⟨Nat.le_of_not_lt hold, hi⟩))

theorem Exchange.Accounted.move (h : s.Accounted) (hmove : Move cfg l s s') : s'.Accounted := by
  have hkept : ∀ {s' : Exchange}, (∃ ds, s'.log = s.log ++ ds) → s'.arrived = s.arrived →
      s'.places = s.places → s'.Accounted := by
    intro s' hlog harrived hplaces
    obtain ⟨ds, hlog⟩ := hlog
    refine h.of_places hlog harrived fun i hi => .inl ?_
    rw [hplaces]
    exact hi
  have hlog : ∃ ds, s'.log = s.log ++ ds := hmove.log.imp fun _ hds => hds.1
  cases hmove with
  | mark | ran | parse | state | timeRev | lineBegins | headersRead | openFile | forward | reconnect | await |
    attached | pass | relay | upstreamEof | timeWev | delWev | send | toFile | sendFile | drop =>
      exact hkept hlog rfl rfl
  | recv o => exact h.recv o
  | uriDone => exact hkept hlog rfl rfl
  | err c r b m up ds status hc hline hcur hup hds herr =>
      obtain ⟨-, hplaces, harrived⟩ := (constructErr_answered herr).received
      exact hkept hlog harrived hplaces
  | rewind =>
      refine h.of_places rfl rfl fun i hi => ?_
      rw [← List.take_append_drop s.recvBuffer.begin s.places] at hi
      refine (List.mem_append.mp hi).imp id fun hdrop => ?_
      exact ⟨_, List.mem_singleton_self _, hdrop⟩
  | respond hrev hreads hup hdone hresp =>
      obtain ⟨b, -, hs'⟩ := constructResponse_eq hresp
      refine hkept hlog ?_ ?_
      · rw [hs']
        rfl
      · rw [hs']
        rfl
  | passAll =>
      refine h.of_places (List.append_assoc _ _ _) rfl fun i hi => .inr ?_
      exact ⟨s.places, List.mem_cons_of_mem _ (List.mem_singleton_self _), hi⟩
  | done calls hwrites hdone hresp =>
      cases httpResponseDone_cases hresp with
      | inl hkept' =>
          rw [keptAlive, httpClearRequest_eq] at hkept'
          rw [hkept'.2]
          refine h.of_places (List.append_assoc _ _ _) rfl fun i hi => .inr ?_
          exact ⟨s.places, List.mem_cons_of_mem _ List.mem_cons_self, hi⟩
      | inr hclosed =>
          refine hkept hlog ?_ ?_
          · rw [hclosed.2, httpCloseRequest_eq]
            rfl
          · rw [hclosed.2, httpCloseRequest_eq]
            rfl
  | close calls =>
      refine hkept hlog ?_ ?_
      · rw [httpCloseRequest_eq]
      · rw [httpCloseRequest_eq]

/-! ## moves -/

/-- The flag is set only where a request is recycled. -/
theorem Exchange.Accounted.waits_done (h : s.Accounted)
    (hresp : s.httpResponseDone cfg calls = .ok s') (hidle : s'.c.isIdle = true) : s'.Waits := by
  cases httpResponseDone_cases hresp with
  | inl hkept =>
      rw [keptAlive, httpClearRequest_eq] at hkept
      rw [hkept.2]
      refine ⟨⟨s.log ++ [.responseDone, .discard s.places], s.r.curUpstream, [], ?_, fun i hi => ?_⟩, rfl, rfl,
        EventS.addTimer_handler _ _ _, rfl, rfl, rfl, rfl, EventS.delEvent_active _⟩
      · simp [Exchange.tell]
      · cases h i hi with
        | inl hmem => exact ⟨s.places, by simp, hmem⟩
        | inr hgone =>
            obtain ⟨places, hd, hp⟩ := hgone
            exact ⟨places, List.mem_append_left _ hd, hp⟩
  | inr hclosed =>
      rw [hclosed.2, httpCloseRequest_eq] at hidle
      contradiction

/-- On a connection that waits, only its read event is up. -/
theorem Exchange.Waits.move (h : s.Waits) (hs : Handled s) (hread : l ≠ .read) (herr : l ≠ .err)
    (hmove : Move cfg l s s') (hidle : s'.c.isIdle = true) : s'.Waits := by
  have hup : ¬ 0 < s.up.fd := not_lt.mpr (hs.detached h.upstream)
  have hwev : s.c.wev.active ≠ true := by simp [h.wev]
  cases hmove with
  | mark hrev hwev' =>
      exact ⟨h.served, h.places, h.recvBuffer, hrev.handler.trans h.line, h.upstream, h.unanswered,
        h.sendBuffer, h.noFile, hwev'.active.trans h.wev⟩
  | ran =>
      exact ⟨h.served.append rfl rfl, h.places, h.recvBuffer, h.line, h.upstream, h.unanswered, h.sendBuffer,
        h.noFile, h.wev⟩
  | recv | parse | uriDone | state | timeRev | lineBegins | headersRead | openFile | forward | rewind | respond |
    await => exact absurd rfl hread
  | err => exact absurd rfl herr
  | reconnect hfd | passAll hfd | pass hfd | relay hfd | upstreamEof hfd => exact absurd hfd hup
  | attached hattached => exact absurd h.upstream hattached
  | timeWev now timer hactive => exact absurd hactive hwev
  | delWev hwrites | send hwrites | toFile hwrites | sendFile calls hwrites | done calls hwrites =>
      exact absurd hwrites.active hwev
  | close calls =>
      rw [httpCloseRequest_eq] at hidle
      contradiction
  | drop => contradiction

/-- No other move than the end of a response sets the flag. -/
theorem Move.idle (hmove : Move cfg l s s') (hidle : s.c.isIdle = false) :
    s'.c.isIdle = false ∨ (∃ keepAlive us, l = .done keepAlive us) ∧
      ∃ calls, Exchange.httpResponseDone cfg calls { s with r := { s.r with responseDone := true } } = .ok s' := by
  cases hmove with
  | mark hrev hwev hupRev hupWev hfd hsame => exact .inl (hsame.trans hidle)
  | ran | recv | parse | state | timeRev | lineBegins | headersRead | openFile | forward | reconnect | rewind |
    await | attached | passAll | pass | relay | upstreamEof | timeWev | delWev | send | toFile | sendFile =>
      exact .inl hidle
  | uriDone => exact .inl hidle
  | err c r b m up ds status hc hline hcur hup hds h =>
      obtain ⟨b, -, hs'⟩ := constructErr_eq h
      refine .inl ?_
      rw [hs']
      cases hc with
      | inl hsame => exact (congrArg Connection.isIdle hsame).trans hidle
      | inr hboth => exact (congrArg Connection.isIdle hboth.2).trans hidle
  | respond hrev hreads hup hdone h =>
      obtain ⟨b, -, hs'⟩ := constructResponse_eq h
      rw [hs']
      exact .inl hidle
  | done calls hwrites hdone h => exact .inr ⟨⟨_, _, rfl⟩, calls, h⟩
  | close calls =>
      rw [httpCloseRequest_eq]
      exact .inl rfl
  | drop => exact .inl rfl

/-! ## turns -/

/-- A turn whose handler neither reads from the client nor fails. -/
theorem Exchange.Waits.aside (hs : InOrder s) (hacc : s.Accounted) (hw : s.c.isIdle = true → s.Waits)
    (hread : ¬ s.Allows cfg t .read) (herr : ¬ s.Allows cfg t .err) (hstep : s.step cfg t = .ok s') :
    s'.c.isIdle = true → s'.Waits := by
  refine (step_induct (I := fun s => s.Accounted ∧ (s.c.isIdle = true → s.Waits)) hs hstep ?_ ⟨hacc, hw⟩).2.2
  intro l s₁ s₂ hopen hs₁ hl hmove hboth
  refine ⟨hboth.1.move hmove, fun hidle => ?_⟩
  cases hbefore : s₁.c.isIdle with
  | true =>
      refine (hboth.2 hbefore).move hs₁.handled ?_ ?_ hmove hidle
      · rintro rfl
        exact hread hl
      · rintro rfl
        exact herr hl
  | false =>
      cases hmove.idle hbefore with
      | inl hnot => exact absurd (hnot.symm.trans hidle) (by simp)
      | inr hdone =>
          obtain ⟨-, calls, h⟩ := hdone
          have hacc₁ : Exchange.Accounted { s₁ with r := { s₁.r with responseDone := true } } := hboth.1
          exact hacc₁.waits_done h hidle

/-- A turn that does not complete a response. -/
theorem idle_of_incomplete (hs : InOrder s) (hdone : ∀ keepAlive us, ¬ s.Allows cfg t (.done keepAlive us))
    (hstep : s.step cfg t = .ok s') (hidle : s.c.isIdle = false) : s'.c.isIdle = false := by
  refine (step_induct (I := fun s => s.c.isIdle = false) hs hstep ?_ hidle).2
  intro l s₁ s₂ hopen hs₁ hl hmove hnot
  refine (hmove.idle hnot).resolve_right ?_
  rintro ⟨⟨keepAlive, us, rfl⟩, -⟩
  exact hdone keepAlive us hl

theorem Exchange.Runs.not_read (hruns : s.Runs t h s₁) (hh : ¬ h.ReadsClient) : ¬ s.Allows cfg t .read := by
  rintro ⟨h', s₂, hruns', hreads⟩
  rw [(hruns.unique hruns').1] at hreads
  exact hh hreads

theorem Exchange.Runs.not_err (hruns : s.Runs t h s₁) (hh : ¬ h.ReadsClient)
    (hfails : ¬ s₁.Fails cfg t.calls h) : ¬ s.Allows cfg t .err := by
  rintro ⟨h', s₂, hruns', hor⟩
  obtain ⟨rfl, rfl⟩ := hruns.unique hruns'
  rcases hor with hfails' | rfl | rfl
  · exact hfails hfails'
  · exact hh (.inl rfl)
  · exact hh (.inr (.inl rfl))

/-- A turn that completes a response does nothing else. -/
theorem Exchange.Completes.not_fails (h' : s.Completes calls h) :
    ¬ h.ReadsClient ∧ ¬ s.Fails cfg calls h := by
  cases h with
  | handleResponse => exact ⟨by simp [EventHandler.ReadsClient], id⟩
  | handleResponseFile =>
      refine ⟨by simp [EventHandler.ReadsClient], fun hfails => ?_⟩
      exact absurd (h'.1.symm.trans hfails) (by simp)
  | httpInitRequest | ngxHttpProcessRequestLine | httpParseHeaders | requestHandleBody |
    processConnectionResultOfUpstream | httpProxyPass | httpRecvUpstream => exact h'.elim

/-- Nothing is received for the next request. -/
theorem bufferRecv_blank {o : Recv} (ho : o.got = []) :
    ∃ ret, bufferRecv {} o = (ret, [], {}) ∧ (ret = .again ∨ ret = .ok ∨ ret = .error) := by
  cases o with
  | bytes xs =>
      obtain rfl : xs = [] := ho
      exact ⟨.again, rfl, .inl rfl⟩
  | again => exact ⟨.again, rfl, .inl rfl⟩
  | eof => exact ⟨.ok, rfl, .inr (.inl rfl)⟩
  | fail => exact ⟨.error, rfl, .inr (.inr rfl)⟩

theorem Exchange.Waits.processRequestLine (h : s.Waits) (htime : s.c.rev.timedout = false)
    (hgot : calls.recvLine.got = []) (hcall : s.ngxHttpProcessRequestLine cfg calls = .ok s')
    (hidle : s'.c.isIdle = true) : s'.Waits := by
  obtain ⟨ret, hrecv, hret⟩ := bufferRecv_blank hgot
  have hclient : (s.tell (.ran .ngxHttpProcessRequestLine)).recvClient calls.recvLine =
      (ret, s.tell (.ran .ngxHttpProcessRequestLine)) := by
    unfold Exchange.recvClient Exchange.tell
    dsimp only
    rw [h.recvBuffer, hrecv]
    dsimp only [List.length_nil, Nat.add_zero]
    rw [List.drop_zero, List.range'_zero, List.append_nil, ← h.recvBuffer]
  unfold Exchange.ngxHttpProcessRequestLine at hcall
  dsimp only at hcall
  rw [if_neg (show ¬ (s.tell (.ran .ngxHttpProcessRequestLine)).c.rev.timedout = true by
    simp [Exchange.tell, htime]), hclient] at hcall
  dsimp only at hcall
  split at hcall
  · cases hcall
    rw [httpCloseRequest_eq] at hidle
    contradiction
  · have hparse : parseRequestLine (s.tell (.ran .ngxHttpProcessRequestLine)).r
        (s.tell (.ran .ngxHttpProcessRequestLine)).recvBuffer = (.again, s.r, {}) := by
      change parseRequestLine s.r s.recvBuffer = _
      rw [h.recvBuffer, parseRequestLine_eq]
      rfl
    rw [hparse] at hcall
    cases hcall
    exact ⟨h.served.append rfl rfl, h.places, rfl, (EventS.addTimer_handler _ _ _).trans h.line, h.upstream,
      h.unanswered, h.sendBuffer, h.noFile, h.wev⟩

/-- On a connection that waits, a handler of the back end finds no descriptor. -/
theorem Exchange.Fails.attached (hfails : s.Fails cfg calls h) (hh : ¬ h.ReadsClient)
    (hfile : h ≠ .handleResponseFile) : 0 < s.up.fd := by
  cases h with
  | httpInitRequest => exact hfails.elim
  | ngxHttpProcessRequestLine => exact hfails.elim
  | httpParseHeaders => exact absurd (.inr (.inr (.inl rfl))) hh
  | requestHandleBody => exact absurd (.inr (.inr (.inr rfl))) hh
  | handleResponse => exact hfails.elim
  | handleResponseFile => exact absurd rfl hfile
  | processConnectionResultOfUpstream | httpProxyPass | httpRecvUpstream => exact hfails.1

/-- One turn. -/
theorem Exchange.Rests.waits (hrests : s.Rests t) (hs : InOrder s) (hacc : s.Accounted)
    (hw : s.c.isIdle = true → s.Waits) (hstep : s.step cfg t = .ok s') : s'.c.isIdle = true → s'.Waits := by
  cases hclosed : s.closed with
  | true =>
      rw [step_closed hclosed hstep]
      exact hw
  | false =>
    cases step_cases hstep with
    | inl hmark =>
        intro hidle
        cases hbefore : s.c.isIdle with
        | true => exact (hw hbefore).move hs.handled (by simp) (by simp) hmark hidle
        | false =>
            rcases hmark.idle hbefore with hnot | ⟨⟨keepAlive, us, hl⟩, -⟩
            · exact absurd (hnot.symm.trans hidle) (by simp)
            · contradiction
    | inr hcalled =>
        obtain ⟨h, s₁, hruns, hcall⟩ := hcalled
        cases hbefore : s.c.isIdle with
        | false =>
            by_cases hcompletes : s₁.Completes t.calls h
            · obtain ⟨hread, hfails⟩ := hcompletes.not_fails
              exact .aside hs hacc hw (hruns.not_read hread) (hruns.not_err hread hfails) hstep
            · intro hidle
              refine absurd (idle_of_incomplete hs ?_ hstep hbefore) (by simp [hidle])
              rintro keepAlive us ⟨h', s₂, hruns', hcompletes', -⟩
              obtain ⟨rfl, rfl⟩ := hruns.unique hruns'
              exact hcompletes hcompletes'
        | true =>
            obtain ⟨e, hdue⟩ := hruns.due
            have hwaits := hw hbefore
            have hup : ¬ 0 < s₁.up.fd := by
              rw [hdue.fd]
              exact not_lt.mpr (hs.handled.detached hwaits.upstream)
            have haside : ¬ h.ReadsClient → h ≠ .handleResponseFile → s'.c.isIdle = true → s'.Waits := by
              intro hread hfile
              exact .aside hs hacc hw (hruns.not_read hread)
                (hruns.not_err hread fun hfails => hup (hfails.attached hread hfile)) hstep
            have hhandler : (s.event e).handler = some h := (hdue.marked e).handler.symm.trans hdue.handler
            cases e with
            | rev =>
                obtain rfl : EventHandler.ngxHttpProcessRequestLine = h :=
                  Option.some.inj (hwaits.line.symm.trans hhandler)
                obtain ⟨htime, hgot⟩ := hrests hbefore s₁ hruns
                have hmove : Move cfg .quiet s s₁ := hruns.move
                have hwaits₁ : s₁.Waits :=
                  hwaits.move hs.handled (by simp) (by simp) hmove (hdue.idle.trans hbefore)
                exact hwaits₁.processRequestLine htime hgot hcall
            | wev => exact absurd ((hs.flagged hclosed).wev hdue.due) (by simp [hwaits.wev])
            | upRev =>
                obtain rfl := hs.handled.upRev h hhandler
                exact haside (by simp [EventHandler.ReadsClient]) (by simp)
            | upWev =>
                rcases hs.handled.upWev h hhandler with rfl | rfl
                · exact haside (by simp [EventHandler.ReadsClient]) (by simp)
                · exact haside (by simp [EventHandler.ReadsClient]) (by simp)

theorem accounted_accepted (cfg : Config) (now : BitVec 32) (slot : Slot) (fd : Int) (ip : BitVec 32) :
    (Exchange.accepted cfg now slot fd ip).Accounted := fun _ hi => absurd hi (Nat.not_lt_zero _)

end

/-- **Idle connections**: in every run in which a connection that has been recycled
receives nothing more and does not time out, a connection that is marked idle
waits between requests, so shutdown closes no other. -/
theorem idle_waits {cfg : Config} {ts : List Turn} {now : BitVec 32} {slot : Slot} {fd : Int} {ip : BitVec 32}
    {s : Exchange} (hrests : Exchange.Always cfg Exchange.Rests ts (.accepted cfg now slot fd ip))
    (hrun : Exchange.run cfg ts (.accepted cfg now slot fd ip) = .ok s) :
    (s.c.isIdle = true → s.Waits) ∧ (s.clearIdle ≠ s → s.Waits) := by
  have hwaits : s.c.isIdle = true → s.Waits := by
    refine (Exchange.run_induction (I := fun s => InOrder s ∧ s.Accounted ∧ (s.c.isIdle = true → s.Waits)) ?_
      hrests ⟨inOrder_accepted cfg now slot fd ip, accounted_accepted cfg now slot fd ip, fun h => nomatch h⟩
      hrun).2.2
    rintro s t s' ⟨hs, hacc, hw⟩ hrests hstep
    obtain ⟨hs', hacc'⟩ := step_induct (I := Exchange.Accounted) hs hstep
      (fun l s₁ s₂ _ _ _ hmove hacc => hacc.move hmove) hacc
    exact ⟨hs', hacc', hrests.waits hs hacc hw hstep⟩
  refine ⟨hwaits, fun hcleared => ?_⟩
  unfold Exchange.clearIdle at hcleared
  split at hcleared
  · next hidle => exact hwaits hidle.2
  · exact absurd rfl hcleared

/-- A request for `/b` that is answered with nothing, and what the connection
receives then. -/
def thenReceives (o : Recv) : List Turn :=
  emptyAnswer '1' ++ [⟨.poll, oneServer⟩, ⟨.ready .rev, { oneServer with recvLine := o }⟩]

/-- A connection that is recycled, and receives nothing. -/
theorem idle_waits_again :
    ∃ s, Exchange.run forwardsB (thenReceives .again) (.accepted forwardsB 0 0 5 0) = .ok s ∧
      s.c.isIdle = true ∧ s.Waits := by
  have htest : Exchange.runTest forwardsB (fun s => s.c.isIdle) (thenReceives .again)
      (.accepted forwardsB 0 0 5 0) = true := by decide +kernel
  obtain ⟨s, hrun, hidle⟩ := Exchange.exists_of_runTest htest
  refine ⟨s, hrun, hidle, (idle_waits ?_ hrun).1 hidle⟩
  refine Exchange.always_of_alwaysTest
    (p := fun s t => !s.c.isIdle || !s.c.rev.timedout && decide (t.stimulus ≠ .expire .rev) &&
      decide (t.calls.recvLine.got = [])) ?_ (by decide +kernel)
  intro s t htest hidle s₁ hruns
  simp only [hidle, Bool.not_true, Bool.false_or, Bool.and_eq_true, Bool.not_eq_true', decide_eq_true_eq]
    at htest
  obtain ⟨⟨htime, hexpire⟩, hgot⟩ := htest
  refine ⟨?_, hgot⟩
  cases hruns with
  | @ready e => cases e <;> exact htime
  | @expire e h hopen ht => cases e <;> first | exact absurd ht hexpire | exact htime

/-- The next request arrives: it is passed on over a connection that is still
marked idle, and that shutdown closes. -/
theorem idle_served :
    ∃ s, Exchange.run forwardsB (thenReceives (.bytes (getB '1'))) (.accepted forwardsB 0 0 5 0) = .ok s ∧
      s.c.isIdle = true ∧ s.r.upstream ≠ none ∧ s.clearIdle.c.fd < 0 ∧ ¬ s.Waits := by
  have htest : Exchange.runTest forwardsB
      (fun s => s.c.isIdle && decide (s.r.upstream ≠ none) && decide (s.clearIdle.c.fd < 0))
      (thenReceives (.bytes (getB '1'))) (.accepted forwardsB 0 0 5 0) = true := by decide +kernel
  obtain ⟨s, hrun, hs⟩ := Exchange.exists_of_runTest htest
  simp only [Bool.and_eq_true, decide_eq_true_eq] at hs
  exact ⟨s, hrun, hs.1.1, hs.1.2, hs.2, fun hwaits => hs.1.2 hwaits.upstream⟩

end PWebServer
