import PWebServer.Http.Flags

/-!
# Http.Handlers

The handlers, taken apart: what each does is a chain of moves, and it calls
`construct_err`, sends or receives only when it may.
-/

namespace PWebServer

open Function

section

variable {cfg : Config} {calls : Calls} {A : Label → Prop} {s s' : Exchange}

/-- `construct_err`, called for the exchange as it is. -/
theorem Move.constructErr {status : Int} (hline : s.Starts → s.r.responseDone = true ∨ s.c.rev.fetched = false)
    (h : s.constructErr cfg status = .ok s') : Move cfg .err s s' := by
  refine .err s.c s.r s.recvBuffer s.recvBehind s.up [] status (.inl rfl) hline rfl (.inl ⟨rfl, rfl⟩)
    (fun d hd => nomatch hd) ?_
  rw [List.append_nil]
  exact h

/-! ## the client's write event -/

theorem handleResponseFile_moves (hquiet : A .quiet)
    (hsend : s.c.wev.timedout = false → A (.sendFile s.resourceFd (s.fileLost calls)))
    (herr : s.c.wev.timedout = true → A .err)
    (hdone : s.Completes calls .handleResponseFile → A (.done s.r.keepAlive s.r.curUpstream))
    (hwrites : s.Writes) (hstarts : s.Starts → s.r.responseDone = true)
    (hwev : s.c.wev.handler = some .handleResponseFile)
    (h : s.handleResponseFile cfg calls = .ok s') : Moves cfg A s s' := by
  unfold Exchange.handleResponseFile at h
  refine .step (.ran s .handleResponseFile) hquiet ?_
  replace hdone : (s.tell (.ran .handleResponseFile)).Completes calls .handleResponseFile →
      A (.done s.r.keepAlive s.r.curUpstream) := hdone
  replace hsend : s.c.wev.timedout = false →
      A (.sendFile s.resourceFd ((s.tell (.ran .handleResponseFile)).fileLost calls)) := hsend
  replace hwrites : (s.tell (.ran .handleResponseFile)).Writes := ⟨hwrites.ready, hwrites.active⟩
  replace hstarts : (s.tell (.ran .handleResponseFile)).Starts → s.r.responseDone = true := hstarts
  have hr : (s.tell (.ran .handleResponseFile)).r = s.r := rfl
  have hfd : (s.tell (.ran .handleResponseFile)).resourceFd = s.resourceFd := rfl
  have hc : (s.tell (.ran .handleResponseFile)).c = s.c := rfl
  generalize s.tell (.ran .handleResponseFile) = s₁ at h hsend hdone hwrites hstarts hr hfd hc ⊢
  rw [← hc] at hsend herr hwev
  rw [← hr] at hdone hstarts
  rw [← hfd] at hsend
  cases htime : s₁.c.wev.timedout with
  | true =>
      rw [if_pos htime] at h
      exact .single (.constructErr (fun hs => .inl (hstarts hs)) h) (herr htime)
  | false =>
      rw [if_neg (by simp [htime])] at h
      obtain ⟨⟨ret, file, os⟩, hfile, h⟩ := bind_ok h
      dsimp only at h
      refine .step (.sendFile calls hwrites hwev hfile) (hsend htime) ?_
      replace hwrites : Exchange.Writes
          { s₁.tell (.fileToClient (file.sent.drop s₁.file.sent.length)) with file := file } :=
        ⟨hwrites.ready, hwrites.active⟩
      cases ret with
      | none => contradiction
      | some ret =>
          cases ret with
          | ok => exact .single (.done calls hwrites (.inl hwev) h) (hdone ⟨htime, file, os, hfile⟩)
          | error =>
              cases h
              exact .single (.close calls) hquiet
          | again | invalidRequest =>
              dsimp only at h
              split at h
              · cases h
                exact .single (.timeWev _ _ hwrites.active) hquiet
              · cases h
                exact .refl _

theorem bufferSend_ok {b b' : Buffer} {o : Send} {xs : List UInt8}
    (h : bufferSend b o = (.ok, xs, b')) : b' = {} ∧ xs = b.pending := by
  cases o with
  | all =>
      cases h
      exact ⟨rfl, rfl⟩
  | again n | fail n =>
      simp only [bufferSend] at h
      split at h
      · cases h
        exact ⟨rfl, rfl⟩
      · cases h

theorem Exchange.done_self (h : s.r.responseDone = true) :
    ({ s with r := { s.r with responseDone := true } } : Exchange) = s := by
  rw [← h]

/-- The end of a response that is already known to be complete. -/
theorem Move.sent (hwrites : s.Writes) (hwev : s.c.wev.handler = some .handleResponse)
    (hbuf : s.sendBuffer = {}) (hdone : s.r.responseDone = true)
    (h : s.httpResponseDone cfg calls = .ok s') : Move cfg (.done s.r.keepAlive s.r.curUpstream) s s' := by
  refine .done calls hwrites (.inr ⟨hwev, hbuf, .inl hdone⟩) ?_
  rw [Exchange.done_self hdone]
  exact h

theorem handleResponse_moves (hquiet : A .quiet) (hsend : s.c.wev.timedout = false → A .send)
    (hsendFile : s.SendsFile calls .handleResponse → A (.sendFile s.resourceFd (s.fileLost calls)))
    (hcomplete : s.Completes calls .handleResponse → A (.done s.r.keepAlive s.r.curUpstream))
    (hwrites : s.Writes) (hstarts : s.Starts → s.r.responseDone = true)
    (hwev : s.c.wev.handler = some .handleResponse) (h : s.handleResponse cfg calls = .ok s') :
    Moves cfg A s s' := by
  unfold Exchange.handleResponse at h
  refine .step (.ran s .handleResponse) hquiet ?_
  dsimp only at h
  split at h
  · cases h
    exact .single (.close calls) hquiet
  · next htime =>
    have hintime : s.c.wev.timedout = false := Bool.eq_false_iff.mpr htime
    cases hb : bufferSend (s.tell (.ran .handleResponse)).sendBuffer calls.send with
    | mk err rest =>
        obtain ⟨xs, b⟩ := rest
        rw [hb] at h
        refine .step (.send ⟨hwrites.ready, hwrites.active⟩ hwev hb) (hsend hintime) ?_
        replace hwrites : Exchange.Writes
            { (s.tell (.ran .handleResponse)).tell (.toClient xs) with sendBuffer := b } :=
          ⟨hwrites.ready, hwrites.active⟩
        cases err with
        | ok =>
            have hbuf := (bufferSend_ok hb).1
            have hret : (bufferSend s.sendBuffer calls.send).1 = .ok := congrArg Prod.fst hb
            dsimp only at h
            split at h
            · next hdone =>
              exact .single (.sent hwrites hwev hbuf hdone h) (hcomplete ⟨hintime, hret, .inl hdone⟩)
            · next hdone =>
              split at h
              · next hup =>
                cases h
                exact .single (.delWev hwrites hup) hquiet
              · next hup =>
                split at h
                · next hfd =>
                  refine .step (.toFile hwrites hwev hbuf (not_not.mp hup) hfd (Bool.eq_false_iff.mpr hdone))
                    hquiet ?_
                  have hsends : s.SendsFile calls .handleResponse :=
                    ⟨hintime, hret, Bool.eq_false_iff.mpr hdone, not_not.mp hup, hfd⟩
                  refine handleResponseFile_moves hquiet (fun _ => hsendFile hsends)
                    (fun htrue => absurd htrue htime)
                    (fun hfile => hcomplete ?_) ⟨hwrites.ready, hwrites.active⟩ hstarts rfl h
                  exact ⟨hintime, hret, .inr ⟨not_not.mp hup, fun _ => hfile.2⟩⟩
                · next hfd =>
                  refine .single (.done calls hwrites (.inr ⟨hwev, hbuf, .inr ⟨not_not.mp hup, hfd⟩⟩) h)
                    (hcomplete ?_)
                  exact ⟨hintime, hret, .inr ⟨not_not.mp hup, fun hpos => absurd hpos hfd⟩⟩
        | again =>
            cases h
            exact .single (.timeWev _ _ hwrites.active) hquiet
        | error | invalidRequest =>
            cases h
            exact .single (.close calls) hquiet

/-! ## the client's read event -/

/-- Without a `content_length` the body is complete at once. -/
theorem parseRequestBodyIdentity_none (h : s.contentLength ≤ 0) : s.parseRequestBodyIdentity = (.ok, s) := by
  unfold Exchange.parseRequestBodyIdentity
  rw [if_pos h]

theorem requestHandleBody_moves (hquiet : A .quiet) (hread : A .read) (herr : s.c.rev.timedout = true → A .err)
    (hreads : s.Reads) (hbody : s.contentLength ≤ 0) (hrev : s.c.rev.handler = some .requestHandleBody)
    (h : s.requestHandleBody cfg calls = .ok s') : Moves cfg A s s' := by
  have hline : s.LineRead := .inr hrev
  unfold Exchange.requestHandleBody at h
  refine .step (.ran s .requestHandleBody) hquiet ?_
  dsimp only at h
  split at h
  · next htime => exact .single (.constructErr (fun hs => absurd hs hline.not_starts) h) (herr htime)
  · refine .step (.recv calls.recvBody ⟨hreads.ready, hreads.active⟩) hread ?_
    have hnone : ((s.tell (.ran .requestHandleBody)).recvClient calls.recvBody).2.contentLength ≤ 0 := hbody
    have hrev₁ : ((s.tell (.ran .requestHandleBody)).recvClient calls.recvBody).2.c.rev.handler =
        some .requestHandleBody := hrev
    have hreads₁ : ((s.tell (.ran .requestHandleBody)).recvClient calls.recvBody).2.Reads :=
      ⟨hreads.ready, hreads.active⟩
    generalize (s.tell (.ran .requestHandleBody)).recvClient calls.recvBody = ns at h hnone hrev₁ hreads₁ ⊢
    obtain ⟨n, s₁⟩ := ns
    dsimp only at h hnone hrev₁ hreads₁ ⊢
    split at h
    · cases h
      exact .single (.close calls) hquiet
    · rw [parseRequestBodyIdentity_none hnone] at h
      dsimp only at h
      split at h
      · next hup =>
        split at h
        · next hdone =>
          cases h
          exact .single (.await hrev₁ hup hdone) hread
        · next hdone =>
          obtain ⟨s₂, hs₂, h⟩ := bind_ok h
          cases h
          refine .step (.respond hrev₁ hreads₁ hup (Bool.eq_false_iff.mpr hdone) hs₂) hread ?_
            ((constructResponse_closed hs₂).trans rfl)
          refine .single (.timeWev _ _ ?_) hquiet
          obtain ⟨b, -, hs₂⟩ := constructResponse_eq hs₂
          rw [hs₂]
          exact congrArg EventS.active (EventS.addEvent_eq _)
      · next hup =>
        refine .step (.rewind hrev₁ hreads₁ hup) hread ?_
        split at h
        · cases h
          refine .single (.attached hup rfl (.inl rfl) (.inl ?_)) hquiet
          exact (EventS.addTimer_handler _ _ _).trans (EventS.addEvent_handler _)
        · cases h
          exact .single (.state _) hread

theorem bodyBegins_moves (hquiet : A .quiet) (hread : A .read) (herr : s.c.rev.timedout = true → A .err)
    (hreads : s.Reads) (hbody : s.contentLength ≤ 0) (hrev : s.c.rev.handler = some .httpParseHeaders)
    (h : Exchange.requestHandleBody cfg calls ((s.tell (.headersRead s.headersEnd)).onRev fun ev =>
      { ev with handler := some .requestHandleBody }) = .ok s') :
    Moves cfg A s s' := by
  refine .step (.headersRead hrev) hread ?_
  exact requestHandleBody_moves hquiet hread herr ⟨hreads.ready, hreads.active⟩ hbody rfl h

theorem httpParseHeaders_moves (hquiet : A .quiet) (hread : A .read)
    (herr : s.Fails cfg calls .httpParseHeaders → A .err) (hreads : s.Reads) (hbody : s.contentLength ≤ 0)
    (hrev : s.c.rev.handler = some .httpParseHeaders) (h : s.httpParseHeaders cfg calls = .ok s') :
    Moves cfg A s s' := by
  unfold Exchange.httpParseHeaders at h
  refine .step (.ran s .httpParseHeaders) hquiet ?_
  have hnot : ∀ {s₁ : Exchange}, s₁.c.rev.handler = s.c.rev.handler → ¬ s₁.Starts := fun heq =>
    Exchange.LineRead.not_starts (.inl (heq.trans hrev))
  dsimp only at h
  split at h
  · next htime =>
    refine .single (.err s.c { s.r with keepAlive := false } s.recvBuffer s.recvBehind s.up [] 404 (.inl rfl)
      (fun hs => absurd hs (hnot rfl)) rfl (.inl ⟨rfl, rfl⟩) (fun d hd => nomatch hd) ?_) (herr (.inl htime))
    rw [List.append_nil]
    exact h
  · next htime =>
    refine .step (.recv calls.recvHeaders ⟨hreads.ready, hreads.active⟩) hread ?_
    split at h
    · cases h
      exact .single (.close calls) hquiet
    · obtain ⟨d, hd, h⟩ := bind_ok h
      have hframe := headersLoop_frame hd
      have hbad : s.r.responseDone = false → d.r.responseDone = true → A .err := fun hdone hanswered =>
        herr (.inr ⟨hdone, headersLoop_answers hd hdone hanswered⟩)
      have hr : ((s.tell (.ran .httpParseHeaders)).recvClient calls.recvHeaders).2.r = s.r := rfl
      have hc : ((s.tell (.ran .httpParseHeaders)).recvClient calls.recvHeaders).2.c = s.c := rfl
      have hnone : ((s.tell (.ran .httpParseHeaders)).recvClient calls.recvHeaders).2.contentLength ≤ 0 := hbody
      have hreads₁ : ((s.tell (.ran .httpParseHeaders)).recvClient calls.recvHeaders).2.Reads :=
        ⟨hreads.ready, hreads.active⟩
      generalize ((s.tell (.ran .httpParseHeaders)).recvClient calls.recvHeaders).2 = s₁
        at h hd hframe hr hc hnone hreads₁ ⊢
      rw [← hr] at hbad
      have hrev₁ : s₁.c.rev.handler = some .httpParseHeaders := by
        rw [hc]
        exact hrev
      have htime₁ : ¬ s₁.c.rev.timedout = true := by
        rw [hc]
        exact htime
      have hstatus := headersLoop_status hd
      have hup : d.r.upstream = s₁.r.upstream := by rw [hframe]; rfl
      have hcur : d.r.curUpstream = s₁.r.curUpstream := by rw [hframe]; rfl
      -- the request behind the loop, unless the loop has answered
      have hparse : d.r.responseDone = s₁.r.responseDone →
          Move cfg .read s₁ { s₁ with r := d.r, recvBuffer := d.b, recvBehind := d.behind } := fun hsame =>
        .parse (.inr hrev₁) (headersLoop_parsed hd) hup hsame hcur
      have hreads₂ : d.r.responseDone = s₁.r.responseDone →
          Exchange.Reads { s₁ with r := d.r, recvBuffer := d.b, recvBehind := d.behind } := fun hsame =>
        ⟨hreads₁.ready, fun hdone => hreads₁.active (hsame.symm.trans hdone)⟩
      cases hloop : d.status with
      | waiting =>
          rw [hloop] at h hstatus
          have hsame := hstatus.resolve_left (by simp)
          refine .step (hparse hsame) hread ?_
          dsimp only at h
          split at h
          · cases h
            exact .refl _
          · cases h
            refine .single (.timeRev _ _ (hreads₂ hsame) fun hs => ?_) hread
            exact absurd hs (Exchange.LineRead.not_starts (.inl hrev₁))
      | answered | closed =>
          rw [hloop] at h hstatus
          refine .step (hparse (hstatus.resolve_left (by simp))) hread ?_
          cases h
          exact .single (.close calls) hquiet
      | body =>
          rw [hloop] at h
          dsimp only at h
          split at h
          · next hfailed =>
            obtain ⟨s₂, hs₂, h⟩ := bind_ok h
            rw [Bool.and_eq_true, Bool.not_eq_true'] at hfailed
            have herr' := hbad hfailed.2 hfailed.1
            have hans := constructErr_answered hs₂
            refine .step (show Move cfg .err _ s₂ from .err s₁.c d.r d.b d.behind s₁.up [] 400 (.inl rfl)
              (fun hs => absurd hs (Exchange.LineRead.not_starts (.inl hrev₁))) hcur
              (.inl ⟨hup, rfl⟩) (fun d hd => nomatch hd) ?_) herr' ?_ hans.closed
            · rw [List.append_nil]
              exact hs₂
            · have hreads₃ : s₂.Reads := by
                refine ⟨?_, fun hdone => ?_⟩
                · rw [hans.rev, EventS.delEvent_fetched]
                  exact hreads₁.ready
                · rw [hans.request] at hdone
                  exact nomatch hdone
              refine bodyBegins_moves hquiet hread (fun _ => herr') hreads₃ ?_ ?_ h
              · rw [hans.body]
                exact hnone
              · rw [hans.rev, EventS.delEvent_handler]
                exact hrev₁
          · next hfailed =>
            have hsame : d.r.responseDone = s₁.r.responseDone := by
              cases hs₁done : s₁.r.responseDone with
              | true =>
                  rw [headersLoop_done hs₁done] at hd
                  cases hd
                  exact hs₁done
              | false =>
                  cases hdone : d.r.responseDone with
                  | false => rfl
                  | true => simp [hdone, hs₁done] at hfailed
            refine .step (hparse hsame) hread ?_
            exact bodyBegins_moves hquiet hread (fun htrue => absurd htrue htime₁) (hreads₂ hsame) hnone hrev₁ h

/-! ## the lookup -/

/-- The handlers that `try_connect` may have installed at a back end's
connection. -/
structure Connects (up up' : Connection) : Prop where
  rev : up'.rev.handler = up.rev.handler ∨ up'.rev.handler = some .httpRecvUpstream
  wev : up'.wev.handler = up.wev.handler ∨ up'.wev.handler = some .httpProxyPass ∨
    up'.wev.handler = some .processConnectionResultOfUpstream

theorem Connects.trans {up up₁ up₂ : Connection} (h : Connects up up₁) (h' : Connects up₁ up₂) :
    Connects up up₂ where
  rev := by
    cases h'.rev with
    | inl heq =>
        rw [heq]
        exact h.rev
    | inr hset => exact .inr hset
  wev := by
    cases h'.wev with
    | inl heq =>
        rw [heq]
        exact h.wev
    | inr hset => exact .inr hset

/-- `try_connect` changes the back end's connection only. -/
theorem tryConnect_eq (cfg : Config) (calls : Calls) (s : Exchange) (k : Nat) (ret : Ret) :
    ∃ up, s.tryConnect cfg calls k ret = { s with up := up } ∧ Connects s.up up := by
  have hsocket : ∃ up, (if s.up.fd ≤ 0 then { s with up := { s.up with fd := calls.socket } } else s) =
      { s with up := up } ∧ up.rev = s.up.rev ∧ up.wev = s.up.wev := by
    split
    · exact ⟨_, rfl, rfl, rfl⟩
    · exact ⟨s.up, rfl, rfl, rfl⟩
  obtain ⟨up, heq, hrev, hwev⟩ := hsocket
  unfold Exchange.tryConnect
  rw [heq]
  cases ret with
  | ok =>
      refine ⟨_, rfl, ?_, ?_⟩
      · exact .inr rfl
      · exact .inr (.inl (EventS.addTimer_handler _ _ _))
  | again =>
      refine ⟨_, rfl, ?_, ?_⟩
      · exact .inl (congrArg EventS.handler hrev)
      · exact .inr (.inr ((EventS.addTimer_handler _ _ _).trans (EventS.addEvent_handler _)))
  | error | invalidRequest =>
      dsimp only
      split
      · refine ⟨_, rfl, ?_, ?_⟩
        · exact .inl (congrArg EventS.handler hrev)
        · exact .inl ((EventS.delEvent_handler _).trans (congrArg EventS.handler hwev))
      · refine ⟨_, rfl, ?_, ?_⟩
        · exact .inl (congrArg EventS.handler hrev)
        · exact .inl (congrArg EventS.handler hwev)

/-- What the acts of a selection do to the exchange, as long as it does not
give up. -/
theorem applyActs_quiet {acts : List Act} (hquiet : ∀ status, .constructErr status ∉ acts) {k : Nat}
    (h : s.applyActs cfg calls k acts = .ok s') :
    ∃ up, s' = { s with up := up, log := s.log ++ acts.map .balancer } ∧ Connects s.up up := by
  induction acts generalizing k s with
  | nil =>
      refine ⟨s.up, ?_, .inl rfl, .inl rfl⟩
      rw [List.map_nil, List.append_nil]
      exact (Except.ok.inj h).symm
  | cons a acts ih =>
      have hrest : ∀ status, .constructErr status ∉ acts := fun status hmem =>
        hquiet status (List.mem_cons_of_mem a hmem)
      have htell : ∀ {k : Nat} {s₁ : Exchange}, s₁.applyActs cfg calls k acts = .ok s' →
          (∃ up, s₁ = { s.tell (.balancer a) with up := up } ∧ Connects s.up up) →
          ∃ up, s' = { s with up := up, log := s.log ++ (a :: acts).map .balancer } ∧ Connects s.up up := by
        intro k s₁ hacts hs₁
        obtain ⟨up₁, rfl, hup₁⟩ := hs₁
        obtain ⟨up, hs', hup⟩ := ih hrest hacts
        refine ⟨up, ?_, hup₁.trans hup⟩
        rw [hs']
        simp [Exchange.tell]
      cases a with
      | tryConnect us ret =>
          refine htell h ?_
          obtain ⟨up, heq, hup⟩ := tryConnect_eq cfg calls (s.tell (.balancer (.tryConnect us ret))) k ret
          exact ⟨up, heq, hup⟩
      | constructErr status => exact absurd List.mem_cons_self (hquiet status)
      | connectFailed us => exact htell h ⟨s.up, rfl, .inl rfl, .inl rfl⟩
      | connectTimedout us => exact htell h ⟨s.up, rfl, .inl rfl, .inl rfl⟩
      | free us => exact htell h ⟨s.up, rfl, .inl rfl, .inl rfl⟩

theorem applyActs_append {acts acts' : List Act} (hquiet : ∀ status, .constructErr status ∉ acts) {k : Nat}
    (h : s.applyActs cfg calls k (acts ++ acts') = .ok s') :
    ∃ k' s₁, s.applyActs cfg calls k acts = .ok s₁ ∧ s₁.applyActs cfg calls k' acts' = .ok s' := by
  induction acts generalizing k s with
  | nil => exact ⟨k, s, rfl, h⟩
  | cons a acts ih =>
      have hrest : ∀ status, .constructErr status ∉ acts := fun status hmem =>
        hquiet status (List.mem_cons_of_mem a hmem)
      cases a with
      | constructErr status => exact absurd List.mem_cons_self (hquiet status)
      | tryConnect us ret => exact ih hrest h
      | connectFailed us => exact ih hrest h
      | connectTimedout us => exact ih hrest h
      | free us => exact ih hrest h

/-- `try_connect_upstream` for a request without a server: one is selected, or
an error page is constructed. -/
theorem tryConnectUpstream_cases {target : Option (List UInt8)} (hcur : s.r.curUpstream = none)
    (h : s.tryConnectUpstream cfg calls target = .ok s') :
    ∃ sel r₁ acts₁ up,
      PWebServer.tryConnectUpstream cfg.loadBalance (s.outside calls) calls.servers calls.rings s.r target =
        .ok sel ∧ Selects s.r r₁ acts₁ ∧ Connects s.up up ∧
      (s' = { s with r := r₁, up := up, log := s.log ++ acts₁.map .balancer } ∨
        .constructErr 502 ∈ sel.acts ∧
          Exchange.constructErr cfg { s with
            r := r₁.constructErr 502, up := up
            log := (s.log ++ acts₁.map .balancer) ++ [.balancer (.constructErr 502)] } 502 = .ok s') := by
  obtain ⟨sel, hsel, h⟩ := bind_ok h
  cases tryConnectUpstream_chooses hcur hsel with
  | inl hkept =>
      obtain ⟨up, hs', hup⟩ := applyActs_quiet hkept.quiet h
      exact ⟨sel, sel.r, sel.acts, up, hsel, hkept, hup, .inl hs'⟩
  | inr hgives =>
      obtain ⟨r₁, acts₁, hkept, hr, hacts⟩ := hgives
      rw [hacts] at h
      obtain ⟨k', s₁, hs₁, hend⟩ := applyActs_append hkept.quiet h
      obtain ⟨up, heq, hup⟩ := applyActs_quiet hkept.quiet hs₁
      refine ⟨sel, r₁, acts₁, up, hsel, hkept, hup, .inr ⟨?_, ?_⟩⟩
      · rw [hacts]
        exact List.mem_append_right _ List.mem_cons_self
      · obtain ⟨s₂, hs₂, hend⟩ := bind_ok hend
        cases hend
        rw [heq, hr] at hs₂
        exact hs₂

theorem uriDone_responseDone (s : Exchange) : s.r.responseDone = s.uriDone.r.responseDone := by
  unfold Exchange.uriDone
  dsimp only
  split <;> rfl

/-- The request line has been read, and the lookup begins. -/
theorem requestProcessUri_moves {r : HttpRequest} {b : Buffer} (hread : A .read) (herr : A .err)
    (hrev : s.c.rev.handler = some .ngxHttpProcessRequestLine) (hready : s.c.rev.fetched = false)
    (hwaits : s.r.responseDone = false) (hr : r = s.r.withLine r) (hbuf : s.recvBuffer.Parsed b)
    (hcur : s.r.curUpstream = none)
    (h : Exchange.requestProcessUri cfg calls
      ({ s with r := r, recvBuffer := b }.onRev fun ev => { ev with handler := some .httpParseHeaders }) =
        .ok s') :
    Moves cfg A s s' ∧ s'.c.rev.handler = some .httpParseHeaders ∧ s'.closed = s.closed ∧
      s'.contentLength = s.contentLength ∧ s'.c.rev.fetched = false ∧
      (s'.r.responseDone = false → s'.c.rev.active = s.c.rev.active) := by
  have hfails : ∀ {b₁ : Buffer} {status : Int} {s₂ : Exchange},
      Exchange.constructErr cfg
        { s with
          c := { s.c with rev := { s.c.rev with handler := some .httpParseHeaders } }
          r := r, recvBuffer := b₁ } status = .ok s₂ →
      Moves cfg A s s₂ ∧ s₂.c.rev.handler = some .httpParseHeaders ∧ s₂.closed = s.closed ∧
        s₂.contentLength = s.contentLength ∧ s₂.c.rev.fetched = false ∧
        (s₂.r.responseDone = false → s₂.c.rev.active = s.c.rev.active) := by
    intro b₁ status s₂ hs₂
    have hcur' : r.curUpstream = s.r.curUpstream := by rw [hr]; rfl
    have hup' : r.upstream = s.r.upstream := by rw [hr]; rfl
    have hans := constructErr_answered hs₂
    refine ⟨.single (.err { s.c with rev := { s.c.rev with handler := some .httpParseHeaders } } r b₁ s.recvBehind
      s.up [] status (.inr ⟨hrev, rfl⟩) (fun _ => .inr hready) hcur' (.inl ⟨hup', rfl⟩) (fun d hd => nomatch hd) ?_) herr,
      ?_, hans.closed, hans.body, ?_, fun hdone => ?_⟩
    · rw [List.append_nil]
      exact hs₂
    · rw [hans.rev]
      exact EventS.delEvent_handler _
    · rw [hans.rev, EventS.delEvent_fetched]
      exact hready
    · rw [hans.request] at hdone
      exact nomatch hdone
  unfold Exchange.requestProcessUri at h
  split at h
  · split at h
    · contradiction
    · next hup =>
      cases hslot : calls.slot with
      | none =>
          rw [hslot] at h
          contradiction
      | some slot =>
          rw [hslot] at h
          obtain ⟨s₂, hs₂, h⟩ := bind_ok h
          cases h
          have hcur' : ({ r with upstream := some slot } : HttpRequest).curUpstream = none := by
            rw [hr]
            exact hcur
          obtain ⟨sel, r₁, acts₁, up, -, hsel, hup₁, hend⟩ := tryConnectUpstream_cases hcur' hs₂
          have hforward := @Move.forward cfg _ _ _ b _ _ _ hrev hwaits hr hbuf hsel hup₁.rev hup₁.wev
          rw [← List.singleton_append, ← List.append_assoc] at hforward
          cases hend with
          | inl hkept =>
              rw [hkept]
              exact ⟨.step hforward hread (.single (.uriDone rfl) hread), rfl, rfl, rfl, hready, fun _ => rfl⟩
          | inr hgives =>
              have hans := constructErr_answered hgives.2
              have hrev₂ : s₂.c.rev.handler = some .httpParseHeaders := by
                rw [hans.rev]
                exact EventS.delEvent_handler _
              refine ⟨.step hforward hread (.step (show Move cfg .err _ s₂ from ?_) herr
                (.single (.uriDone hrev₂) hread) hans.closed), hrev₂, hans.closed, hans.body, ?_, fun hdone => ?_⟩
              · exact .err { s.c with rev := { s.c.rev with handler := some .httpParseHeaders } }
                  (r₁.constructErr 502) b s.recvBehind up [.balancer (.constructErr 502)] 502
                  (.inl rfl) (fun hs => absurd hs (Exchange.LineRead.not_starts (.inl rfl))) rfl
                  (.inl ⟨rfl, rfl⟩) (fun d hd => .inl (List.mem_singleton.mp hd)) hgives.2
              · refine (congrArg EventS.fetched hans.rev).trans ?_
                exact (EventS.delEvent_fetched _).trans hready
              · have hanswered : s₂.r.responseDone = true := by
                  rw [hans.request]
                  rfl
                exact nomatch (hanswered.symm.trans (uriDone_responseDone s₂)).trans hdone
  · split at h
    · exact hfails h
    · next hfd =>
      split at h
      · split at h
        · exact hfails h
        · next hindex =>
          cases h
          exact ⟨.step (.openFile hrev hwaits hr (not_le.mp hindex)) hread (.single (.uriDone rfl) hread), rfl, rfl,
            rfl, hready, fun _ => rfl⟩
      · cases h
        exact ⟨.step (.openFile hrev hwaits hr (not_le.mp hfd)) hread (.single (.uriDone rfl) hread), rfl, rfl,
          rfl, hready, fun _ => rfl⟩

theorem ngxHttpProcessRequestLine_moves (hquiet : A .quiet) (hread : A .read) (herr : A .err)
    (hreads : s.Reads) (hbody : s.contentLength ≤ 0) (hwaits : s.r.responseDone = false)
    (hrev : s.c.rev.handler = some .ngxHttpProcessRequestLine) (hcur : s.r.curUpstream = none)
    (h : s.ngxHttpProcessRequestLine cfg calls = .ok s') : Moves cfg A s s' := by
  unfold Exchange.ngxHttpProcessRequestLine at h
  refine .step (.ran s .ngxHttpProcessRequestLine) hquiet ?_
  dsimp only at h
  split at h
  · exact .single (.constructErr (fun _ => .inr hreads.ready) h) herr
  · refine .step (.recv calls.recvLine ⟨hreads.ready, hreads.active⟩) hread ?_
    have hr : ((s.tell (.ran .ngxHttpProcessRequestLine)).recvClient calls.recvLine).2.r = s.r := rfl
    have hc : ((s.tell (.ran .ngxHttpProcessRequestLine)).recvClient calls.recvLine).2.c = s.c := rfl
    have hnone : ((s.tell (.ran .ngxHttpProcessRequestLine)).recvClient calls.recvLine).2.contentLength ≤ 0 :=
      hbody
    generalize ((s.tell (.ran .ngxHttpProcessRequestLine)).recvClient calls.recvLine).2 = s₁ at h hr hc hnone ⊢
    rw [← hr] at hcur hwaits
    rw [← hc] at hrev
    have hready : s₁.c.rev.fetched = false := by
      rw [hc]
      exact hreads.ready
    have hactive : s₁.c.rev.active = true := by
      rw [hc]
      exact hreads.active (hr ▸ hwaits)
    split at h
    · cases h
      exact .single (.close calls) hquiet
    · cases hparse : parseRequestLine s₁.r s₁.recvBuffer with
      | mk ret rest =>
          obtain ⟨r, b⟩ := rest
          have hframe := parseRequestLine_frame hparse
          have hbuf := parseRequestLine_parsed hparse
          have hup : r.upstream = s₁.r.upstream := by rw [hframe]; rfl
          have hdone : r.responseDone = s₁.r.responseDone := by rw [hframe]; rfl
          have hcur' : r.curUpstream = s₁.r.curUpstream := by rw [hframe]; rfl
          rw [hparse] at h
          cases ret with
          | ok =>
              obtain ⟨s₂, hs₂, h⟩ := bind_ok h
              have hline : ({ r with state := .hdBegin } : HttpRequest) =
                  s₁.r.withLine { r with state := .hdBegin } := by
                rw [hframe]
                rfl
              obtain ⟨hlookup, hrev₂, hopen, hbody₂, hready₂, hactive₂⟩ :=
                requestProcessUri_moves hread herr hrev hready hwaits hline hbuf hcur hs₂
              refine hlookup.trans (httpParseHeaders_moves hquiet hread (fun _ => herr) ⟨hready₂, ?_⟩ ?_ hrev₂ h)
                hopen
              · exact fun hdone₂ => (hactive₂ hdone₂).trans hactive
              · rw [hbody₂]
                exact hnone
          | again =>
              dsimp only at h
              split at h
              · contradiction
              · cases h
                refine .step (.parse (m := s₁.recvBehind) (.inl hrev) hbuf hup hdone hcur') hread ?_
                refine .single (.timeRev _ _ ⟨hready, fun _ => hactive⟩ fun _ => ?_) hread
                exact hdone.trans hwaits
          | error | invalidRequest =>
              refine .single (.err s₁.c r b s₁.recvBehind s₁.up [] 400 (.inl rfl) (fun _ => .inr hready) hcur' (.inl ⟨hup, rfl⟩)
                (fun d hd => nomatch hd) ?_) herr
              rw [List.append_nil]
              exact h

theorem httpInitRequest_moves (hquiet : A .quiet) (hread : A .read) (herr : A .err) (hreads : s.Reads)
    (hbody : s.contentLength ≤ 0) (hwaits : s.r.responseDone = false)
    (hrev : s.c.rev.handler = some .httpInitRequest) (hcur : s.r.curUpstream = none)
    (h : s.httpInitRequest cfg calls = .ok s') : Moves cfg A s s' := by
  unfold Exchange.httpInitRequest at h
  refine .step (.ran s .httpInitRequest) hquiet ?_
  dsimp only at h
  split at h
  · cases h
    exact .single (.drop hrev) hquiet
  · refine .step (.lineBegins hrev) hread ?_
    exact ngxHttpProcessRequestLine_moves hquiet hread herr ⟨hreads.ready, hreads.active⟩ hbody hwaits rfl hcur h

/-! ## the back end -/

/-- A back end's connection that is closed before an error page is
constructed. -/
theorem Move.closeUpstream {status : Int} (hline : ¬ s.Starts)
    (h : s.closeUpstream.constructErr cfg status = .ok s') : Move cfg .err s s' := by
  refine .err s.c { s.r with upstream := none } s.recvBuffer s.recvBehind s.up.close [] status (.inl rfl)
    (fun hs => absurd hs hline) rfl (.inr ⟨rfl, rfl⟩) (fun d hd => nomatch hd) ?_
  rw [List.append_nil]
  exact h

/-- An operation on the events of an attached back end that keeps the
handlers. -/
theorem Move.onUpRev {f : EventS → EventS} (hup : s.r.upstream ≠ none) (hf : ∀ ev, (f ev).handler = ev.handler) :
    Move cfg .quiet s (s.onUpRev f) := .attached hup rfl (.inl (hf _)) (.inl rfl)

theorem Move.onUpWev {f : EventS → EventS} (hup : s.r.upstream ≠ none) (hf : ∀ ev, (f ev).handler = ev.handler) :
    Move cfg .quiet s (s.onUpWev f) := .attached hup rfl (.inl rfl) (.inl (hf _))

theorem httpProxyPass_moves (hquiet : A .quiet) (herr : s.Fails cfg calls .httpProxyPass → A .err)
    (hpass : 0 < s.up.fd → s.up.wev.timedout = false →
      A (.pass (bufferSend s.recvBuffer calls.send).1 (bufferSend s.recvBuffer calls.send).2.1))
    (hattached : 0 < s.up.fd → s.r.upstream ≠ none ∧ ¬ s.Starts)
    (h : s.httpProxyPass cfg calls = .ok s') : Moves cfg A s s' := by
  unfold Exchange.httpProxyPass at h
  refine .step (.ran s .httpProxyPass) hquiet ?_
  dsimp only at h
  split at h
  · cases h
    exact .refl _
  · next hfd =>
    have hfd' : 0 < s.up.fd := not_le.mp hfd
    obtain ⟨hup, hline⟩ := hattached hfd'
    split at h
    · next htime => exact .single (.closeUpstream hline h) (herr ⟨hfd', .inl htime⟩)
    · next htime =>
      replace hpass := hpass hfd' (Bool.eq_false_iff.mpr htime)
      cases hb : bufferSend (s.tell (.ran .httpProxyPass)).recvBuffer calls.send with
      | mk err rest =>
          obtain ⟨xs, b⟩ := rest
          have hb' : bufferSend s.recvBuffer calls.send = (err, xs, b) := hb
          rw [hb] at h
          rw [hb'] at hpass
          have htimer : ∀ s₂ : Exchange, s₂.r.upstream ≠ none →
              (if s₂.up.rev.timerSet then pure s₂
                else pure (s₂.onUpRev (EventS.addTimer calls.now cfg.upstreamTimeout)) : Except Fault Exchange) =
                  .ok s' → Moves cfg A s₂ s' := by
            intro s₂ hup₂ hs₂
            split at hs₂
            · cases hs₂
              exact .refl _
            · cases hs₂
              exact .single (.onUpRev hup₂ (EventS.addTimer_handler · _ _)) hquiet
          cases err with
          | ok =>
              refine .step (.passAll hfd' hb) hpass ?_
              exact .step (.onUpWev hup EventS.delEvent_handler) hquiet (htimer _ hup h)
          | error =>
              obtain ⟨s₂, hs₂, h⟩ := bind_ok h
              have hans := constructErr_answered hs₂
              refine .step (.pass hfd' hb (by simp)) hpass ?_
              refine .step (.constructErr (fun hs => absurd hs hline) hs₂)
                (herr ⟨hfd', .inr (congrArg Prod.fst hb)⟩) (htimer _ ?_ h) (hans.closed.trans rfl)
              rw [hans.request]
              exact hup
          | again | invalidRequest => exact .step (.pass hfd' hb (by simp)) hpass (htimer _ hup h)

theorem httpRecvUpstream_moves (hquiet : A .quiet) (herr : s.Fails cfg calls .httpRecvUpstream → A .err)
    (hrelay : 0 < s.up.fd → s.up.rev.timedout = false →
      A (.relay (bufferRecv s.sendBuffer calls.recvUpstream).2.1))
    (hattached : 0 < s.up.fd → s.r.upstream ≠ none ∧ ¬ s.Starts)
    (h : s.httpRecvUpstream cfg calls = .ok s') : Moves cfg A s s' := by
  unfold Exchange.httpRecvUpstream at h
  refine .step (.ran s .httpRecvUpstream) hquiet ?_
  dsimp only at h
  split at h
  · cases h
    exact .refl _
  · next hfd =>
    have hfd' : 0 < s.up.fd := not_le.mp hfd
    obtain ⟨hup, hline⟩ := hattached hfd'
    split at h
    · next htime => exact .single (.closeUpstream hline h) (herr ⟨hfd', .inl htime⟩)
    · next htime =>
      replace hrelay := hrelay hfd' (Bool.eq_false_iff.mpr htime)
      cases hb : bufferRecv (s.tell (.ran .httpRecvUpstream)).sendBuffer calls.recvUpstream with
      | mk err rest =>
          obtain ⟨xs, b⟩ := rest
          have hxs : (bufferRecv s.sendBuffer calls.recvUpstream).2.1 = xs :=
            congrArg (fun out => out.2.1) hb
          rw [hb] at h
          rw [hxs] at hrelay
          refine .step (.relay hfd' hb) hrelay ?_
          cases err with
          | ok =>
              cases h
              exact .single (.upstreamEof hfd') hquiet
          | error =>
              exact .single (.constructErr (fun hs => absurd hs hline) h)
                (herr ⟨hfd', .inr (congrArg Prod.fst hb)⟩)
          | again | invalidRequest =>
              cases h
              exact .single (.onUpRev hup (EventS.addTimer_handler · _ _)) hquiet

theorem processConnectionResultOfUpstream_moves (hquiet : A .quiet)
    (herr : s.Fails cfg calls .processConnectionResultOfUpstream → A .err)
    (hattached : 0 < s.up.fd → s.r.upstream ≠ none ∧ ¬ s.Starts)
    (h : s.processConnectionResultOfUpstream cfg calls = .ok s') : Moves cfg A s s' := by
  unfold Exchange.processConnectionResultOfUpstream at h
  refine .step (.ran s .processConnectionResultOfUpstream) hquiet ?_
  dsimp only at h
  split at h
  · cases h
    exact .refl _
  · next hfd =>
    have hfd' : 0 < s.up.fd := not_le.mp hfd
    obtain ⟨hup, hline⟩ := hattached hfd'
    split at h
    · next htime =>
      obtain ⟨us, -, h⟩ := bind_ok h
      refine .single (.err s.c s.r s.recvBuffer s.recvBehind s.up [.balancer (.connectTimedout us)] 504 (.inl rfl)
        (fun hs => absurd hs hline) rfl (.inl ⟨rfl, rfl⟩) ?_ h) (herr ⟨hfd', .inl htime⟩)
      exact fun d hd => .inr ⟨us, List.mem_singleton.mp hd⟩
    · split at h
      · next hnone =>
        exact .single (.constructErr (fun hs => absurd hs hline) h) (herr ⟨hfd', .inr (.inl hnone)⟩)
      · next err hsome =>
        obtain ⟨us, hus, h⟩ := bind_ok h
        have hcur : s.r.curUpstream = some us := by
          cases hcur : s.r.curUpstream with
          | none =>
              rw [show (s.tell (.ran .processConnectionResultOfUpstream)).r.curUpstream = s.r.curUpstream
                from rfl, hcur] at hus
              contradiction
          | some us' =>
              rw [show (s.tell (.ran .processConnectionResultOfUpstream)).r.curUpstream = s.r.curUpstream
                from rfl, hcur] at hus
              rw [Except.ok.inj hus]
        split at h
        · cases h
          refine .single (.attached hup rfl (.inr rfl) (.inr ?_)) hquiet
          exact EventS.addTimer_handler _ _ _
        · next herr' =>
          obtain ⟨sel, r₁, acts₁, up, hsel, hselects, hup₁, hend⟩ := tryConnectUpstream_cases rfl h
          generalize hserver : calls.servers.get us = server at h hsel
          have hwev : up.wev.handler = s.up.wev.handler ∨ up.wev.handler = some .httpProxyPass ∨
              up.wev.handler = some .processConnectionResultOfUpstream := by
            cases hup₁.wev with
            | inl heq => exact .inl (heq.trans (EventS.delEvent_handler _))
            | inr hset => exact .inr hset
          have hreconnect := @Move.reconnect cfg (s.tell (.ran .processConnectionResultOfUpstream)) _ _ _ _
            hfd' hcur hselects hup₁.rev hwev
          rw [show Act.connectFailed us :: .free us :: acts₁ = [.connectFailed us, .free us] ++ acts₁ from rfl, List.map_append, ← List.append_assoc] at hreconnect
          cases hend with
          | inl hkept =>
              rw [hkept]
              exact .single hreconnect hquiet
          | inr hgives =>
              refine .step hreconnect hquiet (.single ?_ (herr ⟨hfd', .inr (.inr ?_)⟩))
              · exact .err s.c (r₁.constructErr 502) s.recvBuffer s.recvBehind up [.balancer (.constructErr 502)] 502 (.inl rfl)
                  (fun hs => absurd hs hline) rfl (.inl ⟨rfl, rfl⟩) (fun d hd => .inl (List.mem_singleton.mp hd))
                  hgives.2
              · rw [← hserver] at hsel
                exact ⟨⟨err, hsome, herr'⟩, us, sel, hcur, hsel, hgives.1⟩

end

/-! ## turns -/

/-- The turn `t` runs the handler `h`, which finds the exchange as the last
argument. -/
inductive Exchange.Runs (t : Turn) (s : Exchange) : EventHandler → Exchange → Prop
  | ready {e : EventId} {h : EventHandler} (hopen : s.closed = false) (ht : t.stimulus = .ready e)
      (hfetched : (s.event e).fetched = true) (hhandler : (s.event e).handler = some h) :
      Runs t s h (s.onEvent e fun ev => { ev with fetched := false })
  | expire {e : EventId} {h : EventHandler} (hopen : s.closed = false) (ht : t.stimulus = .expire e)
      (hset : (s.event e).timerSet = true) (hhandler : (s.event e).handler = some h) :
      Runs t s h (s.batchDone.onEvent e fun ev => { ev with timedout := true, timerKey := 0 })

/-- An event that has become due: before its handler runs, only marks are
changed. -/
structure Exchange.Due (s s₁ : Exchange) (e : EventId) (h : EventHandler) : Prop where
  due : (s.event e).fetched = true ∨ (s.event e).timerSet = true
  handler : (s₁.event e).handler = some h
  ready : (s₁.event e).fetched = false
  marked : ∀ e', (s.event e').Marked (s₁.event e')
  same : s₁ = { s with c := s₁.c, up := s₁.up }
  fd : s₁.up.fd = s.up.fd
  idle : s₁.c.isIdle = s.c.isIdle

/-- What holds of an exchange between two moves. -/
structure InOrder (s : Exchange) : Prop where
  handled : Handled s
  flagged : s.closed = false → Flagged s

section

variable {cfg : Config} {t : Turn} {A : Label → Prop} {l : Label} {s s₁ s₂ s' : Exchange}
  {h h' : EventHandler} {e : EventId}

theorem InOrder.move (hs : InOrder s) (hopen : s.closed = false) (hmove : Move cfg l s s') : InOrder s' :=
  ⟨hs.handled.move hmove, (hs.flagged hopen).move hs.handled hmove⟩

theorem EventS.Marked.refl (ev : EventS) : ev.Marked ev := ⟨rfl, rfl, rfl, .inl⟩

theorem EventS.marked_ready (ev : EventS) : ev.Marked { ev with fetched := false } :=
  ⟨rfl, rfl, rfl, fun h => nomatch h⟩

theorem EventS.marked_expired (ev : EventS) : ev.Marked { ev with fetched := false, timedout := true, timerKey := 0 } :=
  ⟨rfl, rfl, rfl, fun h => nomatch h⟩

theorem EventS.marked_poll (ev : EventS) : ev.Marked ev.poll := ⟨rfl, rfl, rfl, .inr⟩

theorem Exchange.Runs.open (hruns : s.Runs t h s₁) : s.closed = false := by
  cases hruns with
  | ready hopen => exact hopen
  | expire hopen => exact hopen

theorem Exchange.Runs.due (hruns : s.Runs t h s₁) : ∃ e, s.Due s₁ e h := by
  cases hruns with
  | @ready e h hopen ht hfetched hhandler =>
      refine ⟨e, .inl hfetched, ?_, ?_, fun e' => ?_, ?_, ?_, ?_⟩
      · cases e <;> exact hhandler
      · cases e <;> rfl
      · cases e <;> cases e' <;> first | exact EventS.Marked.refl _ | exact EventS.marked_ready _
      · cases e <;> rfl
      · cases e <;> rfl
      · cases e <;> rfl
  | @expire e h hopen ht hset hhandler =>
      refine ⟨e, .inr hset, ?_, ?_, fun e' => ?_, ?_, ?_, ?_⟩
      · cases e <;> exact hhandler
      · cases e <;> rfl
      · cases e <;> cases e' <;> first | exact EventS.marked_ready _ | exact EventS.marked_expired _
      · cases e <;> rfl
      · cases e <;> rfl
      · cases e <;> rfl

/-- A turn runs one handler. -/
theorem Exchange.Runs.unique (hruns : s.Runs t h s₁) (hruns' : s.Runs t h' s₂) : h' = h ∧ s₂ = s₁ := by
  cases hruns with
  | ready hopen ht hfetched hhandler =>
      cases hruns' with
      | ready hopen' ht' hfetched' hhandler' =>
          cases ht.symm.trans ht'
          exact ⟨Option.some.inj (hhandler'.symm.trans hhandler), rfl⟩
      | expire hopen' ht' => exact nomatch ht.symm.trans ht'
  | expire hopen ht hset hhandler =>
      cases hruns' with
      | ready hopen' ht' => exact nomatch ht.symm.trans ht'
      | expire hopen' ht' hset' hhandler' =>
          cases ht.symm.trans ht'
          exact ⟨Option.some.inj (hhandler'.symm.trans hhandler), rfl⟩

theorem Exchange.Due.move (hdue : s.Due s₁ e h) : Move cfg .quiet s s₁ := by
  rw [hdue.same]
  exact .mark (hdue.marked .rev) (hdue.marked .wev) (hdue.marked .upRev) (hdue.marked .upWev) hdue.fd hdue.idle

theorem Exchange.Runs.move (hruns : s.Runs t h s₁) : Move cfg .quiet s s₁ := by
  obtain ⟨e, hdue⟩ := hruns.due
  exact hdue.move

theorem Exchange.Runs.closed (hruns : s.Runs t h s₁) : s₁.closed = s.closed := by
  obtain ⟨e, hdue⟩ := hruns.due
  rw [hdue.same]

theorem Exchange.Runs.request (hruns : s.Runs t h s₁) : s₁.r = s.r := by
  obtain ⟨e, hdue⟩ := hruns.due
  rw [hdue.same]

/-- A turn that runs a handler is the call of it. -/
theorem Exchange.Runs.step (hruns : s.Runs t h s₁) (cfg : Config) : s.step cfg t = s₁.call cfg t.calls h := by
  unfold Exchange.step
  rw [if_neg (by simp [hruns.open])]
  cases hruns with
  | @ready e h hopen ht hfetched hhandler =>
      have hsame : ((s.onEvent e fun ev => { ev with fetched := false }).event e).handler = some h := by
        rw [← hhandler]
        cases e <;> rfl
      rw [ht]
      dsimp only
      rw [if_pos hfetched, hsame]
  | @expire e h hopen ht hset hhandler =>
      rw [ht]
      dsimp only
      rw [if_pos hset, hhandler]
      rfl

/-- How a handler of the client's read event finds the event. -/
theorem Exchange.Due.reads (hdue : s.Due s₁ .rev h) (hf : Flagged s) : s₁.Reads where
  ready := hdue.ready
  active := by
    intro hwaits
    refine (hdue.marked .rev).active.trans (hf.rev ?_ hdue.due)
    rw [hdue.same] at hwaits
    exact hwaits

theorem Exchange.Due.writes (hdue : s.Due s₁ .wev h) (hf : Flagged s) : s₁.Writes where
  ready := hdue.ready
  active := (hdue.marked .wev).active.trans (hf.wev hdue.due)

/-- The request line is read before there is an answer. -/
theorem Exchange.Due.starts (hdue : s.Due s₁ .rev h) (hf : Flagged s) (hstarts : s.Starts) :
    s.r.responseDone = false := by
  cases hdone : s.r.responseDone with
  | false => rfl
  | true =>
      obtain ⟨hoff, hready⟩ := hf.answered hstarts hdone
      rcases hdue.due with hfetched | hset
      · exact nomatch hready.symm.trans hfetched
      · exact nomatch hoff.timerSet.symm.trans hset

/-- A write event that comes while the line is read is due to an answer. -/
theorem Exchange.Writes.starts (hwrites : s.Writes) (hf : Flagged s) (hstarts : s.Starts) :
    s.r.responseDone = true := by
  cases hdone : s.r.responseDone with
  | true => rfl
  | false => exact nomatch (hf.waits hstarts hdone).symm.trans hwrites.active

/-- A turn that runs no handler changes the marks of the events only. -/
theorem step_cases (hstep : s.step cfg t = .ok s') :
    Move cfg .quiet s s' ∨ ∃ h s₁, s.Runs t h s₁ ∧ s₁.call cfg t.calls h = .ok s' := by
  have hself : Move cfg .quiet s s :=
    .mark (.refl s.c.rev) (.refl s.c.wev) (.refl s.up.rev) (.refl s.up.wev) rfl rfl
  unfold Exchange.step at hstep
  split at hstep
  · cases hstep
    exact .inl hself
  · next hopen =>
    have hopen' : s.closed = false := Bool.eq_false_iff.mpr hopen
    split at hstep
    · cases hstep
      exact .inl (.mark (EventS.marked_poll _) (EventS.marked_poll _) (EventS.marked_poll _)
        (EventS.marked_poll _) rfl rfl)
    · next e ht =>
      split at hstep
      · next hfetched =>
        have hsame : ((s.onEvent e fun ev => { ev with fetched := false }).event e).handler =
            (s.event e).handler := by cases e <;> rfl
        dsimp only at hstep
        rw [hsame] at hstep
        split at hstep
        · cases hstep
          refine .inl ?_
          cases e with
          | rev => exact .mark (EventS.marked_ready _) (.refl _) (.refl _) (.refl _) rfl rfl
          | wev => exact .mark (.refl _) (EventS.marked_ready _) (.refl _) (.refl _) rfl rfl
          | upRev => exact .mark (.refl _) (.refl _) (EventS.marked_ready _) (.refl _) rfl rfl
          | upWev => exact .mark (.refl _) (.refl _) (.refl _) (EventS.marked_ready _) rfl rfl
        · next h hhandler => exact .inr ⟨h, _, .ready hopen' ht hfetched hhandler, hstep⟩
      · cases hstep
        exact .inl hself
    · next e ht =>
      split at hstep
      · next hset =>
        cases hhandler : (s.event e).handler with
        | none =>
            rw [hhandler] at hstep
            contradiction
        | some h =>
            rw [hhandler] at hstep
            exact .inr ⟨h, _, .expire hopen' ht hset hhandler, hstep⟩
      · cases hstep
        exact .inl hself

/-- The handlers of the client's read event. -/
def EventHandler.ReadsClient (h : EventHandler) : Prop :=
  h = .httpInitRequest ∨ h = .ngxHttpProcessRequestLine ∨ h = .httpParseHeaders ∨ h = .requestHandleBody

/-- The labels that the moves of a turn may have. -/
def Exchange.Allows (cfg : Config) (t : Turn) (s : Exchange) : Label → Prop
  | .err => ∃ h s₁, s.Runs t h s₁ ∧
      (s₁.Fails cfg t.calls h ∨ h = .httpInitRequest ∨ h = .ngxHttpProcessRequestLine)
  | .read => ∃ h s₁, s.Runs t h s₁ ∧ h.ReadsClient
  | .send => ∃ s₁, s.Runs t .handleResponse s₁ ∧ s₁.c.wev.timedout = false
  | .sendFile fd lost => ∃ h s₁, s.Runs t h s₁ ∧ s₁.SendsFile t.calls h ∧ fd = s₁.resourceFd ∧
      lost = s₁.fileLost t.calls
  | .pass ret xs => ∃ s₁, s.Runs t .httpProxyPass s₁ ∧ 0 < s₁.up.fd ∧ s₁.up.wev.timedout = false ∧
      ret = (bufferSend s₁.recvBuffer t.calls.send).1 ∧ xs = (bufferSend s₁.recvBuffer t.calls.send).2.1
  | .relay xs => ∃ s₁, s.Runs t .httpRecvUpstream s₁ ∧ 0 < s₁.up.fd ∧ s₁.up.rev.timedout = false ∧
      xs = (bufferRecv s₁.sendBuffer t.calls.recvUpstream).2.1
  | .done keepAlive us => ∃ h s₁, s.Runs t h s₁ ∧ s₁.Completes t.calls h ∧
      keepAlive = s₁.r.keepAlive ∧ us = s₁.r.curUpstream
  | .quiet => True

/-- A handler that is installed does what its turn allows. -/
theorem call_moves (hs : InOrder s) (hruns : s.Runs t h s₁) (hcall : s₁.call cfg t.calls h = .ok s') :
    Moves cfg (s.Allows cfg t) s₁ s' := by
  have hmark : Move cfg .quiet s s₁ := hruns.move
  have hs₁ := hs.move hruns.open hmark
  have hf := hs.flagged hruns.open
  have hf₁ := hs₁.flagged (hruns.closed.trans hruns.open)
  replace hs₁ := hs₁.handled
  obtain ⟨e, hdue⟩ := hruns.due
  have hhandler := hdue.handler
  have herr : s₁.Fails cfg t.calls h → s.Allows cfg t .err := fun hfails => ⟨h, s₁, hruns, .inl hfails⟩
  have hdone : s₁.Completes t.calls h → s.Allows cfg t (.done s₁.r.keepAlive s₁.r.curUpstream) :=
    fun hcompletes => ⟨h, s₁, hruns, hcompletes, rfl, rfl⟩
  cases e with
  | rev =>
      have hreads := hdue.reads hf
      have hwaits : s.Starts → s₁.r.responseDone = false := fun hstarts => by
        rw [hruns.request]
        exact hdue.starts hf hstarts
      have hsame : s.c.rev.handler = some h := (hdue.marked .rev).handler.symm.trans hhandler
      have hread : s.Allows cfg t .read := ⟨h, s₁, hruns, hs₁.rev h hhandler⟩
      rcases hs₁.rev h hhandler with rfl | rfl | rfl | rfl
      · exact httpInitRequest_moves trivial hread ⟨_, s₁, hruns, .inr (.inl rfl)⟩ hreads hs₁.body
          (hwaits (.inl hsame)) hhandler (hs₁.start (.inl hhandler)).1 hcall
      · exact ngxHttpProcessRequestLine_moves trivial hread ⟨_, s₁, hruns, .inr (.inr rfl)⟩ hreads hs₁.body
          (hwaits (.inr hsame)) hhandler (hs₁.start (.inr hhandler)).1 hcall
      · exact httpParseHeaders_moves trivial hread herr hreads hs₁.body hhandler hcall
      · exact requestHandleBody_moves trivial hread (fun htime => herr htime) hreads hs₁.body hhandler hcall
  | wev =>
      have hwrites := hdue.writes hf
      have hstarts : s₁.Starts → s₁.r.responseDone = true := hwrites.starts hf₁
      rcases hs₁.wev h hhandler with rfl | rfl
      · exact handleResponse_moves trivial (fun htime => ⟨s₁, hruns, htime⟩)
          (fun hsends => ⟨_, s₁, hruns, hsends, rfl, rfl⟩) hdone hwrites hstarts hhandler hcall
      · exact handleResponseFile_moves trivial (fun htime => ⟨_, s₁, hruns, htime, rfl, rfl⟩)
          (fun htime => herr htime) hdone hwrites hstarts hhandler hcall
  | upRev =>
      obtain rfl := hs₁.upRev h hhandler
      exact httpRecvUpstream_moves trivial herr (fun hfd htime => ⟨s₁, hruns, hfd, htime, rfl⟩)
        (fun hfd => hs₁.attached hfd) hcall
  | upWev =>
      rcases hs₁.upWev h hhandler with rfl | rfl
      · exact httpProxyPass_moves trivial herr (fun hfd htime => ⟨s₁, hruns, hfd, htime, rfl, rfl⟩)
          (fun hfd => hs₁.attached hfd) hcall
      · exact processConnectionResultOfUpstream_moves trivial herr (fun hfd => hs₁.attached hfd) hcall

/-- Every turn is a chain of moves that it allows. -/
theorem step_moves (hs : InOrder s) (hstep : s.step cfg t = .ok s') : Moves cfg (s.Allows cfg t) s s' := by
  cases step_cases hstep with
  | inl hmark => exact .single hmark trivial
  | inr hcalled =>
      obtain ⟨h, s₁, hruns, hcall⟩ := hcalled
      exact .step hruns.move trivial (call_moves hs hruns hcall) hruns.closed

theorem step_closed (hclosed : s.closed = true) (hstep : s.step cfg t = .ok s') : s' = s := by
  unfold Exchange.step at hstep
  rw [if_pos hclosed] at hstep
  exact (Except.ok.inj hstep).symm

/-- What every move that a turn allows keeps is kept by the turn. -/
theorem step_induct {I : Exchange → Prop} (hs : InOrder s) (hstep : s.step cfg t = .ok s')
    (hmove : ∀ l s₁ s₂, s₁.closed = false → InOrder s₁ → s.Allows cfg t l → Move cfg l s₁ s₂ → I s₁ → I s₂)
    (hI : I s) : InOrder s' ∧ I s' := by
  cases hclosed : s.closed with
  | true =>
      rw [step_closed hclosed hstep]
      exact ⟨hs, hI⟩
  | false =>
      refine (step_moves hs hstep).induct (I := fun s => InOrder s ∧ I s) hclosed ?_ ⟨hs, hI⟩
      intro l s₁ s₂ hopen hl hm hboth
      exact ⟨hboth.1.move hopen hm, hmove l s₁ s₂ hopen hboth.1 hl hm hboth.2⟩

theorem handled_accepted (cfg : Config) (now : BitVec 32) (slot : Slot) (fd : Int) (ip : BitVec 32) :
    Handled (Exchange.accepted cfg now slot fd ip) where
  rev := by
    intro h heq
    change (EventS.addEvent (EventS.addTimer _ _ _)).handler = some h at heq
    rw [EventS.addEvent_handler, EventS.addTimer_handler] at heq
    exact .inl (Option.some.inj heq).symm
  wev := fun h heq => nomatch heq
  upRev := fun h heq => nomatch heq
  upWev := fun h heq => nomatch heq
  start := fun _ => ⟨rfl, rfl⟩
  detached := fun _ => le_refl 0
  body := le_refl 0

theorem inOrder_accepted (cfg : Config) (now : BitVec 32) (slot : Slot) (fd : Int) (ip : BitVec 32) :
    InOrder (Exchange.accepted cfg now slot fd ip) :=
  ⟨handled_accepted cfg now slot fd ip, fun _ => flagged_accepted cfg now slot fd ip⟩

/-- What the moves of all turns keep, as long as the turns meet `P`, holds at the
end of a run. -/
theorem run_induct {P : Exchange → Turn → Prop} {I : Exchange → Prop} {ts : List Turn}
    (hmove : ∀ s t l s₁ s₂, P s t → I s → s₁.closed = false → InOrder s₁ → s.Allows cfg t l →
      Move cfg l s₁ s₂ → I s₁ → I s₂)
    (halways : Exchange.Always cfg P ts s) (hs : InOrder s) (hI : I s)
    (hrun : Exchange.run cfg ts s = .ok s') : InOrder s' ∧ I s' := by
  refine Exchange.run_induction (I := fun s => InOrder s ∧ I s) ?_ halways ⟨hs, hI⟩ hrun
  intro s t s' hboth hP hstep
  exact step_induct hboth.1 hstep (fun l s₁ s₂ hopen hs₁ hl hm => hmove s t l s₁ s₂ hP hboth.2 hopen hs₁ hl hm)
    hboth.2

end

end PWebServer
