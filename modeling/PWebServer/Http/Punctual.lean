import PWebServer.Http.Handlers

/-!
# Http.Punctual

Clients that take too long.

The read event of a connection is marked as timed out when its timer expires.
Its handler then closes the connection or calls `construct_err`, which takes
`keep_alive` back, and no handler sets it again before the mark is gone
(`punctual_run`).
-/

namespace PWebServer

open Function

/-- A request whose read event is marked as timed out is not kept. -/
def Exchange.Punctual (s : Exchange) : Prop :=
  s.closed = false → s.c.rev.timedout = true → s.r.keepAlive = false

section

variable {cfg : Config} {calls : Calls} {s s' s₁ : Exchange} {u : Turn} {ev : EventS}

theorem EventS.delEvent_timedout (h : ev.timedout = false) : ev.delEvent.timedout = false := by
  unfold EventS.delEvent
  split
  · dsimp only
    split
    · rfl
    · exact h
  · exact h

theorem EventS.close_timedout (h : ev.timedout = false) : ev.close.timedout = false := by
  unfold EventS.close
  dsimp only
  split
  · rfl
  · exact h

theorem punctual_of_inTime (h : s.c.rev.timedout = false) : s.Punctual :=
  fun _ htimedout => absurd htimedout (by simp [h])

theorem punctual_of_closed (h : s.closed = true) : s.Punctual := fun hopen => absurd hopen (by simp [h])

theorem constructErr_punctual {err : Int} (h : s.constructErr cfg err = .ok s') : s'.Punctual := fun _ _ => by
  rw [(constructErr_answered h).request]
  rfl

theorem constructErr_inTime {err : Int} (htime : s.c.rev.timedout = false) (h : s.constructErr cfg err = .ok s') :
    s'.c.rev.timedout = false := by
  rw [(constructErr_answered h).rev]
  exact EventS.delEvent_timedout htime

theorem httpCloseRequest_inTime (calls : Calls) (htime : s.c.rev.timedout = false) :
    (s.httpCloseRequest calls).c.rev.timedout = false := by
  rw [httpCloseRequest_eq]
  exact EventS.close_timedout htime

theorem httpCloseRequest_punctual (calls : Calls) (s : Exchange) : (s.httpCloseRequest calls).Punctual := by
  rw [httpCloseRequest_eq]
  exact punctual_of_closed rfl

theorem Exchange.Punctual.done (h : s.Punctual) (hdone : s.httpResponseDone cfg calls = .ok s') : s'.Punctual := by
  cases httpResponseDone_cases hdone with
  | inr hclosed =>
      rw [hclosed.2]
      exact httpCloseRequest_punctual calls _
  | inl hkept =>
      rw [hkept.2, keptAlive, httpClearRequest_eq]
      intro hopen htimedout
      have htime : s.c.rev.timedout = false := by
        refine Bool.eq_false_iff.mpr fun htimedout => ?_
        exact absurd (hkept.1.symm.trans (h hopen htimedout)) (by simp)
      refine absurd htimedout (Bool.eq_false_iff.mp (EventS.addTimer_timedout _ _ _ ?_))
      rw [EventS.addEvent_eq]
      exact htime

theorem Exchange.Punctual.handleResponseFile (h : s.Punctual) (hcall : s.handleResponseFile cfg calls = .ok s') :
    s'.Punctual := by
  unfold Exchange.handleResponseFile at hcall
  dsimp only at hcall
  split at hcall
  · exact constructErr_punctual hcall
  · obtain ⟨⟨ret, file, os⟩, -, hcall⟩ := bind_ok hcall
    cases ret with
    | none => contradiction
    | some ret =>
        cases ret with
        | ok => exact Exchange.Punctual.done (by exact h) hcall
        | error =>
            cases hcall
            exact httpCloseRequest_punctual calls _
        | again | invalidRequest =>
            dsimp only at hcall
            split at hcall
            · cases hcall
              exact h
            · cases hcall
              exact h

theorem Exchange.Punctual.handleResponse (h : s.Punctual) (hcall : s.handleResponse cfg calls = .ok s') :
    s'.Punctual := by
  unfold Exchange.handleResponse at hcall
  dsimp only at hcall
  split at hcall
  · cases hcall
    exact httpCloseRequest_punctual calls _
  · split at hcall
    · split at hcall
      · exact Exchange.Punctual.done (by exact h) hcall
      · split at hcall
        · cases hcall
          exact h
        · split at hcall
          · exact Exchange.Punctual.handleResponseFile (by exact h) hcall
          · exact Exchange.Punctual.done (by exact h) hcall
    · cases hcall
      exact h
    · cases hcall
      exact httpCloseRequest_punctual calls _

/-! ## the back end -/

theorem applyActs_keeps {acts : List Act} {k : Nat} (h : s.applyActs cfg calls k acts = .ok s') :
    (s.c.rev.timedout = false → s'.c.rev.timedout = false) ∧ (s.Punctual → s'.Punctual) := by
  induction acts generalizing k s with
  | nil =>
      cases h
      exact ⟨id, id⟩
  | cons a acts ih =>
      cases a with
      | constructErr err =>
          obtain ⟨s₁, hs₁, h⟩ := bind_ok h
          have hrest := ih h
          exact ⟨fun htime => hrest.1 (constructErr_inTime (s := s.tell _) htime hs₁),
            fun _ => hrest.2 (constructErr_punctual hs₁)⟩
      | tryConnect us ret =>
          obtain ⟨up, heq, -⟩ := tryConnect_eq cfg calls (s.tell (.balancer (.tryConnect us ret))) k ret
          have hrest := ih (s := (s.tell (.balancer (.tryConnect us ret))).tryConnect cfg calls k ret) h
          rw [heq] at hrest
          exact hrest
      | connectFailed us | connectTimedout us | free us => exact ih (s := s.tell (.balancer _)) h

theorem tryConnectUpstream_keeps {target : Option (List UInt8)} (hcur : s.r.curUpstream = none)
    (h : s.tryConnectUpstream cfg calls target = .ok s') :
    (s.c.rev.timedout = false → s'.c.rev.timedout = false) ∧ (s.Punctual → s'.Punctual) := by
  obtain ⟨sel, hsel, h⟩ := bind_ok h
  have hrest := applyActs_keeps h
  refine ⟨hrest.1, fun hs => hrest.2 fun hopen htimedout => ?_⟩
  -- the selection keeps `keep_alive`, or gives up
  cases tryConnectUpstream_chooses hcur hsel with
  | inl hkept =>
      dsimp only
      rw [hkept.frame]
      exact hs hopen htimedout
  | inr hgives =>
      obtain ⟨r₁, -, -, hr, -⟩ := hgives
      dsimp only
      rw [hr]
      rfl

theorem Exchange.Punctual.httpProxyPass (h : s.Punctual) (hcall : s.httpProxyPass cfg calls = .ok s') :
    s'.Punctual := by
  have htime : ∀ {s₁ : Exchange}, s₁.Punctual →
      (if s₁.up.rev.timerSet then pure s₁ else pure (s₁.onUpRev (EventS.addTimer calls.now cfg.upstreamTimeout)) :
        Except Fault Exchange) = .ok s' → s'.Punctual := fun h₁ heq => by
    split at heq
    · cases heq
      exact h₁
    · cases heq
      exact h₁
  unfold Exchange.httpProxyPass at hcall
  dsimp only at hcall
  split at hcall
  · cases hcall
    exact h
  · split at hcall
    · exact constructErr_punctual hcall
    · split at hcall
      · rw [pure_bind] at hcall
        refine htime ?_ hcall
        intro hopen htimedout
        refine h hopen ?_
        rw [← htimedout]
        exact (congrArg EventS.timedout (EventS.addEvent_eq s.c.rev)).symm
      · obtain ⟨s₁, hs₁, hcall⟩ := bind_ok hcall
        exact htime (constructErr_punctual hs₁) hcall
      · rw [pure_bind] at hcall
        refine htime ?_ hcall
        exact h

theorem Exchange.Punctual.httpRecvUpstream (h : s.Punctual) (hcall : s.httpRecvUpstream cfg calls = .ok s') :
    s'.Punctual := by
  unfold Exchange.httpRecvUpstream at hcall
  dsimp only at hcall
  split at hcall
  · cases hcall
    exact h
  · split at hcall
    · exact constructErr_punctual hcall
    · split at hcall
      · cases hcall
        exact h
      · exact constructErr_punctual hcall
      · cases hcall
        exact h

theorem Exchange.Punctual.processConnectionResult (h : s.Punctual)
    (hcall : s.processConnectionResultOfUpstream cfg calls = .ok s') : s'.Punctual := by
  unfold Exchange.processConnectionResultOfUpstream at hcall
  dsimp only at hcall
  split at hcall
  · cases hcall
    exact h
  · split at hcall
    · obtain ⟨us, -, hcall⟩ := bind_ok hcall
      exact constructErr_punctual hcall
    · split at hcall
      · exact constructErr_punctual hcall
      · obtain ⟨us, -, hcall⟩ := bind_ok hcall
        split at hcall
        · cases hcall
          exact h
        · exact (tryConnectUpstream_keeps rfl hcall).2 (by exact h)

/-! ## the client's read event -/

/-- A handler of the client's read event finds the event in time and leaves it
so, or ends the request. -/
theorem requestHandleBody_inTime (htime : s.c.rev.timedout = false) (h : s.requestHandleBody cfg calls = .ok s') :
    s'.c.rev.timedout = false := by
  have hdel := EventS.delEvent_timedout htime
  unfold Exchange.requestHandleBody at h
  dsimp only at h
  rw [if_neg (show ¬ (s.tell (.ran .requestHandleBody)).c.rev.timedout = true from Bool.eq_false_iff.mp htime)] at h
  have hc : ((s.tell (.ran .requestHandleBody)).recvClient calls.recvBody).2.c = s.c := rfl
  generalize (s.tell (.ran .requestHandleBody)).recvClient calls.recvBody = v at h hc
  obtain ⟨n, s₁⟩ := v
  dsimp only at h hc
  have hclosed : (s₁.httpCloseRequest calls).c.rev.timedout = false := by
    rw [← hc] at htime
    exact httpCloseRequest_inTime calls htime
  have hbody : s₁.parseRequestBodyIdentity.2.c = s₁.c := by
    unfold Exchange.parseRequestBodyIdentity
    split
    · rfl
    · dsimp only
      split <;> rfl
  generalize s₁.parseRequestBodyIdentity = v at h hbody
  obtain ⟨ret, s₂⟩ := v
  dsimp only at h hbody
  replace hbody := hbody.trans hc
  rw [← hbody] at htime hdel
  split at h
  · cases h
    exact hclosed
  · cases ret with
    | again =>
        dsimp only at h
        split at h
        · cases h
          exact htime
        · split at h
          · cases h
            exact hdel
          · cases h
            exact htime
    | ok =>
        dsimp only at h
        split at h
        · split at h
          · cases h
            exact hdel
          · obtain ⟨s₃, hs₃, h⟩ := bind_ok h
            obtain ⟨b, -, hs₃⟩ := constructResponse_eq hs₃
            cases h
            rw [hs₃]
            exact hdel
        · split at h
          · cases h
            exact hdel
          · cases h
            exact hdel
    | error | invalidRequest => exact constructErr_inTime htime h

theorem httpParseHeaders_inTime (htime : s.c.rev.timedout = false) (h : s.httpParseHeaders cfg calls = .ok s') :
    s'.c.rev.timedout = false := by
  unfold Exchange.httpParseHeaders at h
  dsimp only at h
  rw [if_neg (show ¬ (s.tell (.ran .httpParseHeaders)).c.rev.timedout = true from Bool.eq_false_iff.mp htime)] at h
  split at h
  · cases h
    refine httpCloseRequest_inTime calls ?_
    exact htime
  · obtain ⟨d, -, h⟩ := bind_ok h
    split at h
    · split at h
      · cases h
        exact htime
      · cases h
        exact EventS.addTimer_timedout _ _ _ htime
    · split at h
      · obtain ⟨s₂, hs₂, h⟩ := bind_ok h
        refine requestHandleBody_inTime ?_ h
        change s₂.c.rev.timedout = false
        refine constructErr_inTime ?_ hs₂
        exact htime
      · rw [pure_bind] at h
        refine requestHandleBody_inTime ?_ h
        exact htime
    · cases h
      refine httpCloseRequest_inTime calls ?_
      exact htime

theorem requestProcessUri_inTime (htime : s.c.rev.timedout = false) (hcur : s.r.curUpstream = none)
    (h : s.requestProcessUri cfg calls = .ok s') : s'.c.rev.timedout = false := by
  unfold Exchange.requestProcessUri at h
  split at h
  · split at h
    · contradiction
    · split at h
      · contradiction
      · obtain ⟨s₁, hs₁, h⟩ := bind_ok h
        cases h
        exact (tryConnectUpstream_keeps (by exact hcur) hs₁).1 htime
  · dsimp only at h
    split at h
    · exact constructErr_inTime (by exact htime) h
    · split at h
      · split at h
        · exact constructErr_inTime (by exact htime) h
        · cases h
          exact htime
      · cases h
        exact htime

theorem ngxHttpProcessRequestLine_inTime (htime : s.c.rev.timedout = false) (hcur : s.r.curUpstream = none)
    (h : s.ngxHttpProcessRequestLine cfg calls = .ok s') : s'.c.rev.timedout = false := by
  unfold Exchange.ngxHttpProcessRequestLine at h
  dsimp only at h
  rw [if_neg (show ¬ (s.tell (.ran .ngxHttpProcessRequestLine)).c.rev.timedout = true from
    Bool.eq_false_iff.mp htime)] at h
  split at h
  · cases h
    refine httpCloseRequest_inTime calls ?_
    exact htime
  · split at h
    · next r b hparse =>
      obtain ⟨s₁, hs₁, h⟩ := bind_ok h
      refine httpParseHeaders_inTime (requestProcessUri_inTime (by exact htime) ?_ hs₁) h
      have hframe := parseRequestLine_frame hparse
      change r.curUpstream = none
      rw [hframe]
      exact hcur
    · split at h
      · contradiction
      · cases h
        exact EventS.addTimer_timedout _ _ _ htime
    · exact constructErr_inTime (by exact htime) h

/-! ## turns -/

/-- What a handler that is installed leaves. -/
theorem call_punctual {h' : EventHandler} {e : EventId} (hs : Handled s) (hhandler : (s.event e).handler = some h')
    (h : e ≠ .rev → s.Punctual) (hcall : s.call cfg calls h' = .ok s') : s'.Punctual := by
  cases e with
  | wev =>
      rcases hs.wev h' hhandler with rfl | rfl
      · exact (h (by decide)).handleResponse hcall
      · exact (h (by decide)).handleResponseFile hcall
  | upRev =>
      obtain rfl := hs.upRev h' hhandler
      exact (h (by decide)).httpRecvUpstream hcall
  | upWev =>
      rcases hs.upWev h' hhandler with rfl | rfl
      · exact (h (by decide)).httpProxyPass hcall
      · exact (h (by decide)).processConnectionResult hcall
  | rev =>
      cases htime : s.c.rev.timedout with
      | false =>
          refine punctual_of_inTime ?_
          rcases hs.rev h' hhandler with rfl | rfl | rfl | rfl
          · unfold Exchange.call Exchange.httpInitRequest at hcall
            dsimp only at hcall
            rw [if_neg (by simpa [Exchange.tell] using htime)] at hcall
            refine ngxHttpProcessRequestLine_inTime ?_ ?_ hcall
            · exact htime
            · exact (hs.start (.inl hhandler)).1
          · exact ngxHttpProcessRequestLine_inTime htime (hs.start (.inr hhandler)).1 hcall
          · exact httpParseHeaders_inTime htime hcall
          · exact requestHandleBody_inTime htime hcall
      | true =>
          rcases hs.rev h' hhandler with rfl | rfl | rfl | rfl
          · unfold Exchange.call Exchange.httpInitRequest at hcall
            dsimp only at hcall
            rw [if_pos (by simpa [Exchange.tell] using htime)] at hcall
            cases hcall
            exact punctual_of_closed rfl
          · unfold Exchange.call Exchange.ngxHttpProcessRequestLine at hcall
            dsimp only at hcall
            rw [if_pos (by simpa [Exchange.tell] using htime)] at hcall
            exact constructErr_punctual hcall
          · unfold Exchange.call Exchange.httpParseHeaders at hcall
            dsimp only at hcall
            rw [if_pos (by simpa [Exchange.tell] using htime)] at hcall
            exact constructErr_punctual hcall
          · unfold Exchange.call Exchange.requestHandleBody at hcall
            dsimp only at hcall
            rw [if_pos (by simpa [Exchange.tell] using htime)] at hcall
            exact constructErr_punctual hcall

theorem Exchange.Runs.inOrder {h : EventHandler} (hruns : s.Runs u h s') (cfg : Config) (hs : InOrder s) :
    InOrder s' :=
  hs.move hruns.open (hruns.move : Move cfg .quiet s s')

theorem InOrder.step (hs : InOrder s) (hstep : s.step cfg u = .ok s') : InOrder s' :=
  (step_induct (I := fun _ => True) hs hstep (fun _ _ _ _ _ _ _ _ => trivial) trivial).1

theorem Exchange.Punctual.step (hs : InOrder s) (h : s.Punctual) (hstep : s.step cfg u = .ok s') : s'.Punctual := by
  by_cases hruns : ∃ h' s₁, s.Runs u h' s₁
  · obtain ⟨h', s₁, hruns⟩ := hruns
    rw [hruns.step] at hstep
    have hs₁ := (hruns.inOrder cfg hs).handled
    cases hruns with
    | @ready e h' hopen hu hfetched hhandler =>
        have hsame : ((s.onEvent e fun ev => { ev with fetched := false }).event e).handler = some h' := by
          rw [← hhandler]
          cases e <;> rfl
        refine call_punctual hs₁ hsame (fun he => ?_) hstep
        cases e <;> exact h
    | @expire e h' hopen hu hset hhandler =>
        have hsame : ((s.batchDone.onEvent e fun ev => { ev with timedout := true, timerKey := 0 }).event e).handler =
            some h' := by
          rw [← hhandler]
          cases e <;> rfl
        refine call_punctual hs₁ hsame (fun he => ?_) hstep
        cases e with
        | rev => exact absurd rfl he
        | wev | upRev | upWev => exact h
  · unfold Exchange.step at hstep
    split at hstep
    · cases hstep
      exact h
    · next hclosed =>
      have hopen : s.closed = false := Bool.eq_false_iff.mpr hclosed
      split at hstep
      · cases hstep
        exact h
      · next e hu =>
        split at hstep
        · next hfetched =>
          have hsame : ((s.onEvent e fun ev => { ev with fetched := false }).event e).handler =
              (s.event e).handler := by cases e <;> rfl
          dsimp only at hstep
          rw [hsame] at hstep
          split at hstep
          · cases hstep
            cases e <;> exact h
          · next h' hhandler => exact absurd ⟨h', _, .ready hopen hu hfetched hhandler⟩ hruns
        · cases hstep
          exact h
      · next e hu =>
        split at hstep
        · next hset =>
          obtain ⟨h', hhandler, hstep⟩ := bind_ok hstep
          exact absurd ⟨h', _, .expire hopen hu hset (deref_ok hhandler)⟩ hruns
        · cases hstep
          exact h

/-- As long as a connection is kept, its client has not run out of time. -/
theorem punctual_run {ts : List Turn} (hs : InOrder s) (h : s.Punctual) (hrun : Exchange.run cfg ts s = .ok s') :
    s'.Punctual := by
  have hboth : InOrder s' ∧ s'.Punctual :=
    Exchange.run_induction (I := fun s => InOrder s ∧ s.Punctual)
      (fun _ _ _ hboth _ hstep => ⟨hboth.1.step hstep, hboth.2.step hboth.1 hstep⟩) (Exchange.always_true cfg ts s)
      ⟨hs, h⟩ hrun
  exact hboth.2

/-- A handler that completes the answer to a request to be kept. -/
theorem completes_inTime {h' : EventHandler} (hs : InOrder s) (h : s.Punctual) (hruns : s.Runs u h' s₁)
    (hcompletes : s₁.Completes u.calls h') (hkeep : s₁.r.keepAlive = true) : s₁.c.rev.timedout = false := by
  have hkept : ¬ s.c.rev.timedout = true := fun htimedout => by
    rw [hruns.request, h hruns.open htimedout] at hkeep
    cases hkeep
  refine Bool.eq_false_iff.mpr fun htimedout => ?_
  cases hruns with
  | @ready e h' hopen hu hfetched hhandler => cases e <;> exact hkept htimedout
  | @expire e h' hopen hu hset hhandler =>
      cases e with
      | rev => rcases hs.handled.rev h' hhandler with rfl | rfl | rfl | rfl <;> exact hcompletes.elim
      | wev | upRev | upWev => exact hkept htimedout

end

end PWebServer
