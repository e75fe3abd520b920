import PWebServer.Http.Moves

/-!
# Http.Flags

Which events of an exchange are registered, and which have timers.

As long as there is no answer, the client's read event runs its handler only
while it is registered; the write event always does.  So a handler finds its
own event deleted only after an answer, and a back end that is not attached has
no event that could become due.
-/

namespace PWebServer

/-- An event that is not registered and has no timer. -/
structure EventS.Off (ev : EventS) : Prop where
  active : ev.active = false
  timerSet : ev.timerSet = false

/-- An operation that registers or deletes nothing. -/
structure EventS.FlagsKept (ev ev' : EventS) : Prop where
  active : ev'.active = ev.active
  timerSet : ev'.timerSet = ev.timerSet
  fetched : ev'.fetched = true → ev.fetched = true ∨ ev.active = true

theorem EventS.FlagsKept.refl (ev : EventS) : ev.FlagsKept ev := ⟨rfl, rfl, .inl⟩

theorem EventS.Marked.flags {ev ev' : EventS} (h : ev.Marked ev') : ev.FlagsKept ev' :=
  ⟨h.active, h.timerSet, h.fetched⟩

theorem EventS.FlagsKept.off {ev ev' : EventS} (h : ev.FlagsKept ev') (hoff : ev.Off) : ev'.Off :=
  ⟨h.active.trans hoff.active, h.timerSet.trans hoff.timerSet⟩

theorem EventS.close_off (ev : EventS) : ev.close.Off := ⟨EventS.close_active ev, EventS.close_timerSet ev⟩

/-- An event that has a timer only if it is registered is off once it is
deleted. -/
theorem EventS.delEvent_off {ev : EventS} (h : ev.timerSet = true → ev.active = true) : ev.delEvent.Off where
  active := EventS.delEvent_active ev
  timerSet := by
    cases hactive : ev.active with
    | true => exact EventS.delEvent_timerSet ev hactive
    | false =>
        have hsame : ev.delEvent = ev := by
          unfold EventS.delEvent
          rw [hactive]
          rfl
        rw [hsame, Bool.eq_false_iff]
        intro hset
        exact absurd (h hset) (by simp [hactive])

/-- The flags of the events of an open connection. -/
structure Flagged (s : Exchange) : Prop where
  rev : s.r.responseDone = false → s.c.rev.fetched = true ∨ s.c.rev.timerSet = true → s.c.rev.active = true
  wev : s.c.wev.fetched = true ∨ s.c.wev.timerSet = true → s.c.wev.active = true
  waits : s.Starts → s.r.responseDone = false → s.c.wev.active = false
  answered : s.Starts → s.r.responseDone = true → s.c.rev.Off ∧ s.c.rev.fetched = false
  detached : s.r.upstream = none → s.up.rev.Off ∧ s.up.wev.Off

section

variable {cfg : Config} {l : Label} {s s' : Exchange}

/-- Nothing is registered or deleted at the client's connection. -/
theorem Flagged.of_client (hf : Flagged s) (hrev : s.c.rev.FlagsKept s'.c.rev)
    (hwev : s.c.wev.FlagsKept s'.c.wev) (hstarts : s'.Starts → s.Starts)
    (hdone : s'.r.responseDone = s.r.responseDone)
    (hdetached : s'.r.upstream = none → s'.up.rev.Off ∧ s'.up.wev.Off) : Flagged s' where
  rev := by
    rw [hdone, hrev.active, hrev.timerSet]
    intro hopen hdue
    rcases hdue with hfetched | hset
    · exact (hrev.fetched hfetched).elim (fun h => hf.rev hopen (.inl h)) id
    · exact hf.rev hopen (.inr hset)
  wev := by
    rw [hwev.active, hwev.timerSet]
    intro hdue
    rcases hdue with hfetched | hset
    · exact (hwev.fetched hfetched).elim (fun h => hf.wev (.inl h)) id
    · exact hf.wev (.inr hset)
  waits := by
    rw [hdone, hwev.active]
    exact fun h => hf.waits (hstarts h)
  answered := by
    rw [hdone]
    intro h hanswered
    obtain ⟨hoff, hready⟩ := hf.answered (hstarts h) hanswered
    refine ⟨hrev.off hoff, Bool.eq_false_iff.mpr fun hfetched => ?_⟩
    rcases hrev.fetched hfetched with hold | hactive
    · exact absurd hold (by simp [hready])
    · exact absurd hactive (by simp [hoff.active])
  detached := hdetached

/-- A back end that has a descriptor is attached, so the line has been read. -/
theorem Handled.attached (hs : Handled s) (hfd : 0 < s.up.fd) : s.r.upstream ≠ none ∧ ¬ s.Starts := by
  have hup : s.r.upstream ≠ none := fun hnone => absurd hfd (not_lt.mpr (hs.detached hnone))
  exact ⟨hup, fun hstarts => hup (hs.start hstarts).2⟩

theorem Flagged.err {status : Int} {c : Connection} {r : HttpRequest} {b : Buffer} {m : List UInt8}
    {up : Connection} {ds : List Deed} (hf : Flagged s)
    (hc : c = s.c ∨ s.c.rev.handler = some .ngxHttpProcessRequestLine ∧
      c = { s.c with rev := { s.c.rev with handler := some .httpParseHeaders } })
    (hline : s.Starts → s.r.responseDone = true ∨ s.c.rev.fetched = false)
    (hup : r.upstream = s.r.upstream ∧ up = s.up ∨ r.upstream = none ∧ up = s.up.close)
    (h : Exchange.constructErr cfg
      { s with c := c, r := r, recvBuffer := b, recvBehind := m, up := up, log := s.log ++ ds } status = .ok s') :
    Flagged s' := by
  have hans := constructErr_answered h
  have hrev : s'.c.rev = c.rev.delEvent := hans.rev
  have hdone : s'.r.responseDone = true := by rw [hans.request]; rfl
  refine ⟨fun hnot => ?_, fun _ => hans.wevActive, fun _ hnot => ?_, fun hstarts _ => ?_, fun hnone => ?_⟩
  · exact absurd hdone (by simp [hnot])
  · exact absurd hdone (by simp [hnot])
  · have hsame : c = s.c := by
      refine hc.resolve_right fun hboth => ?_
      unfold Exchange.Starts at hstarts
      rw [hrev, EventS.delEvent_handler, hboth.2] at hstarts
      simp at hstarts
    rw [hsame] at hrev
    have hstarts' : s.Starts := by
      unfold Exchange.Starts at hstarts ⊢
      rwa [hrev, EventS.delEvent_handler] at hstarts
    rw [hrev, EventS.delEvent_fetched]
    cases hbefore : s.r.responseDone with
    | true =>
        obtain ⟨hoff, hready⟩ := hf.answered hstarts' hbefore
        exact ⟨EventS.delEvent_off fun hset => absurd hset (by simp [hoff.timerSet]), hready⟩
    | false =>
        refine ⟨EventS.delEvent_off fun hset => hf.rev hbefore (.inr hset), ?_⟩
        exact (hline hstarts').resolve_left (by simp [hbefore])
  · have hup' : s'.up = up := hans.up
    have hnone' : r.upstream = none := by
      rw [hans.request] at hnone
      exact hnone
    rw [hup']
    cases hup with
    | inl hsame =>
        rw [hsame.2]
        exact hf.detached (hsame.1.symm.trans hnone')
    | inr hclosed =>
        rw [hclosed.2]
        exact ⟨EventS.close_off _, EventS.close_off _⟩

/-- What `http_response_done` leaves of the events of a connection that is
kept. -/
theorem flagged_kept (hwrites : s.Writes) (hdetached : s.r.upstream = none → s.up.rev.Off ∧ s.up.wev.Off)
    (calls : Calls) : Flagged (keptAlive cfg calls s) := by
  rw [keptAlive, httpClearRequest_eq]
  refine ⟨fun _ _ => ?_, fun hdue => ?_, fun _ _ => ?_, fun _ h => ?_, fun _ => ?_⟩
  · exact (EventS.addTimer_active _ _ _).trans (by simp)
  · rcases hdue with hfetched | hset
    · exact absurd ((EventS.delEvent_fetched _).symm.trans hfetched) (by simp [hwrites.ready])
    · exact absurd ((EventS.delEvent_timerSet _ hwrites.active).symm.trans hset) (by simp)
  · exact EventS.delEvent_active _
  · contradiction
  · dsimp only
    split
    · next hup => exact hdetached hup
    · exact ⟨EventS.close_off _, EventS.close_off _⟩

theorem Flagged.move (hs : Handled s) (hf : Flagged s) (hmove : Move cfg l s s') (hopen : s'.closed = false) :
    Flagged s' := by
  have hclient : ∀ {s' : Exchange}, s'.c = s.c → s'.r.responseDone = s.r.responseDone →
      s'.r.upstream = s.r.upstream → s'.up = s.up → Flagged s' := by
    intro s' hc hdone hupstream hup
    refine hf.of_client ?_ ?_ ?_ hdone ?_
    · rw [hc]
      exact .refl _
    · rw [hc]
      exact .refl _
    · unfold Exchange.Starts
      rw [hc]
      exact id
    · rw [hupstream, hup]
      exact hf.detached
  cases hmove with
  | ran | recv | state | pass | send | sendFile => exact hclient rfl rfl rfl rfl
  | uriDone =>
      unfold Exchange.uriDone
      split
      · exact hclient rfl rfl rfl rfl
      · exact hclient rfl rfl rfl rfl
  | parse hrev hbuf hup hdone hcur => exact hclient rfl hdone hup rfl
  | mark hrev hwev hupRev hupWev hfd hidle =>
      refine hf.of_client hrev.flags hwev.flags ?_ rfl ?_
      · unfold Exchange.Starts
        rw [hrev.handler]
        exact id
      · exact fun hnone => ⟨hupRev.flags.off (hf.detached hnone).1, hupWev.flags.off (hf.detached hnone).2⟩
  | lineBegins hrev => exact hf.of_client ⟨rfl, rfl, .inl⟩ (.refl _) (fun _ => .inl hrev) rfl hf.detached
  | headersRead hrev =>
      exact hf.of_client ⟨rfl, rfl, .inl⟩ (.refl _)
        (fun h => absurd h (Exchange.LineRead.not_starts (.inr rfl))) rfl hf.detached
  | openFile hrev hdone hr =>
      refine hf.of_client ⟨rfl, rfl, .inl⟩ (.refl _)
        (fun h => absurd h (Exchange.LineRead.not_starts (.inl rfl))) ?_ ?_
      · rw [hr]
        rfl
      · rw [hr]
        exact hf.detached
  | forward hrev hdone hr hbuf hsel =>
      refine hf.of_client ⟨rfl, rfl, .inl⟩ (.refl _)
        (fun h => absurd h (Exchange.LineRead.not_starts (.inl rfl))) ?_ (fun hnone => ?_)
      · rw [hsel.frame, hr]
        rfl
      · rw [hsel.frame] at hnone
        exact nomatch hnone
  | reconnect hfd hcur hsel =>
      refine hf.of_client (.refl _) (.refl _) id ?_ (fun hnone => ?_)
      · rw [hsel.frame]
        rfl
      · rw [hsel.frame] at hnone
        exact absurd hnone (hs.attached hfd).1
  | attached hup => exact hf.of_client (.refl _) (.refl _) id rfl fun hnone => absurd hnone hup
  | toFile => exact hf.of_client (.refl _) ⟨rfl, rfl, .inl⟩ id rfl hf.detached
  | timeRev now timer hreads hline =>
      have hstarts : (s.onRev (EventS.addTimer now timer)).Starts → s.Starts := by
        unfold Exchange.Starts Exchange.onRev
        rw [EventS.addTimer_handler]
        exact id
      refine ⟨fun hwaits _ => ?_, hf.wev, fun h => hf.waits (hstarts h), fun h hanswered => ?_, hf.detached⟩
      · exact (EventS.addTimer_active _ _ _).trans (hreads.active hwaits)
      · exact nomatch hanswered.symm.trans (hline (hstarts h))
  | timeWev now timer hactive =>
      refine ⟨hf.rev, fun _ => (EventS.addTimer_active _ _ _).trans hactive, fun h hwaits => ?_, hf.answered,
        hf.detached⟩
      exact (EventS.addTimer_active _ _ _).trans (hf.waits h hwaits)
  | delWev hwrites hup =>
      refine ⟨hf.rev, fun hdue => ?_, fun _ _ => EventS.delEvent_active _, hf.answered, hf.detached⟩
      rcases hdue with hfetched | hset
      · exact absurd ((EventS.delEvent_fetched _).symm.trans hfetched) (by simp [hwrites.ready])
      · exact absurd ((EventS.delEvent_timerSet _ hwrites.active).symm.trans hset) (by simp)
  | rewind hrev hreads hup =>
      have hline : ¬ (s.onRev EventS.delEvent).rewindRecv.Starts :=
        Exchange.LineRead.not_starts (.inr ((EventS.delEvent_handler _).trans hrev))
      refine ⟨fun hwaits hdue => ?_, hf.wev, fun h => absurd h hline, fun h => absurd h hline, hf.detached⟩
      rcases hdue with hfetched | hset
      · exact absurd ((EventS.delEvent_fetched _).symm.trans hfetched) (by simp [hreads.ready])
      · exact absurd ((EventS.delEvent_timerSet _ (hreads.active hwaits)).symm.trans hset) (by simp)
  | respond hrev hreads hup hdone h =>
      obtain ⟨b, -, hs'⟩ := constructResponse_eq h
      rw [hs']
      have hline : ∀ {s' : Exchange}, s'.c.rev = s.c.rev.delEvent → ¬ s'.Starts := by
        intro s' heq
        refine Exchange.LineRead.not_starts (.inr ?_)
        rw [heq, EventS.delEvent_handler]
        exact hrev
      refine ⟨fun _ hdue => ?_, fun _ => ?_, fun h => absurd h (hline rfl), fun h => absurd h (hline rfl),
        hf.detached⟩
      · rcases hdue with hfetched | hset
        · exact absurd ((EventS.delEvent_fetched _).symm.trans hfetched) (by simp [hreads.ready])
        · exact absurd ((EventS.delEvent_timerSet _ (hreads.active hdone)).symm.trans hset) (by simp)
      · exact congrArg EventS.active (EventS.addEvent_eq _)
  | await hrev hup hdone =>
      have hline : ¬ ((s.onRev EventS.delEvent).onWev fun ev =>
          { ev with handler := some .handleResponse }).Starts :=
        Exchange.LineRead.not_starts (.inr ((EventS.delEvent_handler _).trans hrev))
      exact ⟨fun hwaits => absurd (hdone.symm.trans hwaits) (by simp), hf.wev, fun h => absurd h hline,
        fun h => absurd h hline, hf.detached⟩
  | passAll hfd hb =>
      have hline : ∀ {s' : Exchange}, s'.c.rev = s.c.rev.addEvent → ¬ s'.Starts := by
        intro s' heq
        unfold Exchange.Starts
        rw [heq, EventS.addEvent_handler]
        exact (hs.attached hfd).2
      refine ⟨fun _ _ => ?_, hf.wev, fun h => absurd h (hline rfl), fun h => absurd h (hline rfl), hf.detached⟩
      exact congrArg EventS.active (EventS.addEvent_eq _)
  | relay hfd hb =>
      refine ⟨hf.rev, fun _ => ?_, fun h => absurd h (hs.attached hfd).2, hf.answered, hf.detached⟩
      exact congrArg EventS.active (EventS.addEvent_eq s.c.wev)
  | upstreamEof hfd =>
      exact ⟨fun h => (nomatch h), hf.wev, fun _ h => (nomatch h), fun h => absurd h (hs.attached hfd).2,
        fun _ => ⟨EventS.close_off _, EventS.close_off _⟩⟩
  | err c r b m up ds status hc hline hcur hup hds h => exact hf.err hc hline hup h
  | done calls hwrites hdone h =>
      cases httpResponseDone_cases h with
      | inl hkept =>
          rw [hkept.2]
          have hwrites' : Exchange.Writes
              (Exchange.tell { s with r := { s.r with responseDone := true } } .responseDone) :=
            ⟨hwrites.ready, hwrites.active⟩
          exact flagged_kept hwrites' hf.detached calls
      | inr hclosed =>
          rw [hclosed.2, httpCloseRequest_eq] at hopen
          exact nomatch hopen
  | close calls =>
      rw [httpCloseRequest_eq] at hopen
      exact nomatch hopen
  | drop hrev => exact nomatch hopen

theorem flagged_accepted (cfg : Config) (now : BitVec 32) (slot : Slot) (fd : Int) (ip : BitVec 32) :
    Flagged (Exchange.accepted cfg now slot fd ip) where
  rev := fun _ _ => congrArg EventS.active (EventS.addEvent_eq _)
  wev := fun hdue => by rcases hdue with h | h <;> exact nomatch h
  waits := fun _ _ => rfl
  answered := fun _ h => nomatch h
  detached := fun _ => ⟨⟨rfl, rfl⟩, ⟨rfl, rfl⟩⟩

end

end PWebServer
