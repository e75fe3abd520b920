import PWebServer.Http.Handlers
import PWebServer.Module.HashProxy

/-!
# Http.Awake

No connection is forgotten: whatever the handlers have done, an exchange that is
open has an event that is registered with kqueue and has a handler.

Which one that is depends on how far the exchange is: once there is an answer, it
is the client's write event; before, it is one of the back end's if there is a
back end, and one of the client's if there is none.
-/

namespace PWebServer

open Function

/-- An event that is registered and has a handler. -/
structure EventS.Watched (ev : EventS) : Prop where
  active : ev.active = true
  handler : ev.handler ≠ none

namespace EventS.Watched

variable {ev : EventS}

theorem of_addEvent (h : ev.handler ≠ none) : ev.addEvent.Watched where
  active := by rw [addEvent_eq]
  handler := by
    rw [addEvent_handler]
    exact h

theorem addTimer (h : ev.Watched) (now timer : BitVec 32) : (ev.addTimer now timer).Watched where
  active := (addTimer_active ev now timer).trans h.active
  handler := by
    rw [addTimer_handler]
    exact h.handler

theorem marked {ev' : EventS} (h : ev.Watched) (hmarked : ev.Marked ev') : ev'.Watched where
  active := hmarked.active.trans h.active
  handler := by
    rw [hmarked.handler]
    exact h.handler

end EventS.Watched

/-- One of the events of the back end's connection is watched. -/
def Connection.Listens (up : Connection) : Prop := 0 < up.fd ∧ (up.rev.Watched ∨ up.wev.Watched)

/-- A back end that the request is passed on to is listened to. -/
def Connection.Passes (up : Connection) : Prop := up.wev.handler = some .httpProxyPass → up.rev.Watched

/-- What holds of an exchange at any time, even in the middle of a selection. -/
structure Held (s : Exchange) : Prop where
  rev : s.c.rev.handler ≠ none
  answered : s.r.responseDone = true → s.c.wev.Watched
  passes : 0 < s.up.fd → s.up.Passes

/-- An exchange that something will come back to. -/
structure Awake (s : Exchange) : Prop extends Held s where
  alone : s.r.responseDone = false → s.r.upstream = none → s.c.rev.active = true ∨ s.c.wev.Watched
  attached : s.r.responseDone = false → s.r.upstream ≠ none → s.up.Listens

/-- Some event of the exchange is watched. -/
def Exchange.Watches (s : Exchange) : Prop := s.c.rev.Watched ∨ s.c.wev.Watched ∨ s.up.Listens

/-- An exchange that is over, or awake. -/
def Exchange.Attended (s : Exchange) : Prop := s.closed = true ∨ Awake s

section

variable {cfg : Config} {calls : Calls} {s s' : Exchange}

theorem Awake.watches (hs : Awake s) : s.Watches := by
  cases hdone : s.r.responseDone with
  | true => exact .inr (.inl (hs.answered hdone))
  | false =>
      by_cases hup : s.r.upstream = none
      · cases hs.alone hdone hup with
        | inl hactive => exact .inl ⟨hactive, hs.rev⟩
        | inr hwev => exact .inr (.inl hwev)
      · exact .inr (.inr (hs.attached hdone hup))

/-! ## what leaves an exchange awake -/

/-- Nothing that matters has changed. -/
theorem Awake.of_same (hs : Awake s) (hrev : s'.c.rev.handler = s.c.rev.handler)
    (hactive : s'.c.rev.active = s.c.rev.active) (hwev : s.c.wev.Watched → s'.c.wev.Watched)
    (hdone : s'.r.responseDone = s.r.responseDone) (hup : s'.r.upstream = s.r.upstream)
    (hsame : s'.up = s.up) : Awake s' where
  rev := by
    rw [hrev]
    exact hs.rev
  answered h := hwev (hs.answered (hdone.symm.trans h))
  passes := by
    rw [hsame]
    exact hs.passes
  alone h hnone := by
    rw [hactive]
    exact (hs.alone (hdone.symm.trans h) (hup.symm.trans hnone)).imp id hwev
  attached h hsome := by
    rw [hsame]
    exact hs.attached (hdone.symm.trans h) (hup ▸ hsome)

/-- An answer is waiting to be sent. -/
theorem Awake.of_answered (hrev : s.c.rev.handler ≠ none) (hdone : s.r.responseDone = true)
    (hwev : s.c.wev.Watched) (hpasses : 0 < s.up.fd → s.up.Passes) : Awake s where
  rev := hrev
  answered _ := hwev
  passes := hpasses
  alone h := by
    rw [hdone] at h
    contradiction
  attached h := by
    rw [hdone] at h
    contradiction

/-- `construct_err` registers the write event. -/
theorem constructErr_awake {status : Int} (hrev : s.c.rev.handler ≠ none) (hpasses : 0 < s.up.fd → s.up.Passes)
    (h : s.constructErr cfg status = .ok s') : Awake s' := by
  obtain ⟨b, -, rfl⟩ := constructErr_eq h
  refine .of_answered ?_ rfl ⟨?_, ?_⟩ hpasses
  · change s.c.rev.delEvent.handler ≠ none
    rw [EventS.delEvent_handler]
    exact hrev
  · exact congrArg EventS.active (EventS.addEvent_eq s.c.wev)
  · exact Option.some_ne_none _

theorem httpCloseRequest_attended (calls : Calls) (s : Exchange) : (s.httpCloseRequest calls).Attended := by
  rw [httpCloseRequest_eq]
  exact .inl rfl

/-- A connection that is kept waits for the next request. -/
theorem keptAlive_awake (hpasses : 0 < s.up.fd → s.up.Passes) (calls : Calls) : Awake (keptAlive cfg calls s) := by
  have hrev : (keptAlive cfg calls s).c.rev.Watched := by
    refine .addTimer ⟨?_, Option.some_ne_none _⟩ _ _
    exact congrArg EventS.active (EventS.addEvent_eq _)
  refine ⟨⟨hrev.handler, ?_, ?_⟩, fun _ _ => .inl hrev.active, ?_⟩
  all_goals rw [keptAlive, httpClearRequest_eq]
  · exact fun h => absurd h Bool.false_ne_true
  · dsimp only
    split
    · exact hpasses
    · exact fun hfd => absurd hfd (not_lt.mpr (Connection.close_fd _))
  · exact fun _ hup => absurd rfl hup

theorem httpResponseDone_attended (hpasses : 0 < s.up.fd → s.up.Passes) (h : s.httpResponseDone cfg calls = .ok s') :
    s'.Attended := by
  cases httpResponseDone_cases h with
  | inl hkept =>
      rw [hkept.2]
      exact .inr (keptAlive_awake (s := s.tell .responseDone) hpasses calls)
  | inr hclosed =>
      rw [hclosed.2]
      exact httpCloseRequest_attended _ _

/-! ## the client's write event -/

theorem handleResponseFile_attended (hs : Awake s) (h : s.handleResponseFile cfg calls = .ok s') :
    s'.Attended := by
  unfold Exchange.handleResponseFile at h
  dsimp only at h
  split at h
  · exact .inr (constructErr_awake (s := s.tell (.ran .handleResponseFile)) hs.rev hs.passes h)
  · obtain ⟨⟨ret, file, os⟩, -, h⟩ := bind_ok h
    cases ret with
    | none => contradiction
    | some ret =>
        cases ret with
        | ok => exact httpResponseDone_attended (by exact hs.passes) h
        | error =>
            cases h
            exact httpCloseRequest_attended _ _
        | again | invalidRequest =>
            dsimp only at h
            split at h
            · cases h
              exact .inr (hs.of_same rfl rfl (fun hwev => hwev.addTimer _ _) rfl rfl rfl)
            · cases h
              exact .inr (hs.of_same rfl rfl id rfl rfl rfl)

theorem handleResponse_attended (hs : Awake s) (h : s.handleResponse cfg calls = .ok s') : s'.Attended := by
  unfold Exchange.handleResponse at h
  dsimp only at h
  split at h
  · cases h
    exact httpCloseRequest_attended _ _
  · generalize bufferSend (s.tell (.ran .handleResponse)).sendBuffer calls.send = out at h
    obtain ⟨err, xs, b⟩ := out
    cases err with
    | ok =>
        dsimp only at h
        split at h
        · exact httpResponseDone_attended (by exact hs.passes) h
        · next hdone =>
          split at h
          · next hup =>
            -- the back end will register the event again
            cases h
            refine .inr ⟨⟨hs.rev, fun htrue => absurd htrue hdone, hs.passes⟩, fun _ hnone => absurd hnone hup,
              hs.attached⟩
          · split at h
            · refine handleResponseFile_attended ?_ h
              exact hs.of_same rfl rfl (fun hwev => ⟨hwev.active, Option.some_ne_none _⟩) rfl rfl rfl
            · exact httpResponseDone_attended (by exact hs.passes) h
    | again =>
        cases h
        exact .inr (hs.of_same rfl rfl (fun hwev => hwev.addTimer _ _) rfl rfl rfl)
    | error | invalidRequest =>
        cases h
        exact httpCloseRequest_attended _ _

/-! ## the client's read event -/

/-- Only the buffer and the count of the body change. -/
theorem parseRequestBodyIdentity_same {ret : Ret} (h : s.parseRequestBodyIdentity = (ret, s')) :
    s'.c = s.c ∧ s'.r = s.r ∧ s'.up = s.up := by
  unfold Exchange.parseRequestBodyIdentity at h
  split at h
  · cases h
    exact ⟨rfl, rfl, rfl⟩
  · dsimp only at h
    split at h <;>
    · cases h
      exact ⟨rfl, rfl, rfl⟩

/-- The read event goes when the body is there: an answer is waiting, or the back
end is to be written to. -/
theorem Awake.delRev (hs : Awake s) (hrev : s'.c.rev = s.c.rev.delEvent) (hwev : s'.c.wev = s.c.wev)
    (hdone : s'.r.responseDone = s.r.responseDone) (hsame : s'.r.upstream = s.r.upstream)
    (hup : s.r.upstream ≠ none) (hlistens : s.up.Listens → s'.up.Listens) (hpasses : 0 < s'.up.fd → s'.up.Passes) : Awake s' where
  rev := by
    rw [hrev, EventS.delEvent_handler]
    exact hs.rev
  answered h := by
    rw [hwev]
    exact hs.answered (hdone.symm.trans h)
  passes := hpasses
  alone _ hnone := absurd (hsame.symm.trans hnone) hup
  attached h _ := hlistens (hs.attached (hdone.symm.trans h) hup)

theorem Connection.Listens.onWev {up : Connection} (h : up.Listens) {ev : EventS}
    (hev : up.wev.Watched → ev.Watched) : Connection.Listens { up with wev := ev } :=
  ⟨h.1, h.2.imp id hev⟩

theorem requestHandleBody_attended (hs : Awake s) (h : s.requestHandleBody cfg calls = .ok s') : s'.Attended := by
  unfold Exchange.requestHandleBody at h
  dsimp only at h
  split at h
  · exact .inr (constructErr_awake (s := s.tell (.ran .requestHandleBody)) hs.rev hs.passes h)
  · have hs₁ : Awake ((s.tell (.ran .requestHandleBody)).recvClient calls.recvBody).2 :=
      hs.of_same rfl rfl id rfl rfl rfl
    generalize (s.tell (.ran .requestHandleBody)).recvClient calls.recvBody = ns at h hs₁
    obtain ⟨n, s₁⟩ := ns
    dsimp only at h hs₁
    split at h
    · cases h
      exact httpCloseRequest_attended _ _
    · cases hbody : s₁.parseRequestBodyIdentity with
      | mk ret s₂ =>
          obtain ⟨hc, hr, hup⟩ := parseRequestBodyIdentity_same hbody
          have hs₂ : Awake s₂ := by
            refine hs₁.of_same ?_ ?_ ?_ ?_ ?_ hup
            all_goals simp only [hc, hr]
            exact id
          rw [hbody] at h
          cases ret with
          | again =>
              dsimp only at h
              split at h
              · cases h
                exact .inr (hs₂.of_same rfl rfl id rfl rfl rfl)
              · next hattached =>
                split at h
                · cases h
                  refine .inr (hs₂.delRev rfl rfl rfl rfl hattached (fun hl => hl.onWev fun hw => ?_) fun hfd hw => ?_)
                  · exact .of_addEvent hw.handler
                  · exact hs₂.passes hfd ((EventS.addEvent_handler _).symm.trans hw)
                · cases h
                  exact .inr (hs₂.of_same rfl rfl id rfl rfl rfl)
          | ok =>
              dsimp only at h
              split at h
              · next hnone =>
                split at h
                · next hdone =>
                  cases h
                  have hwev := hs₂.answered hdone
                  refine .inr (.of_answered ?_ hdone ⟨hwev.active, Option.some_ne_none _⟩ hs₂.passes)
                  exact fun heq => hs₂.rev ((EventS.delEvent_handler _).symm.trans heq)
                · next hdone =>
                  obtain ⟨s₃, hs₃, h⟩ := bind_ok h
                  cases h
                  obtain ⟨b, -, rfl⟩ := constructResponse_eq hs₃
                  have hwev : EventS.Watched (EventS.addEvent { s₂.c.wev with handler := some .handleResponse }) :=
                    .of_addEvent (Option.some_ne_none _)
                  refine .inr ⟨⟨?_, fun _ => hwev.addTimer _ _, hs₂.passes⟩, fun _ _ => .inr (hwev.addTimer _ _),
                    fun _ hsome => absurd hnone hsome⟩
                  exact fun heq => hs₂.rev ((EventS.delEvent_handler _).symm.trans heq)
              · next hattached =>
                split at h
                · cases h
                  refine .inr (hs₂.delRev rfl rfl rfl rfl hattached (fun hl => hl.onWev fun hw => ?_) fun hfd hw => ?_)
                  · exact (EventS.Watched.of_addEvent hw.handler).addTimer _ _
                  · refine hs₂.passes hfd ?_
                    exact ((EventS.addTimer_handler _ _ _).trans (EventS.addEvent_handler _)).symm.trans hw
                · cases h
                  exact .inr (hs₂.delRev rfl rfl rfl rfl hattached id hs₂.passes)
          | error | invalidRequest => exact .inr (constructErr_awake hs₂.rev hs₂.passes h)

theorem httpParseHeaders_attended (hs : Awake s) (h : s.httpParseHeaders cfg calls = .ok s') : s'.Attended := by
  unfold Exchange.httpParseHeaders at h
  dsimp only at h
  split at h
  · exact .inr (constructErr_awake (by exact hs.rev) (by exact hs.passes) h)
  · have hs₁ : Awake ((s.tell (.ran .httpParseHeaders)).recvClient calls.recvHeaders).2 :=
      hs.of_same rfl rfl id rfl rfl rfl
    generalize (s.tell (.ran .httpParseHeaders)).recvClient calls.recvHeaders = ns at h hs₁
    obtain ⟨n, s₁⟩ := ns
    dsimp only at h hs₁
    split at h
    · cases h
      exact httpCloseRequest_attended _ _
    · obtain ⟨d, hd, h⟩ := bind_ok h
      have hframe := headersLoop_frame hd
      have hup : d.r.upstream = s₁.r.upstream := by
        rw [hframe]
        rfl
      have hstatus := headersLoop_status hd
      -- the request behind the loop, unless the loop has answered
      have hs₂ : d.r.responseDone = s₁.r.responseDone →
          Awake { s₁ with r := d.r, recvBuffer := d.b, recvBehind := d.behind } := fun hdone =>
        hs₁.of_same rfl rfl id hdone hup rfl
      cases hloop : d.status with
      | waiting =>
          rw [hloop] at h hstatus
          replace hs₂ := hs₂ (hstatus.resolve_left (by simp))
          dsimp only at h
          split at h
          · cases h
            exact .inr hs₂
          · cases h
            exact .inr (hs₂.of_same (EventS.addTimer_handler _ _ _) (EventS.addTimer_active _ _ _) id rfl rfl rfl)
      | answered | closed =>
          rw [hloop] at h
          cases h
          exact httpCloseRequest_attended _ _
      | body =>
          rw [hloop] at h
          dsimp only at h
          -- the body begins
          have hbody : ∀ {s₃ : Exchange}, Awake s₃ →
              Exchange.requestHandleBody cfg calls ((s₃.tell (.headersRead s₃.headersEnd)).onRev fun ev =>
                { ev with handler := some .requestHandleBody }) = .ok s' → s'.Attended := by
            intro s₃ hs₃ h
            refine requestHandleBody_attended ?_ h
            exact ⟨⟨Option.some_ne_none _, hs₃.answered, hs₃.passes⟩, hs₃.alone, hs₃.attached⟩
          split at h
          · obtain ⟨s₃, hs₃, h⟩ := bind_ok h
            exact hbody (constructErr_awake (by exact hs₁.rev) (by exact hs₁.passes) hs₃) h
          · next hfailed =>
            refine hbody (hs₂ ?_) h
            cases hs₁done : s₁.r.responseDone with
            | true =>
                rw [headersLoop_done hs₁done] at hd
                cases hd
                exact hs₁done
            | false =>
                cases hdone : d.r.responseDone with
                | false => rfl
                | true => simp [hdone, hs₁done] at hfailed

/-! ## back ends -/

/-- How a selection ends that is not out of memory: a connect has gone through or
is in progress, or an error page is constructed. -/
def Concludes (conn : Nat → Ret) (acts : List Act) : Prop :=
  (∃ before us k, (conn k = .ok ∨ conn k = .again) ∧ acts = before ++ [.tryConnect us (conn k)]) ∨
    .constructErr 502 ∈ acts

theorem Concludes.append {conn : Nat → Ret} {acts : List Act} (h : Concludes conn acts) (before : List Act) :
    Concludes conn (before ++ acts) := by
  cases h with
  | inl hconnect =>
      obtain ⟨before', us, k, hret, rfl⟩ := hconnect
      exact .inl ⟨before ++ before', us, k, hret, (List.append_assoc _ _ _).symm⟩
  | inr herr => exact .inr (List.mem_append_right _ herr)

theorem Concludes.fail {conn : Nat → Ret} {acts : List Act} (h : Concludes conn acts) (us : ServerId) (ret : Ret) :
    Concludes conn (.tryConnect us ret :: .free us :: acts) :=
  h.append [.tryConnect us ret, .free us]

theorem retryLoop_concludes (now : BitVec 32) (conn : Nat → Ret) (domain k : Nat) (r : HttpRequest) (d : ServerArr) :
    let run := retryLoop now conn domain k r d
    run.returned = true ∧ Concludes conn run.acts ∨ run.returned = false ∧ run.r.upstreamTries = r.upstreamTries + k := by
  induction k generalizing r d with
  | zero => exact .inr ⟨rfl, rfl⟩
  | succ k ih =>
      have hrest : ∀ d, let run := retryLoop now conn domain k { r with upstreamTries := r.upstreamTries + 1 } d
          run.returned = true ∧ Concludes conn run.acts ∨
            run.returned = false ∧ run.r.upstreamTries = r.upstreamTries + (k + 1) := fun d => by
        refine (ih { r with upstreamTries := r.upstreamTries + 1 } d).imp id fun h => ⟨h.1, h.2.trans ?_⟩
        exact Nat.add_right_comm _ _ _
      rw [retryLoop]
      cases hsel : getServerByRoundOnce now d with
      | mk us d' =>
          cases us with
          | none => exact hrest d'
          | some i =>
              cases hret : conn (r.upstreamTries + 1) with
              | ok =>
                  simp only [hret]
                  exact .inl ⟨trivial, .inl ⟨[], _, _, .inl hret, by rw [hret]; rfl⟩⟩
              | again =>
                  simp only [hret]
                  exact .inl ⟨trivial, .inl ⟨[], _, _, .inr hret, by rw [hret]; rfl⟩⟩
              | error | invalidRequest =>
                  simp only [hret]
                  exact (hrest _).imp (fun h => ⟨h.1, h.2.fail _ _⟩) id

section

variable {o : Outside} {block : Option (Nat → BitVec 64)} {servers : Servers} {rings : Nat → Option Ring}
  {r : HttpRequest} {target : Option (List UInt8)} {sel : Selection}

/-- `init_before_round` gets its bitmap for every domain. -/
def HasRoom (block : Option (Nat → BitVec 64)) (servers : Servers) : Prop :=
  ∀ i, (servers.serverIpArr i).nelts ≤ 64 ∨ block ≠ none

theorem HasRoom.resetTried (h : HasRoom block servers) (i : Nat) :
    resetTried block (servers.serverIpArr i) ≠ none := by
  unfold PWebServer.resetTried
  split
  · exact Option.some_ne_none _
  · next hmany =>
    cases hblock : block with
    | none => exact absurd hblock ((h i).resolve_left hmany)
    | some words => exact Option.some_ne_none _

theorem initBeforeRound_room {now : BitVec 32} {ret : Ret} {r₁ : HttpRequest} {servers₁ : Servers}
    (hroom : HasRoom block servers) (h : initBeforeRound now block servers r target = .ok (ret, r₁, servers₁)) :
    ret = .ok := by
  obtain ⟨domain, -, -, hlost | hfound⟩ := initBeforeRound_cases h
  · exact absurd hlost.2.2 (hroom.resetTried domain)
  · exact hfound.choose_spec.1

theorem hashLookup_nelts {r₁ : HttpRequest} {servers₁ : Servers} {rings₁ : Nat → Option Ring} {domain : Nat}
    {us : Option Nat} (h : hashLookup o servers rings r target = .ok (r₁, servers₁, rings₁, domain, us)) (i : Nat) :
    (servers₁.serverIpArr i).nelts = (servers.serverIpArr i).nelts := by
  obtain ⟨hinit, -, -⟩ := hashLookup_cases h
  obtain ⟨⟨ret, r₂, servers₂⟩, hround, hinit⟩ := bind_ok hinit
  have hsame := (initBeforeRound_follows hround i).nelts
  obtain ⟨domain₂, -, hinit⟩ := bind_ok hinit
  dsimp only at hinit
  split at hinit
  · cases hinit
    exact hsame
  · obtain ⟨old, -, hinit⟩ := bind_ok hinit
    cases hinit
    dsimp only
    by_cases hi : i = domain₂
    · subst hi
      rw [update_self]
      exact hsame
    · rw [update_of_ne hi]
      exact hsame

theorem selectByRound_concludes (hroom : HasRoom block servers)
    (h : selectByRound o block servers rings r target = .ok sel) : Concludes o.conn sel.acts := by
  obtain ⟨⟨r₁, servers₁, acts⟩, hround, h⟩ := bind_ok h
  cases h
  obtain ⟨⟨ret, r₂, servers₂⟩, hinit, hround⟩ := bind_ok hround
  obtain rfl := initBeforeRound_room hroom hinit
  dsimp only at hround
  rw [if_neg (by simp)] at hround
  obtain ⟨domain, -, hround⟩ := bind_ok hround
  have hloop := retryLoop_concludes o.now o.conn domain
    ((servers₂.serverIpArr domain).nelts - r₂.upstreamTries) r₂ (servers₂.serverIpArr domain)
  dsimp only at hloop
  generalize retryLoop o.now o.conn domain _ r₂ _ = run at hround hloop
  cases hloop with
  | inl hreturned =>
      rw [if_pos hreturned.1] at hround
      cases hround
      exact hreturned.2
  | inr hlost =>
      rw [if_neg (by simp [hlost.1]), if_pos (by omega)] at hround
      cases hround
      exact .inr (List.mem_append_right _ List.mem_cons_self)

theorem tryConnectUpstream_concludes {lb : LoadBalance} (hroom : HasRoom o.block servers)
    (hretry : HasRoom o.retryBlock servers)
    (h : PWebServer.tryConnectUpstream lb o servers rings r target = .ok sel) : Concludes o.conn sel.acts := by
  cases lb with
  | roundMode => exact selectByRound_concludes hroom h
  | consistentHash =>
      unfold PWebServer.tryConnectUpstream getServerByConsistentHash at h
      dsimp only at h
      split at h
      · exact selectByRound_concludes hroom h
      · obtain ⟨⟨r₁, servers₁, rings₁, domain, us⟩, hlookup, h⟩ := bind_ok h
        have hsame := hashLookup_nelts hlookup
        have hretry₁ : HasRoom o.retryBlock servers₁ := fun i => by
          rw [hsame i]
          exact hretry i
        dsimp only at h
        cases us with
        | none => exact selectByRound_concludes hretry₁ h
        | some i =>
            dsimp only at h
            split at h
            · next hret =>
              cases h
              exact .inl ⟨[], (domain, i), _, .inl hret, by rw [hret]; rfl⟩
            · obtain ⟨sel₁, hsel₁, h⟩ := bind_ok h
              cases h
              refine (selectByRound_concludes (fun j => ?_) hsel₁).fail _ _
              by_cases hj : j = domain
              · subst hj
                dsimp only
                rw [update_self]
                exact hretry₁ j
              · dsimp only
                rw [update_of_ne hj]
                exact hretry₁ j

end

/-- What a turn may take for granted: the request's pool has room for the bitmap,
and a connect that does not fail was made on a descriptor. -/
structure Calls.Supplied (calls : Calls) : Prop where
  block : HasRoom calls.outside.block calls.servers
  retryBlock : HasRoom calls.outside.retryBlock calls.servers
  socket : ∀ k, calls.outside.conn k = .ok ∨ calls.outside.conn k = .again → 0 < calls.socket

/-- `try_connect` on a connection that has a descriptor, or gets one. -/
theorem tryConnect_listens (k : Nat) {ret : Ret} (hret : ret = .ok ∨ ret = .again) (hsocket : 0 < calls.socket) :
    (s.tryConnect cfg calls k ret).up.Listens := by
  have hfd : 0 < (if s.up.fd ≤ 0 then { s with up := { s.up with fd := calls.socket } } else s).up.fd := by
    split
    · exact hsocket
    · next hfd => exact not_le.mp hfd
  unfold Exchange.tryConnect
  dsimp only
  generalize (if s.up.fd ≤ 0 then { s with up := { s.up with fd := calls.socket } } else s) = s₁ at hfd ⊢
  obtain rfl | rfl := hret
  · refine ⟨hfd, .inl ⟨?_, Option.some_ne_none _⟩⟩
    exact congrArg EventS.active (EventS.addEvent_eq s₁.up.rev)
  · exact ⟨hfd, .inr ((EventS.Watched.of_addEvent (Option.some_ne_none _)).addTimer _ _)⟩

theorem tryConnect_passes (k : Nat) (ret : Ret) (h : s.up.Passes) : (s.tryConnect cfg calls k ret).up.Passes := by
  have hpasses : (if s.up.fd ≤ 0 then { s with up := { s.up with fd := calls.socket } } else s).up.Passes := by
    split
    · exact h
    · exact h
  unfold Exchange.tryConnect
  dsimp only
  generalize (if s.up.fd ≤ 0 then { s with up := { s.up with fd := calls.socket } } else s) = s₁ at hpasses ⊢
  cases ret with
  | ok =>
      refine fun _ => ⟨?_, Option.some_ne_none _⟩
      exact congrArg EventS.active (EventS.addEvent_eq s₁.up.rev)
  | again =>
      intro hwev
      replace hwev := ((EventS.addTimer_handler _ _ _).trans (EventS.addEvent_handler _)).symm.trans hwev
      simp at hwev
  | error | invalidRequest =>
      dsimp only
      split
      · exact fun hwev => hpasses ((EventS.delEvent_handler _).symm.trans hwev)
      · exact hpasses

theorem applyActs_passes {k : Nat} {acts : List Act} (hs : s.up.Passes)
    (h : s.applyActs cfg calls k acts = .ok s') : s'.up.Passes := by
  induction acts generalizing k s with
  | nil =>
      cases h
      exact hs
  | cons a acts ih =>
      cases a with
      | tryConnect us ret => exact ih (tryConnect_passes (s := s.tell (.balancer (.tryConnect us ret))) k ret hs) h
      | constructErr status =>
          obtain ⟨s₁, hs₁, h⟩ := bind_ok h
          refine ih ?_ h
          rw [(constructErr_answered hs₁).up]
          exact hs
      | connectFailed us | connectTimedout us | free us =>
          exact ih (s := s.tell _) hs h

/-- The connect that a selection ends with. -/
theorem applyActs_listens {before : List Act} {us : ServerId} {ret : Ret} {k : Nat}
    (hret : ret = .ok ∨ ret = .again) (hsocket : 0 < calls.socket)
    (h : s.applyActs cfg calls k (before ++ [.tryConnect us ret]) = .ok s') : s'.up.Listens := by
  induction before generalizing k s with
  | nil =>
      cases h
      exact tryConnect_listens k hret hsocket
  | cons a before ih =>
      cases a with
      | tryConnect us' ret' => exact ih h
      | constructErr status =>
          obtain ⟨s₁, -, h⟩ := bind_ok h
          exact ih h
      | connectFailed us' | connectTimedout us' | free us' => exact ih h

/-- A selection leaves the request with a back end that is listened to, or with an
answer. -/
theorem tryConnectUpstream_awake {target : Option (List UInt8)} (hsupplied : calls.Supplied)
    (hcur : s.r.curUpstream = none) (hrev : s.c.rev.handler ≠ none)
    (hanswered : s.r.responseDone = true → s.c.wev.Watched) (hattached : s.r.upstream ≠ none)
    (hpasses : s.up.Passes) (h : s.tryConnectUpstream cfg calls target = .ok s') : Awake s' := by
  obtain ⟨sel, hsel, h⟩ := bind_ok h
  have hpasses' : s'.up.Passes := applyActs_passes (by exact hpasses) h
  have hconcludes := tryConnectUpstream_concludes (by exact hsupplied.block) (by exact hsupplied.retryBlock) hsel
  cases tryConnectUpstream_chooses hcur hsel with
  | inl hkept =>
      obtain ⟨before, us, k, hret, hacts⟩ := hconcludes.resolve_right (hkept.quiet 502)
      have hlistens : s'.up.Listens := by
        rw [hacts] at h
        exact applyActs_listens hret (hsupplied.socket k hret) h
      obtain ⟨up, rfl, -⟩ := applyActs_quiet hkept.quiet h
      have hdone : sel.r.responseDone = s.r.responseDone := by
        rw [hkept.frame]
        rfl
      have hsame : sel.r.upstream = s.r.upstream := by
        rw [hkept.frame]
        rfl
      exact ⟨⟨hrev, fun hd => hanswered (hdone.symm.trans hd), fun _ => hpasses'⟩,
        fun _ hnone => absurd (hsame.symm.trans hnone) hattached, fun _ _ => hlistens⟩
  | inr hgives =>
      obtain ⟨r₁, acts₁, hkept, hr, hacts⟩ := hgives
      rw [hacts] at h
      obtain ⟨k', s₁, hs₁, h⟩ := applyActs_append hkept.quiet h
      have hpasses₁ : s₁.up.Passes := applyActs_passes (by exact hpasses) hs₁
      obtain ⟨up, rfl, -⟩ := applyActs_quiet hkept.quiet hs₁
      obtain ⟨s₂, hs₂, h⟩ := bind_ok h
      cases h
      refine constructErr_awake ?_ ?_ hs₂
      · exact hrev
      · exact fun _ => hpasses₁

theorem initUpstreamConnection_awake (hs : Held s) (hattached : s.r.upstream ≠ none) (hfd : 0 < s.up.fd) :
    Awake (s.initUpstreamConnection cfg calls) := by
  have hrev : EventS.Watched { s.up.rev.addEvent with handler := some .httpRecvUpstream } :=
    ⟨congrArg EventS.active (EventS.addEvent_eq s.up.rev), Option.some_ne_none _⟩
  exact ⟨⟨hs.rev, hs.answered, fun _ _ => hrev⟩, fun _ hnone => absurd hnone hattached,
    fun _ _ => ⟨hfd, .inl hrev⟩⟩

theorem httpProxyPass_attended (hs : Awake s) (hwev : s.up.wev.handler = some .httpProxyPass)
    (hattached : 0 < s.up.fd → s.r.upstream ≠ none) (h : s.httpProxyPass cfg calls = .ok s') : s'.Attended := by
  unfold Exchange.httpProxyPass at h
  dsimp only at h
  split at h
  · cases h
    exact .inr (hs.of_same rfl rfl id rfl rfl rfl)
  · next hfd =>
    replace hfd : 0 < s.up.fd := not_le.mp hfd
    have hrev := hs.passes hfd hwev
    split at h
    · refine .inr (constructErr_awake (by exact hs.rev) (fun hclosed => ?_) h)
      exact absurd hclosed (not_lt.mpr (Connection.close_fd _))
    · generalize bufferSend (s.tell (.ran .httpProxyPass)).recvBuffer calls.send = out at h
      obtain ⟨err, xs, b⟩ := out
      -- whatever has become of the bytes, the back end is listened to
      have hend : ∀ {s₁ : Exchange}, Awake s₁ → (if s₁.up.rev.timerSet then pure s₁
          else pure (s₁.onUpRev (EventS.addTimer calls.now cfg.upstreamTimeout)) : Except Fault Exchange) = .ok s' →
            s'.Attended := by
        intro s₁ hs₁ h
        split at h
        · cases h
          exact .inr hs₁
        · cases h
          refine .inr ⟨⟨hs₁.rev, hs₁.answered, fun hpos hw => (hs₁.passes hpos hw).addTimer _ _⟩, hs₁.alone, ?_⟩
          exact fun hdone hup => ⟨(hs₁.attached hdone hup).1, (hs₁.attached hdone hup).2.imp (·.addTimer _ _) id⟩
      cases err with
      | ok =>
          refine hend ?_ h
          refine ⟨⟨fun heq => ?_, hs.answered, fun _ _ => hrev⟩, fun _ hnone => ?_, fun _ _ => ?_⟩
          · exact hs.rev ((EventS.addEvent_handler _).symm.trans heq)
          · exact absurd hnone (hattached hfd)
          · exact ⟨hfd, .inl hrev⟩
      | error =>
          obtain ⟨s₁, hs₁, h⟩ := bind_ok h
          exact hend (constructErr_awake (by exact hs.rev) (by exact hs.passes) hs₁) h
      | again | invalidRequest =>
          refine hend ?_ h
          exact hs.of_same rfl rfl id rfl rfl rfl

theorem httpRecvUpstream_attended (hs : Awake s) (h : s.httpRecvUpstream cfg calls = .ok s') : s'.Attended := by
  unfold Exchange.httpRecvUpstream at h
  dsimp only at h
  have hclosed : 0 < s.up.close.fd → s.up.close.Passes := fun hfd => absurd hfd (not_lt.mpr (Connection.close_fd _))
  split at h
  · cases h
    exact .inr (hs.of_same rfl rfl id rfl rfl rfl)
  · split at h
    · exact .inr (constructErr_awake (by exact hs.rev) (by exact hclosed) h)
    · generalize bufferRecv (s.tell (.ran .httpRecvUpstream)).sendBuffer calls.recvUpstream = out at h
      obtain ⟨err, xs, b⟩ := out
      have hwev : EventS.Watched { s.c.wev.addEvent with
          handler := if s.c.wev.handler = none then some .handleResponse else s.c.wev.handler } := by
        refine ⟨congrArg EventS.active (EventS.addEvent_eq s.c.wev), ?_⟩
        dsimp only
        split
        · exact Option.some_ne_none _
        · next hsome => exact hsome
      cases err with
      | ok =>
          cases h
          exact .inr (.of_answered hs.rev rfl hwev hclosed)
      | error => exact .inr (constructErr_awake (by exact hs.rev) (by exact hs.passes) h)
      | again | invalidRequest =>
          cases h
          refine .inr ⟨⟨hs.rev, fun _ => hwev, fun hpos hw => ?_⟩, fun _ _ => .inr hwev, fun hdone hup => ?_⟩
          · exact (hs.passes hpos hw).addTimer _ _
          · exact ⟨(hs.attached hdone hup).1, (hs.attached hdone hup).2.imp (fun hw => hw.addTimer _ _) id⟩

theorem HasRoom.set {block : Option (Nat → BitVec 64)} {servers : Servers} (h : HasRoom block servers) (us : ServerId)
    (server : UpstreamServer) : HasRoom block (servers.set us server) := by
  intro i
  unfold Servers.set
  dsimp only
  by_cases hi : i = us.1
  · rw [hi, update_self]
    exact h us.1
  · rw [update_of_ne hi]
    exact h i

theorem processConnectionResultOfUpstream_attended (hsupplied : calls.Supplied) (hs : Awake s)
    (hattached : 0 < s.up.fd → s.r.upstream ≠ none)
    (h : s.processConnectionResultOfUpstream cfg calls = .ok s') : s'.Attended := by
  unfold Exchange.processConnectionResultOfUpstream at h
  dsimp only at h
  split at h
  · cases h
    exact .inr (hs.of_same rfl rfl id rfl rfl rfl)
  · next hfd =>
    replace hfd : 0 < s.up.fd := not_le.mp hfd
    split at h
    · obtain ⟨us, -, h⟩ := bind_ok h
      exact .inr (constructErr_awake (by exact hs.rev) (by exact hs.passes) h)
    · split at h
      · exact .inr (constructErr_awake (by exact hs.rev) (by exact hs.passes) h)
      · obtain ⟨us, -, h⟩ := bind_ok h
        split at h
        · cases h
          exact .inr (initUpstreamConnection_awake ⟨hs.rev, hs.answered, hs.passes⟩ (hattached hfd) hfd)
        · have hsupplied' : Calls.Supplied { calls with
              servers := calls.servers.set us (failServer calls.now (calls.servers.get us)) } :=
            ⟨hsupplied.block.set _ _, hsupplied.retryBlock.set _ _, hsupplied.socket⟩
          refine .inr (tryConnectUpstream_awake ?_ ?_ ?_ ?_ ?_ ?_ h)
          · exact hsupplied'
          · rfl
          · exact hs.rev
          · exact hs.answered
          · exact hattached hfd
          · exact fun hwev => hs.passes hfd ((EventS.delEvent_handler _).symm.trans hwev)

/-! ## the request line -/

theorem Awake.uriDone (hs : Awake s) : Awake s.uriDone := by
  have hdone := uriDone_responseDone s
  have hup : s.uriDone.r.upstream = s.r.upstream := by
    unfold Exchange.uriDone
    dsimp only
    split <;> rfl
  exact hs.of_same rfl rfl id hdone.symm hup rfl

theorem requestProcessUri_awake (hsupplied : calls.Supplied) (hs : Awake s) (hcur : s.r.curUpstream = none)
    (h : s.requestProcessUri cfg calls = .ok s') : Awake s' := by
  unfold Exchange.requestProcessUri at h
  split at h
  · split at h
    · contradiction
    · cases hslot : calls.slot with
      | none =>
          rw [hslot] at h
          contradiction
      | some slot =>
          rw [hslot] at h
          obtain ⟨s₂, hs₂, h⟩ := bind_ok h
          cases h
          refine (tryConnectUpstream_awake hsupplied ?_ ?_ ?_ ?_ ?_ hs₂).uriDone
          · exact hcur
          · exact hs.rev
          · exact hs.answered
          · exact Option.some_ne_none slot
          · exact fun hwev => by simp [Connection.idle] at hwev
  · next b hlookup =>
    have hopen : ∀ fd, Awake (Exchange.uriDone { s with
        recvBuffer := b, resourceFd := fd, fileSize := calls.stSize, file := { resourceLen := calls.stSize } }) :=
      fun fd => Awake.uriDone (hs.of_same rfl rfl id rfl rfl rfl)
    split at h
    · exact constructErr_awake (by exact hs.rev) (by exact hs.passes) h
    · split at h
      · split at h
        · exact constructErr_awake (by exact hs.rev) (by exact hs.passes) h
        · cases h
          exact hopen _
      · cases h
        exact hopen _

theorem ngxHttpProcessRequestLine_attended (hsupplied : calls.Supplied) (hs : Awake s)
    (hcur : s.r.curUpstream = none) (h : s.ngxHttpProcessRequestLine cfg calls = .ok s') : s'.Attended := by
  unfold Exchange.ngxHttpProcessRequestLine at h
  dsimp only at h
  split at h
  · exact .inr (constructErr_awake (by exact hs.rev) (by exact hs.passes) h)
  · have hs₁ : Awake ((s.tell (.ran .ngxHttpProcessRequestLine)).recvClient calls.recvLine).2 :=
      hs.of_same rfl rfl id rfl rfl rfl
    have hr : ((s.tell (.ran .ngxHttpProcessRequestLine)).recvClient calls.recvLine).2.r = s.r := rfl
    generalize ((s.tell (.ran .ngxHttpProcessRequestLine)).recvClient calls.recvLine).2 = s₁ at h hs₁ hr
    rw [← hr] at hcur
    split at h
    · cases h
      exact httpCloseRequest_attended _ _
    · cases hparse : parseRequestLine s₁.r s₁.recvBuffer with
      | mk ret rest =>
          obtain ⟨r, b⟩ := rest
          have hframe := parseRequestLine_frame hparse
          have hup : r.upstream = s₁.r.upstream := by rw [hframe]; rfl
          have hdone : r.responseDone = s₁.r.responseDone := by rw [hframe]; rfl
          have hcur' : r.curUpstream = s₁.r.curUpstream := by rw [hframe]; rfl
          have hs₂ : Awake { s₁ with r := r, recvBuffer := b } := hs₁.of_same rfl rfl id hdone hup rfl
          rw [hparse] at h
          cases ret with
          | ok =>
              obtain ⟨s₃, hs₃, h⟩ := bind_ok h
              refine httpParseHeaders_attended (requestProcessUri_awake hsupplied ?_ ?_ hs₃) h
              · exact ⟨⟨Option.some_ne_none _, hs₂.answered, hs₂.passes⟩, hs₂.alone, hs₂.attached⟩
              · exact hcur'.trans hcur
          | again =>
              dsimp only at h
              split at h
              · contradiction
              · cases h
                exact .inr (hs₂.of_same (EventS.addTimer_handler _ _ _) (EventS.addTimer_active _ _ _) id rfl rfl rfl)
          | error | invalidRequest => exact .inr (constructErr_awake (by exact hs₁.rev) (by exact hs₁.passes) h)

theorem httpInitRequest_attended (hsupplied : calls.Supplied) (hs : Awake s) (hcur : s.r.curUpstream = none)
    (h : s.httpInitRequest cfg calls = .ok s') : s'.Attended := by
  unfold Exchange.httpInitRequest at h
  dsimp only at h
  split at h
  · cases h
    exact .inl rfl
  · refine ngxHttpProcessRequestLine_attended hsupplied ?_ ?_ h
    · exact ⟨⟨Option.some_ne_none _, hs.answered, hs.passes⟩, hs.alone, hs.attached⟩
    · exact hcur

/-! ## turns -/

theorem call_attended {h : EventHandler} (hsupplied : calls.Supplied) (hs : Awake s) (hhandled : Handled s)
    {e : EventId} (he : (s.event e).handler = some h) (hcall : s.call cfg calls h = .ok s') : s'.Attended := by
  have hattached : 0 < s.up.fd → s.r.upstream ≠ none := fun hfd => (hhandled.attached hfd).1
  cases e with
  | rev =>
      rcases hhandled.rev h he with rfl | rfl | rfl | rfl
      · exact httpInitRequest_attended hsupplied hs (hhandled.start (.inl he)).1 hcall
      · exact ngxHttpProcessRequestLine_attended hsupplied hs (hhandled.start (.inr he)).1 hcall
      · exact httpParseHeaders_attended hs hcall
      · exact requestHandleBody_attended hs hcall
  | wev =>
      rcases hhandled.wev h he with rfl | rfl
      · exact handleResponse_attended hs hcall
      · exact handleResponseFile_attended hs hcall
  | upRev =>
      obtain rfl := hhandled.upRev h he
      exact httpRecvUpstream_attended hs hcall
  | upWev =>
      rcases hhandled.upWev h he with rfl | rfl
      · exact httpProxyPass_attended hs he hattached hcall
      · exact processConnectionResultOfUpstream_attended hsupplied hs hattached hcall

/-- Marks watch and forget nothing. -/
theorem Awake.marked (hs : Awake s) (hmarked : ∀ e, (s.event e).Marked (s'.event e))
    (hsame : s' = { s with c := s'.c, up := s'.up }) (hfd : s'.up.fd = s.up.fd) : Awake s' := by
  have hr : s'.r = s.r := by rw [hsame]
  have hwev : s.c.wev.Watched → s'.c.wev.Watched := fun hw => hw.marked (hmarked .wev)
  refine ⟨⟨?_, fun hdone => hwev (hs.answered (hr ▸ hdone)), fun hpos hw => ?_⟩, fun hdone hnone => ?_,
    fun hdone hup => ?_⟩
  · intro hnone
    exact hs.rev ((hmarked .rev).handler.symm.trans hnone)
  · refine (hs.passes (hfd ▸ hpos) ?_).marked (hmarked .upRev)
    exact (hmarked .upWev).handler.symm.trans hw
  · refine (hs.alone (hr ▸ hdone) (hr ▸ hnone)).imp (fun hactive => ?_) hwev
    exact (hmarked .rev).active.trans hactive
  · have hlistens := hs.attached (hr ▸ hdone) (hr ▸ hup)
    exact ⟨hfd ▸ hlistens.1, hlistens.2.imp (·.marked (hmarked .upRev)) (·.marked (hmarked .upWev))⟩

/-- What one turn leaves. -/
theorem step_attended {t : Turn} (hsupplied : t.calls.Supplied) (horder : InOrder s) (hs : s.Attended)
    (hstep : s.step cfg t = .ok s') : s'.Attended := by
  cases hclosed : s.closed with
  | true =>
      rw [step_closed hclosed hstep]
      exact hs
  | false =>
      have hawake : Awake s := hs.resolve_left (Bool.eq_false_iff.mp hclosed)
      -- the handler of an event that has become due
      have hruns : ∀ {h : EventHandler} {s₁ : Exchange}, s.Runs t h s₁ → s₁.call cfg t.calls h = .ok s' →
          s'.Attended := by
        intro h s₁ hruns hcall
        obtain ⟨e, hdue⟩ := hruns.due
        have hmove : Move cfg .quiet s s₁ := hruns.move
        exact call_attended hsupplied (hawake.marked hdue.marked hdue.same hdue.fd) (horder.handled.move hmove)
          hdue.handler hcall
      unfold Exchange.step at hstep
      rw [if_neg (Bool.eq_false_iff.mp hclosed)] at hstep
      split at hstep
      · cases hstep
        refine .inr (hawake.marked (fun e => ?_) rfl rfl)
        cases e <;> exact EventS.marked_poll _
      · next e ht =>
        split at hstep
        · next hfetched =>
          have hsame : ((s.onEvent e fun ev => { ev with fetched := false }).event e).handler =
              (s.event e).handler := by cases e <;> rfl
          dsimp only at hstep
          rw [hsame] at hstep
          split at hstep
          · cases hstep
            refine .inr (hawake.marked (fun e' => ?_) ?_ ?_)
            · cases e <;> cases e' <;> first | exact .refl _ | exact EventS.marked_ready _
            · cases e <;> rfl
            · cases e <;> rfl
          · next h hhandler => exact hruns (.ready hclosed ht hfetched hhandler) hstep
        · cases hstep
          exact .inr hawake
      · next e ht =>
        split at hstep
        · next hset =>
          obtain ⟨h, hhandler, hstep⟩ := bind_ok hstep
          exact hruns (.expire hclosed ht hset (deref_ok hhandler)) hstep
        · cases hstep
          exact .inr hawake

theorem always_of_mem {P : Turn → Prop} {ts : List Turn} (h : ∀ t ∈ ts, P t) (s : Exchange) :
    Exchange.Always cfg (fun _ t => P t) ts s := by
  induction ts generalizing s with
  | nil => trivial
  | cons t ts ih =>
      exact ⟨h t List.mem_cons_self, fun s' _ => ih (fun t' ht' => h t' (List.mem_cons_of_mem t ht')) s'⟩

theorem accepted_awake (cfg : Config) (now : BitVec 32) (slot : Slot) (fd : Int) (ip : BitVec 32) :
    Awake (Exchange.accepted cfg now slot fd ip) := by
  refine ⟨⟨?_, fun hdone => ?_, fun hfd => ?_⟩, fun _ _ => .inl ?_, fun _ hup => absurd rfl hup⟩
  · change (EventS.addEvent (EventS.addTimer _ _ _)).handler ≠ none
    rw [EventS.addEvent_handler, EventS.addTimer_handler]
    exact Option.some_ne_none _
  · exact absurd hdone Bool.false_ne_true
  · exact absurd hfd (lt_irrefl 0)
  · exact congrArg EventS.active (EventS.addEvent_eq _)

/-- **No connection is forgotten**: after any turns an exchange that is open has an
event that is registered with kqueue and has a handler, the write event of the
client's connection if the answer is complete, and one of the back end's if the
request is being passed on. -/
theorem run_watches {ts : List Turn} {now : BitVec 32} {slot : Slot} {fd : Int} {ip : BitVec 32}
    (hsupplied : ∀ t ∈ ts, t.calls.Supplied)
    (hrun : Exchange.run cfg ts (Exchange.accepted cfg now slot fd ip) = .ok s) (hopen : s.closed = false) :
    s.Watches ∧ (s.r.responseDone = true → s.c.wev.Watched) ∧
      (s.r.responseDone = false → s.r.upstream ≠ none → s.up.Listens) := by
  have hkept : InOrder s ∧ s.Attended := by
    refine Exchange.run_induction (I := fun s => InOrder s ∧ s.Attended) ?_
      (always_of_mem hsupplied _) ⟨inOrder_accepted cfg now slot fd ip, .inr (accepted_awake cfg now slot fd ip)⟩ hrun
    intro s₁ t s₂ hs₁ ht hstep
    refine ⟨(step_induct (I := fun _ => True) hs₁.1 hstep ?_ trivial).1, step_attended ht hs₁.1 hs₁.2 hstep⟩
    exact fun _ _ _ _ _ _ _ _ => trivial
  have hawake : Awake s := hkept.2.resolve_left (Bool.eq_false_iff.mp hopen)
  exact ⟨hawake.watches, hawake.answered, hawake.attached⟩

end

/-- A request for `/b` is read and passed on. -/
def passesOn : List Turn := [⟨.poll, oneServer⟩, ⟨.ready .rev, { oneServer with recvLine := .bytes (getB '1') }⟩]

theorem oneServer_supplied (o : Recv) : Calls.Supplied { oneServer with recvLine := o } := by
  have hone : (upstreamProcessInit .roundMode [98] 1 (fun _ => {}) .zeros).nelts ≤ 64 := by decide
  have hsocket : (0 : Int) < 9 := by decide
  exact ⟨fun _ => .inl hone, fun _ => .inl hone, fun _ _ => hsocket⟩

theorem run_watches_passesOn :
    ∃ s, Exchange.run forwardsB passesOn (.accepted forwardsB 0 0 5 0) = .ok s ∧ s.r.upstream ≠ none ∧
      s.Watches ∧ (s.r.responseDone = true → s.c.wev.Watched) ∧
        (s.r.responseDone = false → s.r.upstream ≠ none → s.up.Listens) := by
  have htest : Exchange.runTest forwardsB (fun s => decide (s.r.upstream ≠ none) && !s.closed) passesOn
      (.accepted forwardsB 0 0 5 0) = true := by decide +kernel
  obtain ⟨s, hrun, hs⟩ := Exchange.exists_of_runTest htest
  rw [Bool.and_eq_true, decide_eq_true_eq, Bool.not_eq_true'] at hs
  refine ⟨s, hrun, hs.1, run_watches (fun t ht => ?_) hrun hs.2⟩
  unfold passesOn at ht
  rw [List.mem_pair] at ht
  obtain rfl | rfl := ht
  · exact oneServer_supplied .again
  · exact oneServer_supplied _

/-- Without room for the bitmap no server is selected and no page constructed: the
connection is forgotten, for good. -/
example : Exchange.runTest forwardsB
    (fun s => !s.closed && !s.c.rev.active && !s.c.wev.active && decide (s.up.fd ≤ 0))
    [⟨.poll, oneServer⟩, ⟨.ready .rev, { oneServer with
      recvLine := .bytes (getB '1'), servers := equalServers 65, outside := { oneServer.outside with block := none } }⟩]
    (.accepted forwardsB 0 0 5 0) = true := by decide +kernel

end PWebServer
