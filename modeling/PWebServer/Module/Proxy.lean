import PWebServer.Module.Retry

/-!
# Module.Proxy

Any number of proxied requests over one set of servers, in round mode: the
requests are forwarded, learn what became of their connects, and are closed or
cleared, in any order.

A failed connect is meant to be counted in `fails` exactly once.  The outcome
travels in the server's `state`, which all requests share, and a connect that
times out is not passed on at all.  `fails_counted_iff` says exactly in which
runs the field keeps count: those without a connect timeout in which no request
is closed while the state of its server is that of a failed connect.
-/

namespace PWebServer

open Function

/-! ## the requests -/

/-- The handler of a request's upstream connection. -/
inductive Handler where
  /-- none, or the connection is gone -/
  | null
  /-- `process_connection_result_of_upstream`: the connect is pending -/
  | connectionResult
  /-- `http_proxy_pass`, set by `init_upstream_connection`: it succeeded -/
  | proxyPass
  deriving DecidableEq, Repr

/-- A request and the handler of its upstream connection. -/
structure Proxied where
  r : HttpRequest := {}
  handler : Handler := .null
  deriving DecidableEq, Repr

/-- The worker, as far as the balancer sees it. -/
structure Proxy where
  now : BitVec 32
  servers : Servers
  reqs : Nat → Option Proxied

/-- A server of the proxy. -/
def Servers.get (servers : Servers) (us : ServerId) : UpstreamServer :=
  (servers.serverIpArr us.1).upstreamServer us.2

/-- The servers after one of them changed. -/
def Servers.set (servers : Servers) (us : ServerId) (s : UpstreamServer) : Servers :=
  { servers with
    serverIpArr := update servers.serverIpArr us.1
      { servers.serverIpArr us.1 with
        upstreamServer := update (servers.serverIpArr us.1).upstreamServer us.2 s } }

/-- The handler `try_connect` leaves behind, by the last connect in what was
done. -/
def handlerAfter (acts : List Act) : Handler :=
  if acts.any (fun a => match a with | .tryConnect _ .ok => true | _ => false) then .proxyPass
  else if acts.any (fun a => match a with | .tryConnect _ .again => true | _ => false) then
    .connectionResult
  else .null

/-- What `process_connection_result_of_upstream` learns about a pending
connect. -/
inductive ConnectionResult where
  /-- `wev->timedout` -/
  | timedout
  /-- `getsockopt` failed -/
  | noSockopt
  /-- the value of `SO_ERROR` -/
  | soError (err : Int)
  deriving DecidableEq, Repr

/-- `process_connection_result_of_upstream`. -/
def processConnectionResultOfUpstream (now : BitVec 32) (conn : Nat → Ret)
    (block : Option (Nat → BitVec 64)) (res : ConnectionResult) (servers : Servers)
    (p : Proxied) : Except Fault (Proxied × Servers × List Act) := do
  let us ← deref p.r.curUpstream
  match res with
  | .timedout =>
      pure ({ p with r := p.r.constructErr 504 }, servers,
        [.connectTimedout us, .constructErr 504])
  | .noSockopt => pure ({ p with r := p.r.constructErr 502 }, servers, [.constructErr 502])
  | .soError err =>
      if err = 0 then
        pure (⟨{ p.r with curUpstream := some us }, .proxyPass⟩, servers, [])
      else do
        let s := servers.get us
        let (r, servers, acts) ← getServerByRound now conn block
          (servers.set us (failServer now s)) { p.r with curUpstream := none } none
        pure (⟨r, handlerAfter acts⟩, servers, .connectFailed us :: .free us :: acts)

/-- `http_close_request`, the end of it: the server of the request is released. -/
def httpCloseRequest (now : BitVec 32) (servers : Servers) (r : HttpRequest) :
    Servers × List Act :=
  match r.curUpstream with
  | none => (servers, [])
  | some us =>
      (servers.set us (freeServerAfterRoundSelect now (servers.get us)),
        [.free us])

/-- `http_clear_request`: only the client's connection is kept.  The release at
its end finds `cur_upstream` overwritten by `memzero`.  The header name it then
stores is a string of its own. -/
def httpClearRequest (now : BitVec 32) (servers : Servers) (r : HttpRequest) :
    HttpRequest × Servers × List Act :=
  let r : HttpRequest := { connection := r.connection, headerName := ⟨some 0, 8⟩ }
  match r.curUpstream with
  | none => (r, servers, [])
  | some us =>
      (r, servers.set us (freeServerAfterRoundSelect now (servers.get us)),
        [.free us])

/-! ## runs -/

/-- What happens to one of the requests, or to the clock. -/
inductive Event where
  | clock (now : BitVec 32)
  /-- `http_init_request` creates request `i` -/
  | init (i : Nat)
  /-- `request_process_uri` forwards request `i` -/
  | forward (i : Nat) (target : List UInt8)
  /-- the handler of a pending connect runs -/
  | result (i : Nat) (res : ConnectionResult)
  /-- anything else that is done for request `i` -/
  | other (i : Nat)
  /-- `http_close_request` -/
  | close (i : Nat)
  /-- `http_clear_request` -/
  | clear (i : Nat)
  deriving DecidableEq, Repr

/-- One step of the worker, with what the balancer did in it.  The bitmap
blocks and the outcomes of the connects are whatever they are. -/
inductive Proxy.Step : Proxy → Event → List Act → Proxy → Prop
  | clock {st : Proxy} {now : BitVec 32} : Step st (.clock now) [] { st with now := now }
  | init {st : Proxy} {i : Nat} (hi : st.reqs i = none) :
      Step st (.init i) [] { st with reqs := update st.reqs i (some { r := createHttpRequest }) }
  | forward {st : Proxy} {i : Nat} {target : List UInt8} {p : Proxied} {r : HttpRequest}
      {servers : Servers} {acts : List Act} {conn : Nat → Ret} {block : Option (Nat → BitVec 64)}
      {upstream : Slot} (hi : st.reqs i = some p) (hup : p.r.upstream = none)
      (hdomain : p.r.curServerDomain = none)
      (hrun : getServerByRound st.now conn block st.servers
        { p.r with upstream := some upstream } (some target) = .ok (r, servers, acts)) :
      Step st (.forward i target) acts
        { st with servers := servers, reqs := update st.reqs i (some ⟨r, handlerAfter acts⟩) }
  | result {st : Proxy} {i : Nat} {res : ConnectionResult} {p p' : Proxied} {servers : Servers}
      {acts : List Act} {conn : Nat → Ret} {block : Option (Nat → BitVec 64)}
      (hi : st.reqs i = some p) (hhandler : p.handler = .connectionResult)
      (hrun : processConnectionResultOfUpstream st.now conn block res st.servers p =
        .ok (p', servers, acts)) :
      Step st (.result i res) acts
        { st with servers := servers, reqs := update st.reqs i (some p') }
  | other {st : Proxy} {i : Nat} {p p' : Proxied} (hi : st.reqs i = some p)
      (hus : p'.r.curUpstream = p.r.curUpstream)
      (hdomain : p'.r.curServerDomain = p.r.curServerDomain)
      (htries : p'.r.upstreamTries = p.r.upstreamTries)
      (hhandler : p'.handler = p.handler ∨ p'.handler = .null) :
      Step st (.other i) [] { st with reqs := update st.reqs i (some p') }
  | close {st : Proxy} {i : Nat} {p : Proxied} (hi : st.reqs i = some p) :
      Step st (.close i) (httpCloseRequest st.now st.servers p.r).2
        { st with
          servers := (httpCloseRequest st.now st.servers p.r).1
          reqs := update st.reqs i none }
  | clear {st : Proxy} {i : Nat} {p : Proxied} (hi : st.reqs i = some p) :
      Step st (.clear i) (httpClearRequest st.now st.servers p.r).2.2
        { st with
          servers := (httpClearRequest st.now st.servers p.r).2.1
          reqs := update st.reqs i (some { r := (httpClearRequest st.now st.servers p.r).1 }) }

/-- One step in the history of a run: the states before and after it, what it
was and what the balancer did. -/
structure Taken where
  before : Proxy
  event : Event
  acts : List Act
  after : Proxy

/-- The runs from a state, with their histories. -/
inductive Proxy.Run (st₀ : Proxy) : List Taken → Proxy → Prop
  | refl : Run st₀ [] st₀
  | step {log : List Taken} {st st' : Proxy} {event : Event} {acts : List Act}
      (hrun : Run st₀ log st) (hstep : Step st event acts st') :
      Run st₀ (log ++ [⟨st, event, acts, st'⟩]) st'

/-! ## counting -/

/-- Whether an action is a failed connect to `us`. -/
def Act.isFailure (us : ServerId) : Act → Bool
  | .tryConnect us' ret => decide (us' = us) && decide (ret ≠ .ok) && decide (ret ≠ .again)
  | .connectFailed us' => decide (us' = us)
  | .connectTimedout us' => decide (us' = us)
  | _ => false

/-- The connects to `us` that failed. -/
def failures (us : ServerId) (acts : List Act) : Nat := acts.countP (Act.isFailure us)

namespace Taken

/-- Servers are selected or released in a step: some may start afresh. -/
def Renews (t : Taken) : Prop :=
  match t.event with
  | .forward _ _ | .result _ (.soError _) | .close _ | .clear _ => True
  | _ => False

/-- The field `fails` of a server keeps count in a step: it grows by one for
each connect to the server that failed, or the server starts afresh, with
failures that are old enough, and it counts those that come after that. -/
def Counts (t : Taken) (us : ServerId) : Prop :=
  let s := t.before.servers.get us
  let s' := t.after.servers.get us
  let k := failures us t.acts
  s'.fails = s.fails + k ∨
    t.Renews ∧ (inFailTimeDuration t.before.now s = false ∧ s'.fails = k ∨
      -- a `fail_timeout` below zero has passed when the failure is counted
      s.failTimeout.toInt < 0 ∧ ∃ j < k, s'.fails = j)

/-- A step that counts right: no connect times out, and no request is closed
while its server's state is that of a failed connect. -/
def Regular (t : Taken) : Prop :=
  match t.event with
  | .result _ .timedout => False
  | .close i => ∀ p us, t.before.reqs i = some p → p.r.curUpstream = some us →
      (t.before.servers.get us).state ≠ .connFail
  | _ => True

end Taken

/-- The law of the failure counters over a history: in every step the field
`fails` of every server grows by one for each connect to it that failed, and the
end of a request whose connect succeeded makes none larger. -/
structure FailsCounted (log : List Taken) : Prop where
  once : ∀ t ∈ log, ∀ us, t.Counts us
  never : ∀ t ∈ log, ∀ i p, t.event = .close i ∨ t.event = .clear i → t.before.reqs i = some p →
    p.handler = .proxyPass → ∀ us, (t.after.servers.get us).fails ≤ (t.before.servers.get us).fails

@[simp] theorem failures_nil (us : ServerId) : failures us [] = 0 := rfl

@[simp] theorem failures_cons (us : ServerId) (a : Act) (acts : List Act) :
    failures us (a :: acts) = failures us acts + if a.isFailure us then 1 else 0 := List.countP_cons

@[simp] theorem failures_append (us : ServerId) (xs ys : List Act) :
    failures us (xs ++ ys) = failures us xs + failures us ys := List.countP_append

/-! ## servers -/

theorem Servers.get_set (servers : Servers) (us us' : ServerId) (s : UpstreamServer) :
    (servers.set us s).get us' = if us' = us then s else servers.get us' := by
  obtain ⟨k, i⟩ := us
  obtain ⟨k', i'⟩ := us'
  unfold Servers.get Servers.set
  by_cases hk : k' = k
  · subst hk
    by_cases hi : i' = i
    · simp [hi]
    · simp [hi, update_of_ne]
  · simp [hk, update_of_ne]

theorem initBeforeRound_get {now : BitVec 32} {block : Option (Nat → BitVec 64)} {servers₁ : Servers}
    {r r₁ : HttpRequest} {target : Option (List UInt8)} {ret : Ret}
    (h : initBeforeRound now block servers r target = .ok (ret, r₁, servers₁)) (us : ServerId) :
    servers₁.get us = servers.get us ∨ servers₁.get us = resetServer now (servers.get us) := by
  obtain ⟨k, -, -, ⟨-, rfl, -⟩ | ⟨d, -, htried, rfl⟩⟩ := initBeforeRound_cases h
  · exact .inl rfl
  · have hsame : d.upstreamServer = (servers.serverIpArr k).upstreamServer := by
      unfold resetTried at htried
      split at htried
      · cases htried
        rfl
      · obtain ⟨words, -, hd⟩ := Option.map_eq_some_iff.mp htried
        rw [← hd]
    unfold Servers.get
    by_cases hk : us.1 = k
    · subst hk
      simp only [update_self, resetServers, hsame]
      by_cases hi : us.2 < d.nelts
      · exact .inr (if_pos hi)
      · exact .inl (if_neg hi)
    · exact .inl (by simp only [update_of_ne hk])

theorem getServerByRoundOnce_sameFailures (now : BitVec 32) (d : ServerArr) (i : Nat) :
    SameFailures ((getServerByRoundOnce now d).2.upstreamServer i) (d.upstreamServer i) := by
  obtain ⟨hnone, -⟩ | ⟨b, -, hsome⟩ := getServerByRoundOnce_cases now d
  · rw [hnone]
    exact .refl _
  · rw [hsome]
    exact sameFailures_picked now d b i

/-- A server that has been marked and released has one failure more. -/
theorem failServer_fails (now : BitVec 32) (s : UpstreamServer) : (failServer now s).fails = s.fails + 1 := by
  simp [failServer, freeServerAfterRoundSelect]

/-- Its fail time has begun now, so it is over only if it is below zero. -/
theorem inFailTimeDuration_failServer (now : BitVec 32) (s : UpstreamServer) :
    inFailTimeDuration now (failServer now s) = false ↔ s.failTimeout.toInt < 0 := by
  simp [inFailTimeDuration, failServer, freeServerAfterRoundSelect]

/-- A server released as a failed one. -/
theorem freeServerAfterRoundSelect_fail (now : BitVec 32) {s : UpstreamServer} (h : s.state = .connFail) :
    (freeServerAfterRoundSelect now s).fails = s.fails + 1 := by
  simp [freeServerAfterRoundSelect, h]

/-- A server released as a good one keeps its count or starts afresh. -/
theorem freeServerAfterRoundSelect_suc (now : BitVec 32) {s : UpstreamServer} (h : s.state ≠ .connFail) :
    (freeServerAfterRoundSelect now s).fails = s.fails ∨
      inFailTimeDuration now s = false ∧ (freeServerAfterRoundSelect now s).fails = 0 := by
  by_cases htime : inFailTimeDuration now s <;> simp [freeServerAfterRoundSelect, h, htime]

theorem resetServer_fails (now : BitVec 32) (s : UpstreamServer) :
    (resetServer now s).fails = s.fails ∨ inFailTimeDuration now s = false ∧ (resetServer now s).fails = 0 := by
  unfold resetServer
  by_cases h : s.maxFails ≤ s.fails ∧ ¬ inFailTimeDuration now s
  · exact .inr ⟨by simpa using h.2, if_pos h⟩
  · exact .inl (if_neg h)

/-! ## what one step counts -/

/-- The loop counts each failed connect where it happens. -/
theorem retryLoop_fails (now : BitVec 32) (conn : Nat → Ret) (domain k : Nat) (r : HttpRequest) (d : ServerArr)
    (i : Nat) :
    ((retryLoop now conn domain k r d).d.upstreamServer i).fails =
      (d.upstreamServer i).fails + failures (domain, i) (retryLoop now conn domain k r d).acts := by
  induction k generalizing r d with
  | zero => simp [retryLoop]
  | succ k ih =>
      have hsame := (getServerByRoundOnce_sameFailures now d i).fails
      rw [retryLoop]
      generalize getServerByRoundOnce now d = sel at hsame
      obtain ⟨us, d₁⟩ := sel
      dsimp only at hsame
      cases us with
      | none => exact (ih _ d₁).trans (by rw [hsame])
      | some j =>
          cases hret : conn (r.upstreamTries + 1) with
          | ok | again => simpa [hret, Act.isFailure] using hsame
          | error | invalidRequest =>
              simp only [hret, ih, failures_cons]
              by_cases hj : i = j
              · subst hj
                simp only [update_self, failServer_fails, Act.isFailure, hsame]
                simp
                omega
              · simp [hj, hsame, Act.isFailure, Ne.symm hj]

/-- It connects to servers of its own domain only. -/
theorem retryLoop_failures_ne (now : BitVec 32) (conn : Nat → Ret) (domain k : Nat) (r : HttpRequest) (d : ServerArr)
    {us : ServerId} (h : us.1 ≠ domain) : failures us (retryLoop now conn domain k r d).acts = 0 := by
  have hne : ∀ i, (domain, i) ≠ us := fun i heq => h (congrArg Prod.fst heq.symm)
  induction k generalizing r d with
  | zero => rfl
  | succ k ih =>
      rw [retryLoop]
      generalize getServerByRoundOnce now d = sel
      obtain ⟨_ | j, d₁⟩ := sel
      · exact ih _ _
      · cases hret : conn (r.upstreamTries + 1) <;> simp [hret, Act.isFailure, hne, ih]

/-- A selection counts each failed connect, from what `init_before_round` has
left of the count. -/
theorem getServerByRound_fails (h : getServerByRound now conn block servers r target = .ok (r', servers', acts))
    (us : ServerId) :
    (servers'.get us).fails = (servers.get us).fails + failures us acts ∨
      inFailTimeDuration now (servers.get us) = false ∧ (servers'.get us).fails = failures us acts := by
  unfold getServerByRound at h
  obtain ⟨⟨ret, r₁, servers₁⟩, hinit, h⟩ := bind_ok h
  have hreset : (servers₁.get us).fails = (servers.get us).fails ∨
      inFailTimeDuration now (servers.get us) = false ∧ (servers₁.get us).fails = 0 := by
    rcases initBeforeRound_get hinit us with heq | heq
    · exact .inl (by rw [heq])
    · rw [heq]
      exact resetServer_fails now _
  suffices hloop : (servers'.get us).fails = (servers₁.get us).fails + failures us acts by
    rw [hloop]
    rcases hreset with heq | ⟨hold, heq⟩
    · exact .inl (by rw [heq])
    · exact .inr ⟨hold, by rw [heq, zero_add]⟩
  dsimp only at h
  split at h
  · cases h
    simp
  · obtain ⟨domain, -, h⟩ := bind_ok h
    have hrun : ∀ run, run = retryLoop now conn domain ((servers₁.serverIpArr domain).nelts - r₁.upstreamTries) r₁
        (servers₁.serverIpArr domain) →
        (({ servers₁ with serverIpArr := update servers₁.serverIpArr domain run.d } : Servers).get us).fails =
          (servers₁.get us).fails + failures us run.acts := by
      rintro run rfl
      obtain ⟨k, i⟩ := us
      unfold Servers.get
      by_cases hk : k = domain
      · subst hk
        simp only [update_self, retryLoop_fails]
      · simp only [update_of_ne hk, retryLoop_failures_ne now conn domain _ r₁ _ (show (k, i).1 ≠ domain from hk)]
        simp
    split at h
    · cases h
      exact hrun _ rfl
    · split at h <;> cases h
      · rw [hrun _ rfl]
        simp [Act.isFailure]
      · exact hrun _ rfl

/-- What the handler of a pending connect counts: everything but a timeout. -/
theorem processConnectionResultOfUpstream_fails
    (h : processConnectionResultOfUpstream now conn block (.soError err) servers p = .ok (p', servers', acts))
    (us : ServerId) :
    (servers'.get us).fails = (servers.get us).fails + failures us acts ∨
      inFailTimeDuration now (servers.get us) = false ∧ (servers'.get us).fails = failures us acts ∨
        (servers.get us).failTimeout.toInt < 0 ∧ ∃ j < failures us acts, (servers'.get us).fails = j := by
  unfold processConnectionResultOfUpstream at h
  obtain ⟨us', -, h⟩ := bind_ok h
  dsimp only at h
  split at h
  · cases h
    simp
  · obtain ⟨⟨r₁, servers₁, acts₁⟩, hsel, h⟩ := bind_ok h
    cases h
    have hcount := getServerByRound_fails hsel us
    rw [Servers.get_set] at hcount
    by_cases hus : us = us'
    · subst hus
      simp only [if_true, failServer_fails, inFailTimeDuration_failServer] at hcount
      simp only [failures_cons, Act.isFailure, decide_true, if_true, if_false, Bool.false_eq_true]
      rcases hcount with heq | ⟨hneg, heq⟩
      · exact .inl (by rw [heq]; push_cast; ring)
      · exact .inr (.inr ⟨hneg, _, by omega, heq⟩)
    · rw [if_neg hus] at hcount
      have hfail : failures us (.connectFailed us' :: .free us' :: acts₁) = failures us acts₁ := by
        simp [Act.isFailure, Ne.symm hus]
      rw [hfail]
      exact hcount.elim .inl fun hold => .inr (.inl hold)

/-- The counts stay above zero. -/
theorem Proxy.Step.fails_nonneg (h : Proxy.Step st event acts st') (hfails : ∀ us, 0 ≤ (st.servers.get us).fails)
    (us : ServerId) : 0 ≤ (st'.servers.get us).fails := by
  have hus := hfails us
  cases h with
  | clock | init | other | clear => exact hus
  | forward _ _ _ hrun => rcases getServerByRound_fails hrun us with heq | ⟨-, heq⟩ <;> dsimp only <;> omega
  | @result _ res _ _ _ _ _ _ _ _ hrun =>
      cases res with
      | soError err =>
          rcases processConnectionResultOfUpstream_fails hrun us with heq | ⟨-, heq⟩ | ⟨-, j, -, heq⟩ <;>
            dsimp only <;> omega
      | timedout | noSockopt =>
          unfold processConnectionResultOfUpstream at hrun
          obtain ⟨us', -, hrun⟩ := bind_ok hrun
          cases hrun
          exact hus
  | @close _ p =>
      dsimp only [httpCloseRequest]
      cases p.r.curUpstream with
      | none => exact hus
      | some us' =>
          dsimp only
          rw [Servers.get_set]
          split
          · next heq =>
              subst heq
              by_cases hfail : (st.servers.get us).state = .connFail
              · rw [freeServerAfterRoundSelect_fail _ hfail]
                omega
              · rcases freeServerAfterRoundSelect_suc st.now hfail with heq | ⟨-, heq⟩ <;> omega
          · exact hus

/-- A step in which nothing is counted and no server changes. -/
theorem Taken.counts_of_same {t : Taken} (hservers : t.after.servers = t.before.servers)
    (hacts : ∀ us, failures us t.acts = 0) (us : ServerId) : t.Counts us :=
  .inl (by rw [hservers, hacts us, Nat.cast_zero, add_zero])

/-- The fields keep count in a step exactly if it is a regular one. -/
theorem Proxy.Step.counts_iff (h : Proxy.Step st event acts st') (hfails : ∀ us, 0 ≤ (st.servers.get us).fails) :
    (∀ us, (Taken.mk st event acts st').Counts us) ↔ (Taken.mk st event acts st').Regular := by
  cases h with
  | clock | init | other | clear => exact iff_of_true (Taken.counts_of_same rfl fun _ => rfl) trivial
  | forward _ _ _ hrun =>
      refine iff_of_true (fun us => ?_) trivial
      exact (getServerByRound_fails hrun us).imp id fun hold => ⟨trivial, .inl hold⟩
  | @result _ res _ _ _ _ _ _ _ _ hrun =>
      cases res with
      | soError err =>
          refine iff_of_true (fun us => ?_) trivial
          exact (processConnectionResultOfUpstream_fails hrun us).imp id fun hold => ⟨trivial, hold⟩
      | timedout =>
          refine iff_of_false (fun hall => ?_) id
          unfold processConnectionResultOfUpstream at hrun
          obtain ⟨us, -, hrun⟩ := bind_ok hrun
          cases hrun
          have hus := hall us
          simp [Taken.Counts, Taken.Renews, Act.isFailure] at hus
      | noSockopt =>
          unfold processConnectionResultOfUpstream at hrun
          obtain ⟨us, -, hrun⟩ := bind_ok hrun
          cases hrun
          exact iff_of_true (Taken.counts_of_same rfl fun _ => rfl) trivial
  | @close i p hi =>
      have hreg : (Taken.mk st (.close i) (httpCloseRequest st.now st.servers p.r).2
          { st with servers := (httpCloseRequest st.now st.servers p.r).1, reqs := update st.reqs i none }).Regular ↔
          ∀ us, p.r.curUpstream = some us → (st.servers.get us).state ≠ .connFail := by
        refine ⟨fun h us hus => h p us hi hus, fun h q us hq hus => ?_⟩
        obtain rfl := Option.some.inj (hi.symm.trans hq)
        exact h us hus
      rw [hreg]
      unfold httpCloseRequest
      cases hus : p.r.curUpstream with
      | none => exact iff_of_true (Taken.counts_of_same rfl fun _ => rfl) (by simp)
      | some us =>
          constructor
          · rintro hall us' heq hfail
            obtain rfl := Option.some.inj heq
            have hcount := hall us
            have hpos := hfails us
            simp only [Taken.Counts, Servers.get_set, if_true, freeServerAfterRoundSelect_fail _ hfail] at hcount
            simp [Act.isFailure] at hcount
            omega
          · intro hsuc us'
            by_cases heq : us' = us
            · subst heq
              have hfree := freeServerAfterRoundSelect_suc st.now (hsuc us' rfl)
              simp only [Taken.Counts, Taken.Renews, Servers.get_set, if_true]
              simpa [Act.isFailure] using hfree
            · simp [Taken.Counts, Servers.get_set, heq, Act.isFailure]

/-- The end of a request is no failed connect. -/
theorem Proxy.Step.failures_end (h : Proxy.Step st event acts st')
    (hend : event = .close i ∨ event = .clear i) (us : ServerId) : failures us acts = 0 := by
  rcases hend with rfl | rfl
  · cases h
    rename_i p _
    unfold httpCloseRequest
    cases p.r.curUpstream <;> rfl
  · cases h
    rfl

/-! ## what a run counts -/

/-- Every step of a history was taken, from counts that are not below zero. -/
theorem Proxy.Run.taken (h : Proxy.Run st₀ log st) (hfails : ∀ us, 0 ≤ (st₀.servers.get us).fails) :
    (∀ us, 0 ≤ (st.servers.get us).fails) ∧
      ∀ t ∈ log, Proxy.Step t.before t.event t.acts t.after ∧ ∀ us, 0 ≤ (t.before.servers.get us).fails := by
  induction h with
  | refl => exact ⟨hfails, fun _ ht => absurd ht List.not_mem_nil⟩
  | step _ hstep ih =>
      obtain ⟨hnow, hall⟩ := ih
      refine ⟨hstep.fails_nonneg hnow, fun t ht => ?_⟩
      rcases List.mem_append.mp ht with ht | ht
      · exact hall t ht
      · obtain rfl := List.mem_singleton.mp ht
        exact ⟨hstep, hnow⟩

/-- **The failure counters**: in a run, begun with any counts, the field `fails`
of every server counts every failed connect once and nothing else exactly if all
its steps are regular. -/
theorem fails_counted_iff (hrun : Proxy.Run st₀ log st) (hfails : ∀ us, 0 ≤ (st₀.servers.get us).fails) :
    FailsCounted log ↔ ∀ t ∈ log, t.Regular := by
  have htaken := (hrun.taken hfails).2
  have hsteps : (∀ t ∈ log, ∀ us, t.Counts us) ↔ ∀ t ∈ log, t.Regular :=
    forall₂_congr fun t ht => (htaken t ht).1.counts_iff (htaken t ht).2
  rw [← hsteps]
  refine ⟨FailsCounted.once, fun h => ⟨h, fun t ht i p hend _ _ us => ?_⟩⟩
  obtain ⟨hstep, hpos⟩ := htaken t ht
  have hcount := h t ht us
  have hus := hpos us
  simp only [Taken.Counts, hstep.failures_end hend us] at hcount
  omega

/-- One fresh server and no requests. -/
def idleProxy : Proxy where
  now := 0
  servers := equalServers 1
  reqs := fun _ => none

/-- A request whose connects fail at once: the failure is counted, once. -/
theorem fails_counted_oneRequest :
    ∃ log st, Proxy.Run idleProxy log st ∧ (st.servers.get (0, 0)).fails = 1 ∧ FailsCounted log := by
  have hinit := Proxy.Run.step (.refl) (@Proxy.Step.init idleProxy 0 rfl)
  have hrun := hinit.step
    (@Proxy.Step.forward _ 0 [98] _ _ _ _ (fun _ => .error) none 1 rfl rfl rfl rfl)
  refine ⟨_, _, hrun, by decide, (fails_counted_iff hrun fun _ => le_refl 0).mpr ?_⟩
  intro t ht
  simp only [List.nil_append, List.mem_append, List.mem_singleton] at ht
  rcases ht with rfl | rfl <;> trivial

/-- Request 0 is connected, request 1 fails to connect to the same server, and
then closing request 0 counts a second failure. -/
theorem fails_miscounted_close :
    ∃ log st, Proxy.Run idleProxy log st ∧ (st.servers.get (0, 0)).fails = 2 ∧
      failures (0, 0) (log.flatMap Taken.acts) = 1 ∧ ¬ FailsCounted log := by
  have hinit := Proxy.Run.step (.refl) (@Proxy.Step.init idleProxy 0 rfl)
  have hforward := hinit.step
    (@Proxy.Step.forward _ 0 [98] _ _ _ _ (fun _ => .again) none 1 rfl rfl rfl rfl)
  have hresult := hforward.step
    (@Proxy.Step.result _ 0 (.soError 0) _ _ _ _ (fun _ => .again) none rfl rfl rfl)
  have hinit' := hresult.step (@Proxy.Step.init _ 1 rfl)
  have hforward' := hinit'.step
    (@Proxy.Step.forward _ 1 [98] _ _ _ _ (fun _ => .error) none 2 rfl rfl rfl rfl)
  have hclose := hforward'.step (@Proxy.Step.close _ 0 _ rfl)
  refine ⟨_, _, hclose, by decide, by decide, fun h => ?_⟩
  have hgrown := h.never _ (List.mem_append_right _ (List.mem_singleton_self _)) 0 _ (.inl rfl) rfl rfl (0, 0)
  revert hgrown
  decide

end PWebServer
