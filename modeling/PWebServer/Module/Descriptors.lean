import PWebServer.Lib.History
import PWebServer.Lib.Machine
import PWebServer.Module.ConsistentHash

/-!
# Module.Descriptors

The descriptor of a request's upstream connection, over all the connects that are
tried for the request.  `try_connect` gets a descriptor where there is none, and
nothing closes one on which a connect has failed, or lets go of one on which it is
still in progress: whatever is tried after that is tried on the same descriptor.
-/

namespace PWebServer

open Function History

/-- What `connect` says. -/
inductive ConnectOutcome where
  | ok
  | inProgress
  | error
  deriving DecidableEq, Repr

/-- What one call of `try_connect` takes from the system: the descriptor from
`socket`, whether `inet_pton` accepts the address of the server, and what `connect`
says. -/
structure ConnectCalls where
  socket : Int
  inetPton : Bool
  connect : ConnectOutcome
  deriving DecidableEq, Repr

/-- The outcome of a call of `try_connect`: the descriptor of the connection, what is
returned, and the `connect` if it got so far. -/
structure Tried where
  fd : Int
  ret : Ret
  connect : Option (Int × ConnectOutcome)

/-- `try_connect` on a connection with the descriptor `fd`. -/
def tryConnect (fd : Int) (calls : ConnectCalls) : Tried :=
  let fd := if fd ≤ 0 then calls.socket else fd
  if fd ≤ 0 then ⟨fd, .error, none⟩
  else if !calls.inetPton then ⟨fd, .error, none⟩
  else
    match calls.connect with
    | .ok => ⟨fd, .ok, some (fd, .ok)⟩
    | .inProgress => ⟨fd, .again, some (fd, .inProgress)⟩
    | .error => ⟨fd, .error, some (fd, .error)⟩

/-- What calls of `try_connect`, one after the other, return. -/
def triedRets : Int → List ConnectCalls → List Ret
  | _, [] => []
  | fd, c :: cs => (tryConnect fd c).ret :: triedRets (tryConnect fd c).fd cs

/-- The connects among them. -/
def triedConnects : Int → List ConnectCalls → List (Int × ConnectOutcome)
  | _, [] => []
  | fd, c :: cs => (tryConnect fd c).connect.toList ++ triedConnects (tryConnect fd c).fd cs

/-- The descriptor they leave behind. -/
def triedFd (fd : Int) (cs : List ConnectCalls) : Int := cs.foldl (fun fd c => (tryConnect fd c).fd) fd

/-! ## runs -/

/-- A request that is forwarded, with the servers.  `fd` is the descriptor of its
upstream connection, once there is one.  The last two fields are no part of the
program: the calls that were made for the request, and the connects among them. -/
structure Forwarding where
  servers : Servers
  rings : Nat → Option Ring
  r : HttpRequest
  handler : Handler := .null
  fd : Option Int := none
  calls : List ConnectCalls := []
  connects : List (Int × ConnectOutcome) := []

/-- What happens to it. -/
inductive ForwardOp where
  /-- `request_process_uri` forwards the request -/
  | forward (o : Outside) (target : List UInt8) (calls : List ConnectCalls)
  /-- the handler of a pending connect runs -/
  | result (res : ConnectionResult) (o : Outside) (calls : List ConnectCalls)
  /-- what other requests do with the servers -/
  | others (servers : Servers) (rings : Nat → Option Ring)

namespace Forwarding

/-- A selection of a server, in which `try_connect` goes as `calls` say. -/
def select (lb : LoadBalance) (st : Forwarding) (fd : Int) (o : Outside) (servers : Servers) (r : HttpRequest)
    (target : Option (List UInt8)) (calls : List ConnectCalls) : Option Forwarding := do
  let sel ← (tryConnectUpstream lb o servers st.rings r target).toOption
  if sel.attempts.map (·.ret) = triedRets fd calls then
    pure
      { servers := sel.servers
        rings := sel.rings
        r := sel.r
        handler := handlerAfter sel.acts
        fd := some (triedFd fd calls)
        calls := st.calls ++ calls
        connects := st.connects ++ triedConnects fd calls }
  else none

/-- One operation. -/
def step (lb : LoadBalance) (st : Forwarding) : ForwardOp → Option Forwarding
  | .forward o target calls => st.select lb 0 o st.servers st.r (some target) calls
  | .result res o calls => do
      let us ← st.r.curUpstream
      match res with
      | .timedout => pure { st with r := st.r.constructErr 504 }
      | .noSockopt => pure { st with r := st.r.constructErr 502 }
      | .soError err =>
          if err = 0 then pure { st with handler := .proxyPass }
          else
            let fd ← st.fd
            st.select lb fd o (st.servers.set us (failServer o.now (st.servers.get us)))
              { st.r with curUpstream := none } none calls
  | .others servers rings => some { st with servers := servers, rings := rings }

/-- The request is forwarded once, by `open_upstream_connection` with a connection
that has no descriptor. -/
def Allows (st : Forwarding) : ForwardOp → Prop
  | .forward _ _ _ => st.fd = none
  | .result _ _ _ => st.handler = .connectionResult
  | .others _ _ => True

/-- The runs of a request. -/
def machine (lb : LoadBalance) : Machine Forwarding ForwardOp where
  init st := st.handler = .null ∧ st.fd = none ∧ st.calls = [] ∧ st.connects = []
  allows := Allows
  step := step lb

end Forwarding

/-- A connect is made on a descriptor on which none has failed or is in progress. -/
def FreshFd (earlier : List (Int × ConnectOutcome)) (c : Int × ConnectOutcome) : Prop :=
  ∀ e ∈ earlier, e.1 = c.1 → e.2 = .ok

/-! ## calls one after the other -/

section Calls

variable {fd fd' : Int} {c : ConnectCalls} {cs cs' : List ConnectCalls}

theorem triedFd_append : triedFd fd (cs ++ cs') = triedFd (triedFd fd cs) cs' := List.foldl_append

theorem triedConnects_append :
    triedConnects fd (cs ++ cs') = triedConnects fd cs ++ triedConnects (triedFd fd cs) cs' := by
  induction cs generalizing fd with
  | nil => rfl
  | cons c cs ih =>
      rw [List.cons_append, triedConnects, triedConnects, ih, List.append_assoc]
      rfl

/-- With a descriptor it is that one which is used. -/
theorem tryConnect_of_pos (h : 0 < fd) (c : ConnectCalls) : (tryConnect fd c).fd = fd ∧
    (tryConnect fd c).connect = if c.inetPton then some (fd, c.connect) else none := by
  have hle : ¬fd ≤ 0 := Int.not_le.mpr h
  unfold tryConnect
  simp only [hle, if_false]
  cases c.inetPton with
  | false => exact ⟨rfl, rfl⟩
  | true => cases hconnect : c.connect <;> simp

/-- Without one it is that of `socket`. -/
theorem tryConnect_of_not_pos (h : fd ≤ 0) (c : ConnectCalls) :
    tryConnect fd c = if c.socket ≤ 0 then ⟨c.socket, .error, none⟩ else tryConnect c.socket c := by
  unfold tryConnect
  simp only [h, if_true]
  split <;> rfl

theorem triedConnects_of_pos (h : 0 < fd) :
    triedConnects fd cs = (cs.filter (·.inetPton)).map fun c => (fd, c.connect) := by
  induction cs with
  | nil => rfl
  | cons c cs ih =>
      obtain ⟨hfd, hconnect⟩ := tryConnect_of_pos h c
      rw [triedConnects, hfd, hconnect, ih]
      cases hpton : c.inetPton <;> simp [hpton]

/-- The calls from the first one on for which `socket` has a descriptor. -/
def withDescriptor (cs : List ConnectCalls) : List ConnectCalls := cs.dropWhile fun c => decide (c.socket ≤ 0)

/-- All connects are made on one descriptor. -/
theorem triedConnects_of_not_pos (h : fd ≤ 0) (cs : List ConnectCalls) : ∃ fd',
    triedConnects fd cs = ((withDescriptor cs).filter (·.inetPton)).map fun c => (fd', c.connect) := by
  induction cs generalizing fd with
  | nil => exact ⟨0, rfl⟩
  | cons c cs ih =>
      rw [triedConnects, tryConnect_of_not_pos h, withDescriptor, List.dropWhile_cons]
      by_cases hsocket : c.socket ≤ 0
      · simp only [hsocket, if_true, decide_true]
        exact ih hsocket
      · have hpos : 0 < c.socket := Int.not_le.mp hsocket
        simp only [hsocket, if_false, decide_false, Bool.false_eq_true]
        refine ⟨c.socket, ?_⟩
        rw [← triedConnects_of_pos hpos]
        rfl

theorem tryConnect_ok (h : (tryConnect fd c).connect = some (fd', .ok)) : (tryConnect fd c).ret = .ok := by
  unfold tryConnect at h ⊢
  generalize (if fd ≤ 0 then c.socket else fd) = used at h ⊢
  dsimp only at h ⊢
  by_cases hused : used ≤ 0
  · rw [if_pos hused] at h
    cases h
  · rw [if_neg hused] at h ⊢
    by_cases hpton : (!c.inetPton) = true
    · rw [if_pos hpton] at h
      cases h
    · rw [if_neg hpton] at h ⊢
      cases hconnect : c.connect with
      | ok => rfl
      | inProgress => simp [hconnect] at h
      | error => simp [hconnect] at h

/-- A connect that goes through is what its call returns. -/
theorem ok_mem_triedRets {e : Int × ConnectOutcome} (he : e ∈ triedConnects fd cs) (hok : e.2 = .ok) :
    .ok ∈ triedRets fd cs := by
  induction cs generalizing fd with
  | nil => exact absurd he List.not_mem_nil
  | cons c cs ih =>
      rw [triedRets, List.mem_cons]
      obtain he | he := List.mem_append.mp he
      · obtain ⟨fd', outcome⟩ := e
        cases hok
        exact .inl (tryConnect_ok (Option.mem_toList.mp he)).symm
      · exact .inr (ih he)

/-- Only the last connect goes through if only the last call returns `OK`. -/
theorem triedConnects_pairwise (h : (triedRets fd cs).Pairwise fun ret _ => ret ≠ .ok) :
    (triedConnects fd cs).Pairwise fun e _ => e.2 ≠ .ok := by
  induction cs generalizing fd with
  | nil => exact .nil
  | cons c cs ih =>
      obtain ⟨hhead, hrest⟩ := List.pairwise_cons.mp h
      refine List.pairwise_append.mpr ⟨?_, ih hrest, fun e he e' he' hok => ?_⟩
      · cases (tryConnect fd c).connect with
        | none => exact .nil
        | some e => exact List.pairwise_singleton _ e
      · obtain ⟨fd', outcome⟩ := e
        cases hok
        have hret := tryConnect_ok (Option.mem_toList.mp he)
        cases cs with
        | nil => exact absurd he' List.not_mem_nil
        | cons c' cs => exact hhead _ List.mem_cons_self hret

end Calls

/-! ## the attempts of a selection -/

/-- The rotation goes on after a failure only. -/
theorem retryAttempts_pairwise (now : BitVec 32) (conn : Nat → Ret) (servers : Servers) (domain k : Nat)
    (r : HttpRequest) (d : ServerArr) :
    (retryAttempts now conn servers domain k r d).Pairwise fun a _ => a.ret ≠ .ok := by
  induction k generalizing r d with
  | zero => exact .nil
  | succ k ih =>
      rw [retryAttempts]
      cases hsel : getServerByRoundOnce now d with
      | mk us d' =>
          cases us with
          | none => exact ih _ _
          | some i =>
              dsimp only
              split
              · exact List.pairwise_singleton _ _
              · exact List.pairwise_singleton _ _
              · next hok _ => exact List.pairwise_cons.mpr ⟨fun _ _ => hok, ih _ _⟩

theorem selectByRound_pairwise {o : Outside} {block : Option (Nat → BitVec 64)} {servers : Servers}
    {rings : Nat → Option Ring} {r : HttpRequest} {target : Option (List UInt8)} {sel : Selection}
    (h : selectByRound o block servers rings r target = .ok sel) :
    sel.attempts.Pairwise fun a _ => a.ret ≠ .ok := by
  obtain ⟨ret, r₁, servers₁, -, ⟨-, rfl⟩ | ⟨domain, -, r₂, acts, -, -, rfl⟩⟩ := selectByRound_cases h
  · exact .nil
  · exact retryAttempts_pairwise ..

/-- In both modes a selection ends with the first connect that goes through. -/
theorem tryConnectUpstream_pairwise {lb : LoadBalance} {o : Outside} {servers : Servers}
    {rings : Nat → Option Ring} {r : HttpRequest} {target : Option (List UInt8)} {sel : Selection}
    (h : tryConnectUpstream lb o servers rings r target = .ok sel) :
    sel.attempts.Pairwise fun a _ => a.ret ≠ .ok := by
  cases lb with
  | roundMode => exact selectByRound_pairwise h
  | consistentHash =>
      rw [tryConnectUpstream, getServerByConsistentHash] at h
      split at h
      · exact selectByRound_pairwise h
      · simp only [bind, Except.bind] at h
        split at h
        · contradiction
        · split at h
          · exact selectByRound_pairwise h
          · split at h
            · cases h
              exact List.pairwise_singleton _ _
            · next hret =>
              split at h
              · contradiction
              · next hround =>
                cases h
                exact List.pairwise_cons.mpr ⟨fun _ _ => hret, selectByRound_pairwise hround⟩

/-- The callback is waiting only if no connect went through. -/
theorem ret_ne_ok_of_handlerAfter {sel : Selection} (hfaithful : sel.Faithful)
    (h : handlerAfter sel.acts = .connectionResult) : .ok ∉ sel.attempts.map (·.ret) := by
  intro hmem
  obtain ⟨a, ha, hret⟩ := List.mem_map.mp hmem
  have hact : a.act ∈ sel.acts := by
    refine List.mem_of_mem_filter (p := Act.isTry) ?_
    rw [← hfaithful]
    exact List.mem_map_of_mem ha
  unfold handlerAfter at h
  split at h
  · cases h
  · next hnone => exact hnone (List.any_eq_true.mpr ⟨a.act, hact, by rw [Attempt.act, hret]⟩)

/-! ## every run -/

namespace Forwarding

/-- What every operation keeps. -/
structure Kept (st : Forwarding) : Prop where
  connects : st.connects = triedConnects 0 st.calls
  unopened : st.fd = none → st.calls = []
  fd : ∀ fd, st.fd = some fd → fd = triedFd 0 st.calls
  last : st.connects.Pairwise fun e _ => e.2 ≠ .ok
  pending : st.handler = .connectionResult → ∀ e ∈ st.connects, e.2 ≠ .ok

variable {lb : LoadBalance} {st st' : Forwarding} {fd : Int} {o : Outside} {servers : Servers} {r : HttpRequest}
  {target : Option (List UInt8)} {calls : List ConnectCalls}

theorem Kept.select (h : st.Kept) (hfd : fd = triedFd 0 st.calls) (hnone : ∀ e ∈ st.connects, e.2 ≠ .ok)
    (hsel : st.select lb fd o servers r target calls = some st') : st'.Kept := by
  obtain ⟨sel, hok, hrest⟩ := Option.bind_eq_some_iff.mp hsel
  have hrun : tryConnectUpstream lb o servers st.rings r target = .ok sel := by
    cases htry : tryConnectUpstream lb o servers st.rings r target with
    | error err => simp [htry, Except.toOption] at hok
    | ok v =>
        rw [htry] at hok
        exact congrArg Except.ok (Option.some.inj hok)
  split at hrest
  · next hrets =>
    cases hrest
    have hpairs : (triedRets fd calls).Pairwise fun ret _ => ret ≠ .ok := by
      rw [← hrets]
      exact List.pairwise_map.mpr (tryConnectUpstream_pairwise hrun)
    refine ⟨?_, fun hnone => (by cases hnone), fun fd' hfd' => ?_, ?_, fun hpending e he => ?_⟩
    · change st.connects ++ triedConnects fd calls = triedConnects 0 (st.calls ++ calls)
      rw [triedConnects_append, ← hfd, h.connects]
    · cases hfd'
      rw [triedFd_append, ← hfd]
    · exact List.pairwise_append.mpr ⟨h.last, triedConnects_pairwise hpairs, fun e he _ _ => hnone e he⟩
    · obtain he | he := List.mem_append.mp he
      · exact hnone e he
      · intro hokay
        have hnot := ret_ne_ok_of_handlerAfter (tryConnectUpstream_faithful hrun) hpending
        rw [hrets] at hnot
        exact hnot (ok_mem_triedRets he hokay)
  · cases hrest

theorem Kept.step (h : st.Kept) {op : ForwardOp} (hallows : st.Allows op) (hstep : st.step lb op = some st') :
    st'.Kept := by
  cases op with
  | forward o target calls =>
      have hcalls := h.unopened hallows
      have hconnects := h.connects
      rw [hcalls] at hconnects
      refine h.select ?_ ?_ hstep
      · rw [hcalls]
        rfl
      · rw [hconnects]
        exact fun e he => absurd he List.not_mem_nil
  | result res o calls =>
      have hnone := h.pending hallows
      obtain ⟨us, hus, hrest⟩ := Option.bind_eq_some_iff.mp hstep
      cases res with
      | timedout =>
          cases hrest
          exact ⟨h.connects, h.unopened, h.fd, h.last, h.pending⟩
      | noSockopt =>
          cases hrest
          exact ⟨h.connects, h.unopened, h.fd, h.last, h.pending⟩
      | soError err =>
          dsimp only at hrest
          split at hrest
          · cases hrest
            exact ⟨h.connects, h.unopened, h.fd, h.last, fun hpending => by cases hpending⟩
          · obtain ⟨fd, hfd, hsel⟩ := Option.bind_eq_some_iff.mp hrest
            exact h.select (h.fd fd hfd) hnone hsel
  | others servers rings =>
      cases hstep
      exact ⟨h.connects, h.unopened, h.fd, h.last, h.pending⟩

theorem kept_of_reaches (h : (machine lb).Reaches st) : st.Kept := by
  refine h.invariant (fun st hinit => ?_) fun st op st' hkept hallows hstep => hkept.step hallows hstep
  obtain ⟨hhandler, hfd, hcalls, hconnects⟩ := hinit
  refine ⟨by rw [hcalls, hconnects]; rfl, fun _ => hcalls, fun fd hsome => ?_, ?_, fun hpending => ?_⟩
  · rw [hfd] at hsome
    cases hsome
  · rw [hconnects]
    exact .nil
  · rw [hhandler] at hpending
    cases hpending

end Forwarding

/-- Every connect for a request is made on a descriptor on which none has failed or
is in progress, if and only if, once `socket` has had a descriptor, at most one
server is tried whose address `inet_pton` accepts. -/
theorem fresh_connects_iff {lb : LoadBalance} {st : Forwarding} (h : (Forwarding.machine lb).Reaches st) :
    Lawful FreshFd st.connects ↔ (withDescriptor st.calls).countP (·.inetPton) ≤ 1 := by
  have hkept := Forwarding.kept_of_reaches h
  obtain ⟨fd, hconnects⟩ := triedConnects_of_not_pos (Int.le_refl 0) st.calls
  rw [← hkept.connects] at hconnects
  have hlen : (withDescriptor st.calls).countP (·.inetPton) = st.connects.length := by
    rw [hconnects, List.length_map, List.countP_eq_length_filter]
  have hfd : ∀ e ∈ st.connects, e.1 = fd := by
    rw [hconnects]
    intro e he
    obtain ⟨c, -, rfl⟩ := List.mem_map.mp he
    rfl
  rw [hlen]
  constructor
  · intro hlaw
    -- the first of two connects would have gone through, and there would be no second one
    cases hlist : st.connects with
    | nil => exact Nat.zero_le 1
    | cons x rest =>
        cases rest with
        | nil => exact Nat.le_refl 1
        | cons y rest =>
            have hlast := hkept.last
            rw [hlist] at hlaw hlast hfd
            have hx : x.1 = fd := hfd x List.mem_cons_self
            have hy : y.1 = fd := hfd y (List.mem_cons_of_mem x List.mem_cons_self)
            have hok := hlaw [x] y rest rfl x (List.mem_singleton_self x) (hx.trans hy.symm)
            exact absurd hok ((List.pairwise_cons.mp hlast).1 y List.mem_cons_self)
  · intro hle before c after hsplit e he
    rw [hsplit, List.length_append, List.length_cons] at hle
    obtain rfl : before = [] := List.eq_nil_of_length_eq_zero (by omega)
    exact absurd he List.not_mem_nil

/-- Three fresh servers, and a request that is to be forwarded to them. -/
def threeServers : Forwarding where
  servers := equalServers 3
  rings := fun _ => none
  r := {}

/-- What selections take from outside where no ring is built: the connects of the
tries return `ret`. -/
def allReturn (ret : Ret) : Outside where
  now := 0
  conn := fun _ => ret
  ip := 0
  pCeil := fun _ _ => 0
  qsort := id
  block := none
  retryBlock := none
  cycle := none

theorem threeServers_reaches : (Forwarding.machine .roundMode).Reaches threeServers := .init ⟨rfl, rfl, rfl, rfl⟩

instance forwardingAllowsDecidable (lb : LoadBalance) (st : Forwarding) (op : ForwardOp) :
    Decidable ((Forwarding.machine lb).allows st op) :=
  match op with
  | .forward _ _ _ => inferInstanceAs (Decidable (st.fd = none))
  | .result _ _ _ => inferInstanceAs (Decidable (st.handler = .connectionResult))
  | .others _ _ => .isTrue trivial

/-- The address of the first server is refused by `inet_pton`, and the connect to
the second one is the only one. -/
theorem fresh_connects_refused : ∃ st, (Forwarding.machine .roundMode).Reaches st ∧
    (withDescriptor st.calls).length = 2 ∧ st.connects = [(7, .inProgress)] ∧
      (Lawful FreshFd st.connects ↔ (withDescriptor st.calls).countP (·.inetPton) ≤ 1) := by
  obtain ⟨st, hst, htest⟩ := threeServers_reaches.exists_of_runTest
    (fun st : Forwarding => (withDescriptor st.calls).length == 2 && st.connects == [(7, .inProgress)])
    [.forward { allReturn .error with conn := fun k => if k = 1 then .error else .again } [98]
      [⟨7, false, .error⟩, ⟨-1, true, .inProgress⟩], .result (.soError 0) (allReturn .error) []]
    (by decide +kernel)
  obtain ⟨hlen, hconnects⟩ := Bool.and_eq_true_iff.mp htest
  exact ⟨st, hst, beq_iff_eq.mp hlen, beq_iff_eq.mp hconnects, fresh_connects_iff hst⟩

/-- The connect to the first server fails, and the second one is tried on the same
descriptor. -/
theorem stale_connect : ¬∀ lb st, (Forwarding.machine lb).Reaches st → Lawful FreshFd st.connects := by
  intro hall
  obtain ⟨st, hst, htest⟩ := threeServers_reaches.exists_of_runTest
    (fun st => st.connects == [(7, .error), (7, .error)])
    [.forward (allReturn .error) [98] [⟨7, true, .error⟩, ⟨-1, true, .error⟩]] (by decide +kernel)
  rw [beq_iff_eq] at htest
  have hlaw := hall .roundMode st hst [(7, .error)] (7, .error) [] htest
  exact absurd (hlaw (7, .error) (List.mem_singleton_self _) rfl) (by decide)

end PWebServer
