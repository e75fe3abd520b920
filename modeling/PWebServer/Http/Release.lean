import PWebServer.Http.Handlers

/-!
# Http.Release

The servers that the requests of a connection select, and their release.

A server that is tried and refuses is released by the selection itself, and the
one that is kept by the end of the request.  `http_close_request` does so.
`http_clear_request` is meant to, but `memzero` has overwritten `cur_upstream`
by then, so the law of releases holds in the runs in which no request with a
server is recycled (`released_of_regular`).
-/

namespace PWebServer

open Function

/-! ## the law -/

/-- What a deed is to the balancer. -/
def Deed.act : Deed → Option Act
  | .balancer a => some a
  | _ => none

/-- What the balancer has done in a log. -/
def balancerActs (log : List Deed) : List Act := log.filterMap Deed.act

/-- The server that the request of an exchange holds, until the request ends. -/
def Exchange.held (s : Exchange) : List ServerId := if s.closed then [] else s.r.curUpstream.toList

/-- The law of releases: each server that was ever tried for a request has been
released, once and in order, but the one that the present request holds.  A
request that has ended holds none. -/
def Released (s : Exchange) : Prop :=
  triedServers (balancerActs s.log) = freedServers (balancerActs s.log) ++ s.held

instance (s : Exchange) : Decidable (Released s) := inferInstanceAs (Decidable (_ = _))

/-- The turn completes the response to a request that has a server and whose
connection is kept. -/
def Exchange.RecyclesServer (s : Exchange) (t : Turn) : Prop :=
  ∃ h s₁, s.Runs t h s₁ ∧ s₁.Completes t.calls h ∧ s₁.r.keepAlive = true ∧ s₁.r.curUpstream ≠ none

/-! ## what the moves do to it -/

@[simp] theorem balancerActs_append (xs ys : List Deed) :
    balancerActs (xs ++ ys) = balancerActs xs ++ balancerActs ys := List.filterMap_append

@[simp] theorem balancerActs_map (acts : List Act) : balancerActs (acts.map .balancer) = acts := by
  unfold balancerActs
  rw [List.filterMap_map]
  exact List.filterMap_some

@[simp] theorem balancerActs_cons (d : Deed) (log : List Deed) :
    balancerActs (d :: log) = d.act.toList ++ balancerActs log := by
  cases h : d.act <;> simp [balancerActs, h]

@[simp] theorem balancerActs_nil : balancerActs [] = [] := rfl

/-- What comes before an error page neither tries nor releases a server. -/
theorem balancerActs_err {ds : List Deed}
    (h : ∀ d ∈ ds, d = .balancer (.constructErr 502) ∨ ∃ us, d = .balancer (.connectTimedout us)) :
    triedServers (balancerActs ds) = [] ∧ freedServers (balancerActs ds) = [] := by
  induction ds with
  | nil => exact ⟨rfl, rfl⟩
  | cons d ds ih =>
      obtain ⟨htried, hfreed⟩ := ih fun d' hd' => h d' (List.mem_cons_of_mem d hd')
      rw [balancerActs_cons, triedServers_append, freedServers_append, htried, hfreed]
      cases h d List.mem_cons_self with
      | inl hpage =>
          rw [hpage]
          exact ⟨rfl, rfl⟩
      | inr htimedout =>
          obtain ⟨us, hus⟩ := htimedout
          rw [hus]
          exact ⟨rfl, rfl⟩

theorem released_iff {s : Exchange} (hopen : s.closed = false) :
    Released s ↔
      triedServers (balancerActs s.log) = freedServers (balancerActs s.log) ++ s.r.curUpstream.toList := by
  rw [Released, Exchange.held, if_neg (by simp [hopen])]

/-- Deeds that neither try nor release keep the law. -/
theorem Released.tell {s s' : Exchange} (hs : Released s) (ds : List Deed) (hlog : s'.log = s.log ++ ds)
    (htried : triedServers (balancerActs ds) = []) (hfreed : freedServers (balancerActs ds) = [])
    (hheld : s'.held = s.held) : Released s' := by
  rw [Released, hlog, balancerActs_append, triedServers_append, freedServers_append, htried, hfreed,
    List.append_nil, List.append_nil, hheld]
  exact hs

theorem held_congr {s s' : Exchange} (hclosed : s'.closed = s.closed)
    (hcur : s'.r.curUpstream = s.r.curUpstream) : s'.held = s.held := by
  rw [Exchange.held, Exchange.held, hclosed, hcur]

/-- The release at the end of a request. -/
theorem triedServers_close (now : BitVec 32) (servers : Servers) (r : HttpRequest) :
    triedServers (httpCloseRequest now servers r).2 = [] := by
  unfold httpCloseRequest
  cases r.curUpstream with
  | none => rfl
  | some us => rfl

theorem freedServers_close (now : BitVec 32) (servers : Servers) (r : HttpRequest) :
    freedServers (httpCloseRequest now servers r).2 = r.curUpstream.toList := by
  unfold httpCloseRequest
  cases r.curUpstream with
  | none => rfl
  | some us => rfl

theorem Released.close {s : Exchange} (hs : Released s) (hopen : s.closed = false) (calls : Calls) :
    Released (s.httpCloseRequest calls) := by
  have hlaw := (released_iff hopen).mp hs
  rw [httpCloseRequest_eq, Released]
  simp only [balancerActs_append, balancerActs_cons, balancerActs_map, triedServers_append,
    freedServers_append, triedServers_close, freedServers_close, hlaw]
  simp [Deed.act, Exchange.held, triedServers, freedServers]

/-- A request that has no server may be recycled. -/
theorem Released.keptAlive {s : Exchange} (hs : Released s) (hcur : s.r.curUpstream = none) (cfg : Config) (calls : Calls) :
    Released (keptAlive cfg calls s) := by
  rw [PWebServer.keptAlive, httpClearRequest_eq]
  refine hs.tell [.discard s.places, .clearRequest s.r.curUpstream] rfl rfl rfl ?_
  exact held_congr rfl hcur.symm

/-- A connect that has failed, the release after it, and a selection. -/
theorem triedServers_failed (us : ServerId) (acts : List Act) :
    triedServers (.connectFailed us :: .free us :: acts) = triedServers acts := rfl

theorem freedServers_failed (us : ServerId) (acts : List Act) :
    freedServers (.connectFailed us :: .free us :: acts) = us :: freedServers acts := rfl

/-- Every move keeps the law, unless it recycles a request that has a server. -/
theorem Released.move {cfg : Config} {l : Label} {s s' : Exchange} (hs : Released s) (hopen : s.closed = false)
    (hhandled : Handled s) (hl : ∀ us, l ≠ .done true (some us)) (hmove : Move cfg l s s') : Released s' := by
  have hlaw := (released_iff hopen).mp hs
  cases hmove with
  | mark | recv | state | timeRev | lineBegins | await | attached | upstreamEof | timeWev | delWev | toFile =>
      exact hs
  | ran | headersRead | rewind | pass | relay | send | sendFile =>
      exact hs.tell [_] rfl rfl rfl (held_congr rfl rfl)
  | passAll => exact hs.tell [_, _] (List.append_assoc _ _ _) rfl rfl (held_congr rfl rfl)
  | parse hrev hbuf hup hdone hcur =>
      exact hs.tell [] (List.append_nil _).symm rfl rfl (held_congr rfl hcur)
  | uriDone =>
      refine hs.tell [] (List.append_nil _).symm rfl rfl (held_congr rfl ?_)
      unfold Exchange.uriDone
      dsimp only
      split <;> rfl
  | openFile hrev hdone hr =>
      refine hs.tell [] (List.append_nil _).symm rfl rfl (held_congr rfl ?_)
      dsimp only
      rw [hr]
      rfl
  | forward hrev hdone hr hbuf hsel =>
      have hnone : s.r.curUpstream = none := (hhandled.start (.inr hrev)).1
      rw [hnone] at hlaw
      rw [released_iff (by exact hopen)]
      simp only [balancerActs_append, balancerActs_cons, balancerActs_map, triedServers_append,
        freedServers_append, hlaw, hsel.kept]
      simp [Deed.act, triedServers, freedServers]
  | reconnect hfd hcur hsel hupRev hupWev =>
      rw [hcur] at hlaw
      rw [released_iff (by exact hopen)]
      simp only [balancerActs_append, balancerActs_map, triedServers_append, freedServers_append, hlaw,
        triedServers_failed, freedServers_failed, hsel.kept]
      simp
  | err c r b m up ds status hc hline hcur hup hds h =>
      obtain ⟨htried, hfreed⟩ := balancerActs_err hds
      have hans := constructErr_answered h
      have hlog : s'.log = s.log ++ (ds ++ [.constructErr status s'.sendBuffer.pending]) := by
        rw [constructErr_log h, List.append_assoc]
      have hcur' : s'.r.curUpstream = s.r.curUpstream := by
        rw [hans.request]
        exact hcur
      refine hs.tell _ hlog ?_ ?_ (held_congr hans.closed hcur')
      · rw [balancerActs_append, triedServers_append, htried]
        rfl
      · rw [balancerActs_append, freedServers_append, hfreed]
        rfl
  | respond hrev hreads hup hdone h =>
      obtain ⟨page, -, hs'⟩ := constructResponse_eq h
      rw [hs']
      exact hs.tell [_] rfl rfl rfl (held_congr rfl rfl)
  | done calls hwrites hdone h =>
      have htell : Released ({ s with r := { s.r with responseDone := true } }.tell .responseDone) :=
        hs.tell [.responseDone] rfl rfl rfl (held_congr rfl rfl)
      cases httpResponseDone_cases h with
      | inl hkept =>
          have hnone : s.r.curUpstream = none := by
            cases hcur : s.r.curUpstream with
            | none => rfl
            | some us => exact absurd (congrArg₂ Label.done hkept.1 hcur) (hl us)
          rw [hkept.2]
          exact htell.keptAlive hnone cfg calls
      | inr hclosed =>
          rw [hclosed.2]
          exact htell.close hopen calls
  | close calls => exact hs.close hopen calls
  | drop hrev =>
      -- a connection without a request holds no server
      have hnone : s.r.curUpstream = none := (hhandled.start (.inl hrev)).1
      rw [hnone] at hlaw
      exact hlaw

/-! ## runs -/

/-- **The release of servers**: in a run from an accepted connection in which no
request with a server is recycled, every server that was tried has been released
exactly once when its request has ended, and not before. -/
theorem released_of_regular {cfg : Config} {ts : List Turn} {now : BitVec 32} {slot : Slot} {fd : Int}
    {ip : BitVec 32} {s' : Exchange}
    (halways : Exchange.Always cfg (fun s t => ¬ s.RecyclesServer t) ts (.accepted cfg now slot fd ip))
    (hrun : Exchange.run cfg ts (.accepted cfg now slot fd ip) = .ok s') : Released s' := by
  refine (run_induct (I := Released) ?_ halways (inOrder_accepted cfg now slot fd ip) rfl hrun).2
  intro s t l s₁ s₂ hregular _ hopen horder hallows hmove hs₁
  refine hs₁.move hopen horder.handled (fun us hl => hregular ?_) hmove
  rw [hl] at hallows
  obtain ⟨h, s₃, hruns, hcompletes, hkeep, hus⟩ := hallows
  exact ⟨h, s₃, hruns, hcompletes, hkeep.symm, by simp [← hus]⟩

/-- A request for `/b`, to which the back end answers with nothing. -/
def emptyAnswer (minor : Char) : List Turn :=
  [⟨.poll, oneServer⟩, ⟨.ready .rev, { oneServer with recvLine := .bytes (getB minor) }⟩,
    ⟨.poll, oneServer⟩, ⟨.ready .upRev, { oneServer with recvUpstream := .eof }⟩,
    ⟨.poll, oneServer⟩, ⟨.ready .wev, oneServer⟩]

/-- The connection of a request in HTTP/1.0 is closed, and the server released. -/
theorem released_closed :
    ∃ s', Exchange.run forwardsB (emptyAnswer '0') (.accepted forwardsB 0 0 5 0) = .ok s' ∧
      s'.closed = true ∧ triedServers (balancerActs s'.log) = [(0, 0)] ∧ Released s' := by
  have htest : Exchange.runTest forwardsB
      (fun s' => s'.closed && decide (triedServers (balancerActs s'.log) = [(0, 0)])) (emptyAnswer '0')
      (.accepted forwardsB 0 0 5 0) = true := by decide +kernel
  obtain ⟨s', hrun, hs'⟩ := Exchange.exists_of_runTest htest
  rw [Bool.and_eq_true, decide_eq_true_iff] at hs'
  refine ⟨s', hrun, hs'.1, hs'.2, released_of_regular ?_ hrun⟩
  refine Exchange.always_of_alwaysTest (p := fun s _ => !s.r.keepAlive) ?_ (by decide +kernel)
  intro s t hkeep hrecycles
  obtain ⟨h, s₁, hruns, -, hkeep₁, -⟩ := hrecycles
  rw [hruns.request] at hkeep₁
  rw [hkeep₁] at hkeep
  contradiction

/-- The connection of a request in HTTP/1.1 is kept, and the server is not
released. -/
theorem released_recycled :
    ∃ s', Exchange.run forwardsB (emptyAnswer '1') (.accepted forwardsB 0 0 5 0) = .ok s' ∧ ¬ Released s' := by
  have htest : Exchange.runTest forwardsB (fun s' => decide ¬ Released s') (emptyAnswer '1')
      (.accepted forwardsB 0 0 5 0) = true := by decide +kernel
  obtain ⟨s', hrun, hs'⟩ := Exchange.exists_of_runTest htest
  exact ⟨s', hrun, decide_eq_true_iff.mp hs'⟩

end PWebServer
