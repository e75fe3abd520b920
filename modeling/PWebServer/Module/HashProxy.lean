import PWebServer.Lib.Machine
import PWebServer.Module.RingState

/-!
# Module.HashProxy

Any number of proxied requests over one set of servers, in hash mode.

The ring of a domain is built again when `init_state` says so, in the memory it
was built in at first: that of the request which the domain was asked for first.
-/

namespace PWebServer

open Function

/-- The configured domains, and what the C library makes of `ceil` and `qsort`. -/
structure HashConfig where
  domains : Nat
  name : Nat → List UInt8
  nelts : Nat → Nat
  loc : Nat → Nat → Location
  pCeil : Int → Int → Int
  qsort : List Vnode → List Vnode

/-- The worker, as far as the balancer sees it.  The requests are numbered as
they are created.  The last three fields are no part of the program: the request
from whose pool the ring of a domain is, the requests that were forwarded with
their domains, and the requests that were closed. -/
structure HashProxy where
  now : BitVec 32
  servers : Servers
  rings : Nat → Option Ring := fun _ => none
  reqs : Nat → Option Proxied := fun _ => none
  created : Nat := 0
  pools : Nat → Option Nat := fun _ => none
  forwarded : List (Nat × Nat) := []
  closed : List Nat := []

/-- What happens to one of the requests, or to the clock. -/
inductive HashEvent where
  | clock (now : BitVec 32)
  /-- `http_init_request` creates a request -/
  | init
  /-- `request_process_uri` forwards request `i` -/
  | forward (i : Nat) (upstream : Slot) (target : List UInt8) (o : Outside)
  /-- the handler of a pending connect runs -/
  | result (i : Nat) (res : ConnectionResult) (o : Outside)
  /-- anything else that is done for request `i` -/
  | other (i : Nat) (p : Proxied)
  /-- `http_close_request` -/
  | close (i : Nat)
  /-- `http_clear_request` -/
  | clear (i : Nat)

/-- The request that an event is about. -/
def HashEvent.request : HashEvent → Option Nat
  | .clock _ | .init => none
  | .forward i _ _ _ | .result i _ _ | .other i _ | .close i | .clear i => some i

/-- `process_connection_result_of_upstream`, in hash mode. -/
def hashConnectionResult (o : Outside) (res : ConnectionResult) (servers : Servers)
    (rings : Nat → Option Ring) (p : Proxied) : Except Fault (Proxied × Servers × (Nat → Option Ring)) := do
  let us ← deref p.r.curUpstream
  match res with
  | .timedout => pure ({ p with r := p.r.constructErr 504 }, servers, rings)
  | .noSockopt => pure ({ p with r := p.r.constructErr 502 }, servers, rings)
  | .soError err =>
      if err = 0 then pure (⟨{ p.r with curUpstream := some us }, .proxyPass⟩, servers, rings)
      else do
        let sel ← tryConnectUpstream .consistentHash o
          (servers.set us (failServer o.now (servers.get us))) rings { p.r with curUpstream := none } none
        pure (⟨sel.r, handlerAfter sel.acts⟩, sel.servers, sel.rings)

namespace HashProxy

variable (cfg : HashConfig) (s : HashProxy)

/-- The process as it is started, on memory that holds anything. -/
def start (now : BitVec 32) (garbage : Nat → ServerArr) : HashProxy where
  now := now
  servers :=
    { nelts := cfg.domains
      serverIpArr := fun domain =>
        upstreamProcessInit .consistentHash (cfg.name domain) (cfg.nelts domain) (cfg.loc domain)
          (garbage domain) }

/-- What a selection takes from outside, by the clock and the library of the
process. -/
def outside (o : Outside) : Outside := { o with now := s.now, pCeil := cfg.pCeil, qsort := cfg.qsort }

/-- The pools of the rings, once a selection for request `i` has left these. -/
def poolsAfter (i : Nat) (rings : Nat → Option Ring) : Nat → Option Nat := fun domain =>
  if (s.rings domain).isNone && (rings domain).isSome then some i else s.pools domain

/-- A request is forwarded when its line has been read, with nothing of the
balancer in it yet; what else is done for a request leaves the balancer's fields
alone. -/
def Allows : HashEvent → Prop
  | .clock _ | .init => True
  | .forward i _ _ _ => ∃ p ∈ s.reqs i, p.r.upstream = none ∧ p.r.curServerDomain = none ∧ p.r.upstreamTries = 0
  | .result i _ _ => ∃ p ∈ s.reqs i, p.handler = .connectionResult
  | .other i p' => ∃ p ∈ s.reqs i, p'.r.curUpstream = p.r.curUpstream ∧
      p'.r.curServerDomain = p.r.curServerDomain ∧ p'.r.upstreamTries = p.r.upstreamTries ∧
      (p'.handler = p.handler ∨ p'.handler = .null)
  | .close i | .clear i => s.reqs i ≠ none

/-- One event. -/
def step : HashEvent → Except Fault HashProxy
  | .clock now => pure { s with now := now }
  | .init =>
      pure { s with
        reqs := update s.reqs s.created (some { r := createHttpRequest })
        created := s.created + 1 }
  | .forward i upstream target o => do
      let p ← deref (s.reqs i)
      let sel ← tryConnectUpstream .consistentHash (s.outside cfg o) s.servers s.rings
        { p.r with upstream := some upstream } (some target)
      pure { s with
        servers := sel.servers
        rings := sel.rings
        reqs := update s.reqs i (some ⟨sel.r, handlerAfter sel.acts⟩)
        pools := s.poolsAfter i sel.rings
        forwarded := s.forwarded ++ [(i, findDomain s.servers target)] }
  | .result i res o => do
      let p ← deref (s.reqs i)
      let (p', servers, rings) ← hashConnectionResult (s.outside cfg o) res s.servers s.rings p
      pure { s with servers := servers, rings := rings, reqs := update s.reqs i (some p') }
  | .other i p => pure { s with reqs := update s.reqs i (some p) }
  | .close i => do
      let p ← deref (s.reqs i)
      pure { s with
        servers := (httpCloseRequest s.now s.servers p.r).1
        reqs := update s.reqs i none
        closed := s.closed ++ [i] }
  | .clear i => do
      let p ← deref (s.reqs i)
      pure { s with
        servers := (httpClearRequest s.now s.servers p.r).2.1
        reqs := update s.reqs i (some { r := (httpClearRequest s.now s.servers p.r).1 }) }

/-- The runs of the process. -/
def machine : Machine HashProxy HashEvent where
  init s := ∃ now garbage, s = start cfg now garbage
  allows := Allows
  step s e := (s.step cfg e).toOption

/-! ## lookups -/

/-- What an event hands to `try_connect_upstream`: the request, the servers and
the name of the domain. -/
def selects : HashEvent → Option (Outside × HttpRequest × Servers × Option (List UInt8))
  | .forward i upstream target o => do
      let p ← s.reqs i
      pure (s.outside cfg o, { p.r with upstream := some upstream }, s.servers, some target)
  | .result i (.soError err) o => do
      let p ← s.reqs i
      let us ← p.r.curUpstream
      if err = 0 then none
      else pure (s.outside cfg o, { p.r with curUpstream := none },
        s.servers.set us (failServer s.now (s.servers.get us)), none)
  | _ => none

/-- An event calls `get_server_by_consistent_hash_once` for this domain, with
these servers and rings. -/
def Looks (e : HashEvent) (domain : Nat) (servers : Servers) (rings : Nat → Option Ring) : Prop :=
  ∃ o r servers₀ target r', s.selects cfg e = some (o, r, servers₀, target) ∧ r.upstreamTries = 0 ∧
    initBeforeConsistentHashGet o servers₀ s.rings { r with upstreamTries := 1 } target =
      .ok (r', servers, rings) ∧ r'.curServerDomain = some domain

/-- The servers that own an entry of the ring of the domain are those that are
up. -/
def OwnersUp (domain : Nat) (servers : Servers) (rings : Nat → Option Ring) : Prop :=
  ∃ ring, rings domain = some ring ∧ ∀ i, i ∈ ring.owners ↔ i ∈ runningServers s.now (servers.serverIpArr domain)

/-- What an event is not to do to the servers of a ring that is valid: let one
become spent, or no longer be, by a failure that the callback of a connect
reports, by one of those that the rotation after it goes through, or by the
release at the end of a request. -/
def Calm : HashEvent → Prop
  | .forward _ _ target o => ¬ Overlooks (s.outside cfg o) s.servers target
  | .result i (.soError err) o => err ≠ 0 → ∀ p ∈ s.reqs i, ∀ us ∈ p.r.curUpstream,
      s.servers.Steady us (failServer s.now (s.servers.get us)) ∧
        ∀ sel ∈ (tryConnectUpstream .consistentHash (s.outside cfg o)
            (s.servers.set us (failServer s.now (s.servers.get us))) s.rings
            { p.r with curUpstream := none } none).toOption, ∀ a ∈ sel.attempts, a.Steady s.now
  | .close i => ∀ p ∈ s.reqs i, ∀ us ∈ p.r.curUpstream,
      s.servers.Steady us (freeServerAfterRoundSelect s.now (s.servers.get us))
  | _ => True

/-- The request that was forwarded to a domain first. -/
def first (domain : Nat) : Option Nat := (s.forwarded.find? fun f => f.2 = domain).map (·.1)

end HashProxy

section

variable {o : Outside} {block : Option (Nat → BitVec 64)} {servers servers' : Servers}
  {rings rings' : Nat → Option Ring} {r r' : HttpRequest} {target : Option (List UInt8)} {sel : Selection}

/-! ## what a selection leaves -/

theorem retryLoop_tries (now : BitVec 32) (conn : Nat → Ret) (domain k : Nat) (r : HttpRequest) (d : ServerArr) :
    r.upstreamTries ≤ (retryLoop now conn domain k r d).r.upstreamTries := by
  induction k generalizing r d with
  | zero => exact Nat.le_refl _
  | succ k ih =>
      rw [retryLoop]
      cases hsel : getServerByRoundOnce now d with
      | mk us d' =>
          have hrest : ∀ d, r.upstreamTries ≤
              (retryLoop now conn domain k { r with upstreamTries := r.upstreamTries + 1 } d).r.upstreamTries :=
            fun d => Nat.le_trans (Nat.le_succ _) (ih { r with upstreamTries := r.upstreamTries + 1 } d)
          cases us with
          | none => exact hrest d'
          | some i =>
              cases hret : conn (r.upstreamTries + 1) with
              | ok =>
                  simp only [hret]
                  exact Nat.le_succ _
              | again =>
                  simp only [hret]
                  exact Nat.le_succ _
              | error =>
                  simp only [hret]
                  exact hrest _
              | invalidRequest =>
                  simp only [hret]
                  exact hrest _

theorem selectByRound_tries (h : selectByRound o block servers rings r target = .ok sel) :
    r.upstreamTries ≤ sel.r.upstreamTries ∧ sel.rings = rings := by
  unfold selectByRound at h
  obtain ⟨⟨r₁, servers₁, acts⟩, hround, h⟩ := bind_ok h
  cases h
  refine ⟨?_, rfl⟩
  unfold getServerByRound at hround
  obtain ⟨⟨ret, r₂, servers₂⟩, hinit, hround⟩ := bind_ok hround
  have hsame := (initBeforeRound_request hinit).1
  dsimp only at hround
  split at hround
  · cases hround
    exact Nat.le_of_eq hsame.symm
  · obtain ⟨domain, -, hround⟩ := bind_ok hround
    have hloop := retryLoop_tries o.now o.conn domain
      ((servers₂.serverIpArr domain).nelts - r₂.upstreamTries) r₂ (servers₂.serverIpArr domain)
    rw [← hsame]
    split at hround
    · cases hround
      exact hloop
    · split at hround
      · cases hround
        exact hloop
      · cases hround
        exact hloop

/-- The rings that a lookup leaves are those it has found, but for that of the
domain. -/
theorem initBeforeConsistentHashGet_rings {name : List UInt8} (hcur : r.curServerDomain = none)
    (h : initBeforeConsistentHashGet o servers rings r (some name) = .ok (r', servers', rings')) :
    r'.curServerDomain = some (findDomain servers name) ∧
      ∀ domain, domain ≠ findDomain servers name → rings' domain = rings domain := by
  unfold initBeforeConsistentHashGet at h
  obtain ⟨⟨ret, r₁, servers₁⟩, hinit, h⟩ := bind_ok h
  obtain ⟨domain, hdomain, h⟩ := bind_ok h
  obtain ⟨domain', hfirst, -, -⟩ := initBeforeRound_cases hinit
  obtain ⟨hdomain', name', hname, hfind⟩ := hfirst hcur
  cases hname
  dsimp only at hdomain h
  obtain rfl : domain = domain' := Option.some.inj ((deref_ok hdomain).symm.trans hdomain')
  split at h
  · cases h
    exact ⟨hfind ▸ hdomain', fun _ _ => rfl⟩
  · obtain ⟨old, -, h⟩ := bind_ok h
    cases h
    exact ⟨hfind ▸ hdomain', fun other hother => update_of_ne (hfind ▸ hother) _ _⟩

/-- A selection in hash mode, by whether the ring is asked. -/
theorem tryConnectUpstream_tries (h : tryConnectUpstream .consistentHash o servers rings r target = .ok sel) :
    0 < sel.r.upstreamTries ∧ (0 < r.upstreamTries → sel.rings = rings) ∧
      (r.upstreamTries = 0 → ∃ r' servers' domain i,
        hashLookup o servers rings { r with upstreamTries := 1 } target =
          .ok (r', servers', sel.rings, domain, i)) := by
  unfold tryConnectUpstream getServerByConsistentHash at h
  dsimp only at h
  by_cases htries : 0 < r.upstreamTries
  · rw [if_pos htries] at h
    obtain ⟨hle, hrings⟩ := selectByRound_tries h
    exact ⟨Nat.lt_of_lt_of_le htries hle, fun _ => hrings, fun hzero => by omega⟩
  · have hzero : r.upstreamTries = 0 := by omega
    rw [if_neg htries, hzero] at h
    obtain ⟨⟨r₁, servers₁, rings₁, domain, us⟩, hlookup, h⟩ := bind_ok h
    have hone : r₁.upstreamTries = 1 := (hashLookup_initDone hlookup).1
    have hsel : 0 < sel.r.upstreamTries ∧ sel.rings = rings₁ := by
      cases us with
      | none =>
          obtain ⟨hle, hrings⟩ := selectByRound_tries h
          exact ⟨Nat.lt_of_lt_of_le Nat.zero_lt_one (hone ▸ hle), hrings⟩
      | some i =>
          dsimp only at h
          split at h
          · cases h
            exact ⟨by rw [hone]; exact Nat.zero_lt_one, rfl⟩
          · obtain ⟨sel₁, hround, h⟩ := bind_ok h
            obtain ⟨hle, hrings⟩ := selectByRound_tries hround
            cases h
            exact ⟨Nat.lt_of_lt_of_le Nat.zero_lt_one (hone ▸ hle), hrings⟩
    exact ⟨hsel.1, fun hpos => absurd hpos htries, fun _ => ⟨r₁, servers₁, domain, us, hsel.2 ▸ hlookup⟩⟩

/-- The ring that a lookup has read is there. -/
theorem hashLookup_ring {domain : Nat} {i : Option Nat}
    (h : hashLookup o servers rings r target = .ok (r', servers', rings', domain, i)) : rings' domain ≠ none := by
  obtain ⟨-, -, honce⟩ := hashLookup_cases h
  intro hnone
  rw [hnone] at honce
  contradiction

end

namespace HashProxy

section

variable {cfg : HashConfig} {s s' : HashProxy} {e : HashEvent} {domain : Nat} {servers : Servers}
  {rings : Nat → Option Ring}

/-! ## runs -/

/-- What every event keeps. -/
structure Kept (s : HashProxy) : Prop where
  pending : ∀ i, ∀ p ∈ s.reqs i, p.handler = .connectionResult → 0 < p.r.upstreamTries
  pools : ∀ domain, s.pools domain = s.first domain
  rings : ∀ domain, s.rings domain = none ↔ s.first domain = none
  forwarded : ∀ f ∈ s.forwarded, f.1 < s.created
  closed : ∀ i ∈ s.closed, i < s.created
  reqs : ∀ i, s.reqs i = none ↔ s.created ≤ i ∨ i ∈ s.closed

/-- A request is replaced. -/
theorem Kept.setRequest (h : s.Kept) {i : Nat} {p' : Proxied} (hi : s.reqs i ≠ none)
    (hpending : p'.handler = .connectionResult → 0 < p'.r.upstreamTries) :
    (∀ j, ∀ p ∈ update s.reqs i (some p') j, p.handler = .connectionResult → 0 < p.r.upstreamTries) ∧
      ∀ j, update s.reqs i (some p') j = none ↔ s.created ≤ j ∨ j ∈ s.closed := by
  refine ⟨fun j p hp => ?_, fun j => ?_⟩
  · by_cases hj : j = i
    · subst hj
      rw [update_self] at hp
      cases hp
      exact hpending
    · rw [update_of_ne hj] at hp
      exact h.pending j p hp
  · by_cases hj : j = i
    · subst hj
      rw [update_self, ← h.reqs j]
      simp [hi]
    · rw [update_of_ne hj]
      exact h.reqs j

/-- A request is forwarded. -/
theorem first_append (s : HashProxy) (f : Nat × Nat) (domain : Nat) :
    { s with forwarded := s.forwarded ++ [f] }.first domain =
      if s.first domain = none ∧ f.2 = domain then some f.1 else s.first domain := by
  unfold first
  dsimp only
  rw [List.find?_append]
  cases hfind : s.forwarded.find? fun f => f.2 = domain with
  | some f' => simp
  | none =>
      by_cases hf : f.2 = domain
      · simp [hf]
      · simp [hf]

/-- A request that is open. -/
theorem Kept.lt (h : s.Kept) {i : Nat} (hi : s.reqs i ≠ none) : i < s.created ∧ i ∉ s.closed := by
  constructor
  · by_contra hle
    exact hi ((h.reqs i).mpr (.inl (not_lt.mp hle)))
  · intro hmem
    exact hi ((h.reqs i).mpr (.inr hmem))

theorem Kept.init (h : s.Kept) :
    Kept { s with
      reqs := update s.reqs s.created (some { r := createHttpRequest })
      created := s.created + 1 } := by
  refine ⟨fun i p hp hhandler => ?_, h.pools, h.rings, fun f hf => Nat.lt_succ_of_lt (h.forwarded f hf),
    fun i hi => Nat.lt_succ_of_lt (h.closed i hi), fun i => ?_⟩
  · dsimp only at hp
    by_cases hi : i = s.created
    · subst hi
      rw [update_self] at hp
      cases hp
      contradiction
    · rw [update_of_ne hi] at hp
      exact h.pending i p hp hhandler
  · dsimp only
    by_cases hi : i = s.created
    · subst hi
      rw [update_self]
      have hnot : s.created ∉ s.closed := fun hmem => absurd (h.closed _ hmem) (Nat.lt_irrefl _)
      simp [hnot]
    · rw [update_of_ne hi, h.reqs i]
      refine or_congr_left ?_
      omega

theorem hashConnectionResult_kept {o : Outside} {res : ConnectionResult} {servers₀ servers : Servers}
    {rings₀ rings : Nat → Option Ring} {p p' : Proxied} (htries : 0 < p.r.upstreamTries)
    (h : hashConnectionResult o res servers₀ rings₀ p = .ok (p', servers, rings)) :
    0 < p'.r.upstreamTries ∧ rings = rings₀ := by
  unfold hashConnectionResult at h
  obtain ⟨us, -, h⟩ := bind_ok h
  cases res with
  | timedout =>
      cases h
      exact ⟨htries, rfl⟩
  | noSockopt =>
      cases h
      exact ⟨htries, rfl⟩
  | soError err =>
      dsimp only at h
      split at h
      · cases h
        exact ⟨htries, rfl⟩
      · obtain ⟨sel, hsel, h⟩ := bind_ok h
        cases h
        obtain ⟨hpos, hrings, -⟩ := tryConnectUpstream_tries hsel
        exact ⟨hpos, hrings htries⟩

/-- A forwarded request finds the ring of its domain there, and has touched no
other. -/
theorem forward_rings {p : Proxied} {upstream : Slot} {target : List UInt8} {o : Outside}
    {sel : Selection} (hcur : p.r.curServerDomain = none) (htries : p.r.upstreamTries = 0)
    (h : tryConnectUpstream .consistentHash o servers s.rings { p.r with upstream := some upstream }
      (some target) = .ok sel) :
    sel.rings (findDomain servers target) ≠ none ∧
      ∀ domain, domain ≠ findDomain servers target → sel.rings domain = s.rings domain := by
  obtain ⟨-, -, hlooks⟩ := tryConnectUpstream_tries h
  obtain ⟨r', servers', domain, us, hlookup⟩ := hlooks htries
  have hring := hashLookup_ring hlookup
  obtain ⟨hinit, hdomain, -⟩ := hashLookup_cases hlookup
  obtain ⟨hfind, hother⟩ := initBeforeConsistentHashGet_rings
    (r := { p.r with upstream := some upstream, upstreamTries := 1 }) hcur hinit
  rw [hfind] at hdomain
  cases hdomain
  exact ⟨hring, hother⟩

theorem Kept.forward (h : s.Kept) {i : Nat} {p' : Proxied} {target : Nat} (hp : s.reqs i ≠ none)
    (hpending : 0 < p'.r.upstreamTries) (hring : rings target ≠ none)
    (hother : ∀ domain, domain ≠ target → rings domain = s.rings domain) :
    Kept { s with
      servers := servers
      rings := rings
      reqs := update s.reqs i (some p')
      pools := s.poolsAfter i rings
      forwarded := s.forwarded ++ [(i, target)] } := by
  obtain ⟨hpend, hreqs⟩ := h.setRequest hp fun _ => hpending
  refine ⟨hpend, fun domain => ?_, fun domain => ?_, fun f hf => ?_, h.closed, hreqs⟩
  · change s.poolsAfter i rings domain = { s with forwarded := s.forwarded ++ [(i, target)] }.first domain
    rw [first_append, poolsAfter]
    by_cases hdomain : target = domain
    · subst hdomain
      cases hold : s.rings target with
      | none => simp [(h.rings target).mp hold, Option.isSome_iff_ne_none.mpr hring]
      | some ring =>
          have hfirst : s.first target ≠ none := fun hnone => by
            rw [(h.rings target).mpr hnone] at hold
            contradiction
          simp [hfirst, h.pools]
    · rw [hother domain (Ne.symm hdomain)]
      cases hold : s.rings domain <;> simp [hdomain, h.pools]
  · change rings domain = none ↔ { s with forwarded := s.forwarded ++ [(i, target)] }.first domain = none
    rw [first_append]
    by_cases hdomain : target = domain
    · subst hdomain
      by_cases hfirst : s.first target = none
      · simp [hfirst, hring]
      · simp [hfirst, hring]
    · rw [hother domain (Ne.symm hdomain), h.rings domain]
      simp [hdomain]
  · rcases List.mem_append.mp hf with hold | hnew
    · exact h.forwarded f hold
    · rw [List.mem_singleton.mp hnew]
      exact (h.lt hp).1

theorem Kept.step (h : s.Kept) (hallows : s.Allows e) (hstep : s.step cfg e = .ok s') : s'.Kept := by
  cases e with
  | clock now =>
      cases hstep
      exact ⟨h.pending, h.pools, h.rings, h.forwarded, h.closed, h.reqs⟩
  | init =>
      cases hstep
      exact h.init
  | forward i upstream target o =>
      obtain ⟨p, hp, hstep⟩ := bind_ok hstep
      obtain ⟨sel, hsel, hstep⟩ := bind_ok hstep
      cases hstep
      have hp := deref_ok hp
      obtain ⟨p₀, hp₀, -, hcur, htries⟩ := hallows
      obtain rfl : p = p₀ := Option.some.inj (hp.symm.trans hp₀)
      obtain ⟨hring, hother⟩ := forward_rings (s := s) hcur htries hsel
      exact h.forward (by simp [hp]) (tryConnectUpstream_tries hsel).1 hring hother
  | result i res o =>
      obtain ⟨p, hp, hstep⟩ := bind_ok hstep
      obtain ⟨⟨p', servers', rings'⟩, hres, hstep⟩ := bind_ok hstep
      cases hstep
      have hp := deref_ok hp
      obtain ⟨p₀, hp₀, hhandler⟩ := hallows
      obtain rfl : p = p₀ := Option.some.inj (hp.symm.trans hp₀)
      obtain ⟨hpos, rfl⟩ := hashConnectionResult_kept (h.pending i p hp hhandler) hres
      obtain ⟨hpend, hreqs⟩ := h.setRequest (i := i) (by simp [hp]) fun _ => hpos
      exact ⟨hpend, h.pools, h.rings, h.forwarded, h.closed, hreqs⟩
  | other i p' =>
      cases hstep
      obtain ⟨p, hp, -, -, htries, hhandler⟩ := hallows
      have hpos : p'.handler = .connectionResult → 0 < p'.r.upstreamTries := by
        intro hpending
        rw [htries]
        obtain hsame | hnull := hhandler
        · exact h.pending i p hp (hsame.symm.trans hpending)
        · rw [hnull] at hpending
          contradiction
      obtain ⟨hpend, hreqs⟩ := h.setRequest (Option.ne_none_iff_exists'.mpr ⟨p, hp⟩) hpos
      exact ⟨hpend, h.pools, h.rings, h.forwarded, h.closed, hreqs⟩
  | close i =>
      obtain ⟨p, hp, hstep⟩ := bind_ok hstep
      cases hstep
      have hp := deref_ok hp
      have hlt := (h.lt (i := i) (by simp [hp])).1
      refine ⟨fun j p' hp' => ?_, h.pools, h.rings, h.forwarded, fun j hj => ?_, fun j => ?_⟩
      · dsimp only at hp'
        by_cases hj : j = i
        · subst hj
          rw [update_self] at hp'
          contradiction
        · rw [update_of_ne hj] at hp'
          exact h.pending j p' hp'
      · rcases List.mem_append.mp hj with hold | hnew
        · exact h.closed j hold
        · rw [List.mem_singleton.mp hnew]
          exact hlt
      · dsimp only
        rw [List.mem_append, List.mem_singleton]
        by_cases hj : j = i
        · subst hj
          rw [update_self]
          simp
        · rw [update_of_ne hj, h.reqs j]
          simp [hj]
  | clear i =>
      obtain ⟨p, hp, hstep⟩ := bind_ok hstep
      cases hstep
      have hp := deref_ok hp
      have hnull : ({ r := (httpClearRequest s.now s.servers p.r).1 } : Proxied).handler ≠ .connectionResult := by
        simp
      obtain ⟨hpend, hreqs⟩ := h.setRequest (i := i) (by simp [hp]) fun hpending => absurd hpending hnull
      exact ⟨hpend, h.pools, h.rings, h.forwarded, h.closed, hreqs⟩

theorem kept_of_reaches (h : (machine cfg).Reaches s) : s.Kept := by
  refine h.invariant (fun s hinit => ?_) fun s e s' hkept hallows hstep => ?_
  · obtain ⟨now, garbage, rfl⟩ := hinit
    refine ⟨fun i p hp => ?_, fun _ => rfl, fun _ => iff_of_true rfl rfl, fun f hf => ?_, fun i hi => ?_,
      fun i => iff_of_true rfl (.inl (Nat.zero_le i))⟩
    · exact absurd hp (Option.not_mem_none p)
    · exact absurd hf List.not_mem_nil
    · exact absurd hi List.not_mem_nil
  · change (s.step cfg e).toOption = some s' at hstep
    cases hs : s.step cfg e with
    | error f =>
        rw [hs] at hstep
        contradiction
    | ok t =>
        rw [hs] at hstep
        cases hstep
        exact hkept.step hallows hs

/-- Only a request that is forwarded looks at a ring. -/
theorem Kept.looks (h : s.Kept) (hallows : s.Allows e) (hlooks : s.Looks cfg e domain servers rings) :
    ∃ i upstream target o, ∃ p ∈ s.reqs i, ∃ r', e = .forward i upstream target o ∧ p.r.curServerDomain = none ∧
      p.r.upstreamTries = 0 ∧ r'.curServerDomain = some domain ∧ domain = findDomain s.servers target ∧
      initBeforeConsistentHashGet (s.outside cfg o) s.servers s.rings
        { p.r with upstream := some upstream, upstreamTries := 1 } (some target) = .ok (r', servers, rings) := by
  obtain ⟨o', r, servers₀, target', r', hselects, htries, hinit, hdomain⟩ := hlooks
  cases e with
  | forward i upstream target o =>
      obtain ⟨p, hp, -, hcur, hzero⟩ := hallows
      have hreq : s.reqs i = some p := hp
      simp only [selects, hreq, bind, Option.bind, pure, Option.some.injEq, Prod.mk.injEq] at hselects
      obtain ⟨rfl, rfl, rfl, rfl⟩ := hselects
      have hfind := (initBeforeConsistentHashGet_rings
        (r := { p.r with upstream := some upstream, upstreamTries := 1 }) hcur hinit).1
      rw [hdomain] at hfind
      exact ⟨i, upstream, target, o, p, hp, r', rfl, hcur, hzero, hdomain, Option.some.inj hfind, hinit⟩
  | result i res o =>
      obtain ⟨p, hp, hhandler⟩ := hallows
      have hreq : s.reqs i = some p := hp
      have hpos := h.pending i p hp hhandler
      cases res with
      | timedout => contradiction
      | noSockopt => contradiction
      | soError err =>
          cases hus : p.r.curUpstream with
          | none => simp [selects, hreq, hus] at hselects
          | some us =>
              simp only [selects, hreq, hus, bind, Option.bind] at hselects
              split at hselects
              · contradiction
              · cases hselects
                dsimp only at htries
                omega
  | clock now => contradiction
  | init => contradiction
  | other i p => contradiction
  | close i => contradiction
  | clear i => contradiction

/-! ## runs of two servers -/

instance decidableAllows (s : HashProxy) (e : HashEvent) : Decidable (s.Allows e) :=
  match e with
  | .clock _ | .init => .isTrue trivial
  | .forward _ _ _ _ | .result _ _ _ | .other _ _ => inferInstanceAs (Decidable (∃ _ ∈ _, _))
  | .close _ | .clear _ => inferInstanceAs (Decidable (_ ≠ _))

instance decidableCalm (cfg : HashConfig) (s : HashProxy) (e : HashEvent) : Decidable (s.Calm cfg e) :=
  match e with
  | .forward _ _ _ _ => inferInstanceAs (Decidable (¬ (_ ∧ _)))
  | .result _ (.soError _) _ => inferInstanceAs (Decidable (_ → ∀ _ ∈ _, ∀ _ ∈ _, _ ∧ _))
  | .close _ => inferInstanceAs (Decidable (∀ _ ∈ _, ∀ _ ∈ _, _))
  | .result _ .timedout _ | .result _ .noSockopt _ | .clock _ | .init | .other _ _ | .clear _ => .isTrue trivial

instance decidableMachineAllows (cfg : HashConfig) (s : HashProxy) (e : HashEvent) :
    Decidable ((machine cfg).allows s e) := inferInstanceAs (Decidable (s.Allows e))

instance decidableCalmAllows (cfg : HashConfig) (s : HashProxy) (e : HashEvent) :
    Decidable (((machine cfg).restrict (Calm cfg)).allows s e) := inferInstanceAs (Decidable (_ ∧ _))

/-- Whether an event may be next and calls for a lookup, after which `q` holds. -/
def lookTest (cfg : HashConfig) (e : HashEvent) (q : Nat → HashProxy → Servers → (Nat → Option Ring) → Bool)
    (s : HashProxy) : Bool :=
  decide (s.Allows e) && (s.selects cfg e).any fun (o, r, servers, target) =>
    decide (r.upstreamTries = 0) &&
      (initBeforeConsistentHashGet o servers s.rings { r with upstreamTries := 1 } target).toOption.any
        fun (r', servers', rings') => r'.curServerDomain.any fun domain => q domain s servers' rings'

theorem looks_of_lookTest {q : Nat → HashProxy → Servers → (Nat → Option Ring) → Bool}
    (h : lookTest cfg e q s = true) :
    s.Allows e ∧ ∃ domain servers rings, s.Looks cfg e domain servers rings ∧ q domain s servers rings = true := by
  unfold lookTest at h
  rw [Bool.and_eq_true, decide_eq_true_eq, Option.any_eq_true] at h
  obtain ⟨hallows, ⟨o, r, servers, target⟩, hselects, h⟩ := h
  rw [Bool.and_eq_true, decide_eq_true_eq, Option.any_eq_true] at h
  obtain ⟨htries, ⟨r', servers', rings'⟩, hinit, h⟩ := h
  rw [Option.any_eq_true] at h
  obtain ⟨domain, hdomain, hq⟩ := h
  refine ⟨hallows, domain, servers', rings', ⟨o, r, servers, target, r', hselects, htries, ?_, hdomain⟩, hq⟩
  cases hres : initBeforeConsistentHashGet o servers s.rings { r with upstreamTries := 1 } target with
  | error f =>
      rw [hres] at hinit
      contradiction
  | ok res =>
      rw [hres] at hinit
      cases hinit
      rfl

/-- One domain with two servers on one host. -/
def twoServers : HashConfig where
  domains := 1
  name := fun _ => [98]
  nelts := fun _ => 2
  loc := fun _ _ => { host := [49, 50, 55, 46, 48, 46, 48, 46, 49], port := 8080 }
  pCeil := sortingClient.pCeil
  qsort := sortingClient.qsort

/-- A request for that domain, whose connects all end with `ret`. -/
def forwardTo (i : Nat) (ret : Ret) : HashEvent := .forward i 0 [98] { sortingClient with conn := fun _ => ret }

theorem reaches_start (M : Machine HashProxy HashEvent) (hM : M.init = (machine twoServers).init) :
    M.Reaches (start twoServers 0 fun _ => .zeros) := .init (hM ▸ ⟨0, _, rfl⟩)

/-! ## the memory of the rings -/

/-- The ring that is read, or built again, is in the pool of a request that has
not been closed. -/
theorem ring_pool_live (h : (machine cfg).Reaches s) (hallows : s.Allows e)
    (hlooks : s.Looks cfg e domain servers rings) :
    (∀ i ∈ e.request, ∀ k ∈ s.poolsAfter i rings domain, s.reqs k ≠ none) ↔
      ∀ k ∈ s.first domain, k ∉ s.closed := by
  have hkept := kept_of_reaches h
  obtain ⟨i, upstream, target, o, p, hp, r', rfl, hcur, htries, hdomain, -, hinit⟩ := hkept.looks hallows hlooks
  have hreq : s.reqs i ≠ none := by
    rw [Option.mem_def.mp hp]
    simp
  cases hfirst : s.first domain with
  | none =>
      -- the domain was not asked for before, and its ring is put in the pool of this request
      refine iff_of_true (fun j hj k hk => ?_) fun k hk => absurd hk (Option.not_mem_none k)
      cases hj
      have hpool : s.poolsAfter i rings domain = some i ∨ s.poolsAfter i rings domain = none := by
        unfold poolsAfter
        split
        · exact .inl rfl
        · exact .inr ((hkept.pools domain).trans hfirst)
      obtain hpool | hpool := hpool
      · rw [Option.mem_def, hpool] at hk
        cases hk
        exact hreq
      · rw [Option.mem_def, hpool] at hk
        contradiction
  | some k₀ =>
      have hring : s.rings domain ≠ none := fun hnone => by
        rw [(hkept.rings domain).mp hnone] at hfirst
        contradiction
      have hpool : s.poolsAfter i rings domain = some k₀ := by
        unfold poolsAfter
        rw [Option.isNone_eq_false_iff.mpr (Option.isSome_iff_ne_none.mpr hring), Bool.false_and]
        exact (hkept.pools domain).trans hfirst
      have hlt : k₀ < s.created := by
        obtain ⟨f, hf, rfl⟩ := Option.map_eq_some_iff.mp hfirst
        exact hkept.forwarded f (List.mem_of_find?_eq_some hf)
      have hopen : s.reqs k₀ ≠ none ↔ k₀ ∉ s.closed := by
        rw [Ne, hkept.reqs k₀, not_or]
        exact and_iff_right (Nat.not_le.mpr hlt)
      constructor
      · intro hlive k hk
        cases hk
        exact hopen.mp (hlive i rfl k₀ hpool)
      · intro hnot j hj k hk
        cases hj
        rw [Option.mem_def, hpool] at hk
        cases hk
        exact hopen.mpr (hnot k₀ rfl)

/-- The request that the ring was built for is still open when the next one
comes. -/
theorem ring_pool_live_open :
    ∃ s domain servers rings, (machine twoServers).Reaches s ∧
      s.Looks twoServers (forwardTo 1 .ok) domain servers rings ∧ s.rings domain ≠ none ∧
      ∀ k ∈ s.poolsAfter 1 rings domain, s.reqs k ≠ none := by
  obtain ⟨s, h, htest⟩ := Machine.Reaches.exists_of_runTest
    (lookTest twoServers (forwardTo 1 .ok) fun domain s _ _ =>
      (s.rings domain).isSome && (s.first domain).any fun k => decide (k ∉ s.closed))
    [.init, forwardTo 0 .ok, .init] (reaches_start (machine twoServers) rfl) (by decide +kernel)
  obtain ⟨hallows, domain, servers, rings, hlooks, hq⟩ := looks_of_lookTest htest
  rw [Bool.and_eq_true, Option.any_eq_true] at hq
  obtain ⟨hring, k₀, hfirst, hopen⟩ := hq
  refine ⟨s, domain, servers, rings, h, hlooks, Option.isSome_iff_ne_none.mp hring,
    (ring_pool_live h hallows hlooks).mpr (fun k hk => ?_) 1 rfl⟩
  rw [Option.mem_def, hfirst] at hk
  cases hk
  exact of_decide_eq_true hopen

/-- The request that the ring was built for has been closed. -/
theorem ring_pool_released :
    ∃ s domain servers rings, (machine twoServers).Reaches s ∧ s.Allows (forwardTo 1 .ok) ∧
      s.Looks twoServers (forwardTo 1 .ok) domain servers rings ∧
      ∃ k ∈ s.poolsAfter 1 rings domain, s.reqs k = none := by
  obtain ⟨s, h, htest⟩ := Machine.Reaches.exists_of_runTest
    (lookTest twoServers (forwardTo 1 .ok) fun domain s _ rings =>
      (s.poolsAfter 1 rings domain).any fun k => decide (s.reqs k = none))
    [.init, forwardTo 0 .ok, .close 0, .init] (reaches_start (machine twoServers) rfl) (by decide +kernel)
  obtain ⟨hallows, domain, servers, rings, hlooks, hq⟩ := looks_of_lookTest htest
  rw [Option.any_eq_true] at hq
  obtain ⟨k, hk, hclosed⟩ := hq
  exact ⟨s, domain, servers, rings, h, hallows, hlooks, k, hk, of_decide_eq_true hclosed⟩

/-! ## the rings and the servers that are up -/

/-- As the process is started no ring is taken to be valid. -/
theorem ringsHold_start (hweight : ∀ domain, ∀ i < cfg.nelts domain, 0 < (cfg.loc domain i).weight)
    (now : BitVec 32) (garbage : Nat → ServerArr) :
    RingsHold (start cfg now garbage).servers (start cfg now garbage).rings where
  configured := fun domain => ⟨hweight domain, fun _ _ => (by decide : (0 : Int) < 3)⟩
  holds := fun _ hdone => nomatch hdone

/-- A calm event leaves the rings as good as they were. -/
theorem ringsHold_step (hceil : CeilsUp cfg.pCeil) (hsort : Sorts cfg.qsort) (hkept : s.Kept)
    (hold : RingsHold s.servers s.rings) (hallows : s.Allows e) (hcalm : s.Calm cfg e)
    (hstep : s.step cfg e = .ok s') : RingsHold s'.servers s'.rings := by
  cases e with
  | clock now =>
      cases hstep
      exact hold
  | init =>
      cases hstep
      exact hold
  | forward i upstream target o =>
      obtain ⟨p, hp, hstep⟩ := bind_ok hstep
      obtain ⟨sel, hsel, hstep⟩ := bind_ok hstep
      cases hstep
      obtain ⟨p₀, hp₀, -, hcur, htries⟩ := hallows
      obtain rfl : p = p₀ := Option.some.inj ((deref_ok hp).symm.trans hp₀)
      refine hold.forward (o := s.outside cfg o) (r := { p.r with upstream := some upstream }) hceil hsort hcur
        htries (fun name hname => ?_) hsel
      cases hname
      exact hcalm
  | result i res o =>
      obtain ⟨p, hp, hstep⟩ := bind_ok hstep
      obtain ⟨⟨p', servers', rings'⟩, hres, hstep⟩ := bind_ok hstep
      cases hstep
      obtain ⟨p₀, hp₀, hhandler⟩ := hallows
      obtain rfl : p = p₀ := Option.some.inj ((deref_ok hp).symm.trans hp₀)
      unfold hashConnectionResult at hres
      obtain ⟨us, hus, hres⟩ := bind_ok hres
      cases res with
      | timedout =>
          cases hres
          exact hold
      | noSockopt =>
          cases hres
          exact hold
      | soError err =>
          dsimp only at hres
          split at hres
          · cases hres
            exact hold
          · next herr =>
            obtain ⟨sel, hsel, hres⟩ := bind_ok hres
            cases hres
            obtain ⟨hsteady, hrest⟩ := hcalm herr p hp₀ us (deref_ok hus)
            obtain ⟨hweight, hmaxFails⟩ := failServer_config s.now (s.servers.get us)
            have hfailed := hold.set hweight hmaxFails hsteady
            exact hfailed.again (o := s.outside cfg o) (r := { p.r with curUpstream := none })
              (hkept.pending i p hp₀ hhandler) hsel (hrest sel (congrArg Except.toOption hsel))
  | other i p' =>
      cases hstep
      exact hold
  | close i =>
      obtain ⟨p, hp, hstep⟩ := bind_ok hstep
      cases hstep
      change RingsHold (httpCloseRequest s.now s.servers p.r).1 s.rings
      unfold httpCloseRequest
      cases hus : p.r.curUpstream with
      | none => exact hold
      | some us =>
          obtain ⟨hweight, hmaxFails⟩ := freeServerAfterRoundSelect_config s.now (s.servers.get us)
          exact hold.set hweight hmaxFails (hcalm p (deref_ok hp) us hus)
  | clear i =>
      obtain ⟨p, hp, hstep⟩ := bind_ok hstep
      cases hstep
      exact hold

/-- In a run of calm events the rings hold. -/
theorem ringsHold_of_reaches (hceil : CeilsUp cfg.pCeil) (hsort : Sorts cfg.qsort)
    (hweight : ∀ domain, ∀ i < cfg.nelts domain, 0 < (cfg.loc domain i).weight)
    (h : ((machine cfg).restrict (Calm cfg)).Reaches s) : RingsHold s.servers s.rings := by
  induction h with
  | init hinit =>
      obtain ⟨now, garbage, rfl⟩ := hinit
      exact ringsHold_start hweight now garbage
  | @step s s' e h hallows hstep ih =>
      have hkept := kept_of_reaches h.of_restrict
      change (s.step cfg e).toOption = some s' at hstep
      cases hs : s.step cfg e with
      | error f =>
          rw [hs] at hstep
          contradiction
      | ok t =>
          rw [hs] at hstep
          cases hstep
          exact ringsHold_step hceil hsort hkept ih hallows.1 hallows.2 hs

/-- While all events are calm, every lookup finds a ring of the servers that are
up. -/
theorem ring_owners (hceil : CeilsUp cfg.pCeil) (hsort : Sorts cfg.qsort)
    (hweight : ∀ domain, ∀ i < cfg.nelts domain, 0 < (cfg.loc domain i).weight)
    (h : ((machine cfg).restrict (Calm cfg)).Reaches s) (hallows : s.Allows e) (hcalm : s.Calm cfg e)
    (hlooks : s.Looks cfg e domain servers rings) : s.OwnersUp domain servers rings := by
  have hold := ringsHold_of_reaches hceil hsort hweight h
  obtain ⟨i, upstream, target, o, p, -, r', rfl, hcur, -, hdomain, -, hinit⟩ :=
    (kept_of_reaches h.of_restrict).looks hallows hlooks
  refine (hold.lookup (o := s.outside cfg o) (r := { p.r with upstream := some upstream, upstreamTries := 1 })
    hceil hsort hcur (fun name hname => ?_) hinit hdomain).2
  cases hname
  exact hcalm

/-- A first and a second request, whose connects go through. -/
theorem ring_owners_two :
    ∃ (s : HashProxy) (domain : Nat) (servers : Servers) (rings : Nat → Option Ring), s.Looks twoServers (forwardTo 1 .ok) domain servers rings ∧
      (servers.serverIpArr domain).initState = .initDone ∧ s.OwnersUp domain servers rings := by
  obtain ⟨s, h, htest⟩ := Machine.Reaches.exists_of_runTest
    (lookTest twoServers (forwardTo 1 .ok) fun domain s servers _ =>
      decide (s.Calm twoServers (forwardTo 1 .ok)) && decide ((servers.serverIpArr domain).initState = .initDone))
    [.init, forwardTo 0 .ok, .init] (reaches_start ((machine twoServers).restrict (Calm twoServers)) rfl)
    (by decide +kernel)
  obtain ⟨hallows, domain, servers, rings, hlooks, hq⟩ := looks_of_lookTest htest
  rw [Bool.and_eq_true, decide_eq_true_eq, decide_eq_true_eq] at hq
  exact ⟨s, domain, servers, rings, hlooks, hq.2, ring_owners sortingClient_ceilsUp sortingClient_sorts
    (fun _ _ _ => Int.zero_lt_one) h hallows hq.1 hlooks⟩

/-- The last node of the ring is that of the second server, which is down. -/
def lastDown (domain : Nat) (s : HashProxy) (servers : Servers) (rings : Nat → Option Ring) : Bool :=
  (rings domain).any fun ring => decide (0 < ring.vnodes.toNat) &&
    decide ((ring.cycle (ring.vnodes.toNat - 1)).rnode = some 1) &&
      isServerDown s.now ((servers.serverIpArr domain).upstreamServer 1)

/-- Two connects to the server of the ring fail, and the connect of the second
request, which goes to it again, ends with an error only after the ring was built
for the third one. -/
theorem ring_owners_down :
    ∃ s domain servers rings, (machine twoServers).Reaches s ∧ s.Allows (forwardTo 3 .ok) ∧
      s.Looks twoServers (forwardTo 3 .ok) domain servers rings ∧ ¬ s.OwnersUp domain servers rings := by
  obtain ⟨s, h, htest⟩ := Machine.Reaches.exists_of_runTest
    (lookTest twoServers (forwardTo 3 .ok) lastDown)
    [.init, forwardTo 0 .again, .init, forwardTo 1 .again, .init, forwardTo 2 .ok,
      .result 1 (.soError 111) sortingClient, .init]
    (reaches_start (machine twoServers) rfl) (by decide +kernel)
  obtain ⟨hallows, domain, servers, rings, hlooks, hq⟩ := looks_of_lookTest htest
  unfold lastDown at hq
  rw [Option.any_eq_true] at hq
  obtain ⟨ring, hring, hq⟩ := hq
  rw [Bool.and_eq_true, Bool.and_eq_true, decide_eq_true_eq, decide_eq_true_eq] at hq
  obtain ⟨⟨hsize, hnode⟩, hdown⟩ := hq
  refine ⟨s, domain, servers, rings, h, hallows, hlooks, ?_⟩
  rintro ⟨ring', hring', howners⟩
  obtain rfl : ring = ring' := Option.some.inj (hring.symm.trans hring')
  have hup := (howners 1).mp ⟨ring.vnodes.toNat - 1, Nat.sub_one_lt_of_lt hsize, hnode⟩
  rw [(mem_runningServers.mp hup).2] at hdown
  contradiction

end

end HashProxy

end PWebServer
