import PWebServer.Module.HashProxy
import PWebServer.Module.VirtualNodes

/-!
# Module.RingRoom

The block that a ring is built in is allocated once, when `init_state` is `IDLE`,
with room for the nodes of that time.  All servers are up then, since none has
been asked: `Sane` and `Aged` carry that through the runs.  A ring that is built
again for fewer servers may have more nodes.
-/

namespace PWebServer

open Function Shares

/-- `p_ceil` is the exact ceiling. -/
def CeilsExactly (pCeil : Int → Int → Int) : Prop := ∀ a b : Int, 0 < b → pCeil a b = ceilDiv a b

/-- What everything but the construction of a ring does to a domain whose
servers have not failed unless it was asked. -/
structure ServerArr.Ages (d d' : ServerArr) : Prop where
  nelts : d'.nelts = d.nelts
  weight : ∀ i, (d'.upstreamServer i).weight = (d.upstreamServer i).weight
  maxFails : ∀ i, (d'.upstreamServer i).maxFails = (d.upstreamServer i).maxFails
  idle : d'.initState = .idle ↔ d.initState = .idle
  fails : d.initState = .idle → ∀ i, (d'.upstreamServer i).fails = (d.upstreamServer i).fails

/-- All domains age. -/
def Servers.Aged (servers servers' : Servers) : Prop :=
  ∀ domain, (servers.serverIpArr domain).Ages (servers'.serverIpArr domain)

/-- The servers are those of the configuration, and of a domain that was not
asked none has failed. -/
structure Servers.Sane (cfg : HashConfig) (servers : Servers) : Prop where
  nelts : ∀ domain, (servers.serverIpArr domain).nelts = cfg.nelts domain
  weight : ∀ domain i, ((servers.serverIpArr domain).upstreamServer i).weight = (cfg.loc domain i).weight
  maxFails : ∀ domain i, ((servers.serverIpArr domain).upstreamServer i).maxFails = 3
  fails : ∀ domain, (servers.serverIpArr domain).initState = .idle →
    ∀ i, ((servers.serverIpArr domain).upstreamServer i).fails = 0

/-- The domain and the server of a request have been asked. -/
structure Servers.Used (servers : Servers) (r : HttpRequest) : Prop where
  domain : ∀ domain ∈ r.curServerDomain, (servers.serverIpArr domain).initState ≠ .idle
  server : ∀ us ∈ r.curUpstream, (servers.serverIpArr us.1).initState ≠ .idle

section

variable {cfg : HashConfig} {d d' d'' : ServerArr} {servers servers' servers₁ : Servers} {now : BitVec 32}
  {conn : Nat → Ret} {domain k : Nat} {r r' r₁ : HttpRequest} {block : Option (Nat → BitVec 64)}
  {target : Option (List UInt8)} {ret : Ret} {us : ServerId} {s : UpstreamServer} {o : Outside}
  {rings rings' : Nat → Option Ring} {sel : Selection}

/-! ## domains -/

theorem ServerArr.Ages.refl (d : ServerArr) : d.Ages d :=
  ⟨rfl, fun _ => rfl, fun _ => rfl, Iff.rfl, fun _ _ => rfl⟩

theorem ServerArr.Ages.trans (h : d.Ages d') (h' : d'.Ages d'') : d.Ages d'' where
  nelts := h'.nelts.trans h.nelts
  weight := fun i => (h'.weight i).trans (h.weight i)
  maxFails := fun i => (h'.maxFails i).trans (h.maxFails i)
  idle := h'.idle.trans h.idle
  fails := fun hidle i => (h'.fails (h.idle.mpr hidle) i).trans (h.fails hidle i)

/-- A server of a domain that was asked is changed. -/
theorem ServerArr.Ages.server {i : Nat} (hasked : d.initState ≠ .idle) (hweight : s.weight = (d.upstreamServer i).weight)
    (hmaxFails : s.maxFails = (d.upstreamServer i).maxFails) :
    d.Ages { d with upstreamServer := update d.upstreamServer i s } := by
  have hother : ∀ (f : UpstreamServer → Int), f s = f (d.upstreamServer i) → ∀ j,
      f (update d.upstreamServer i s j) = f (d.upstreamServer j) := by
    intro f hf j
    by_cases hj : j = i
    · subst hj
      rw [update_self]
      exact hf
    · rw [update_of_ne hj]
  exact ⟨rfl, hother _ hweight, hother _ hmaxFails, Iff.rfl, fun hidle => absurd hidle hasked⟩

theorem ages_fail (now : BitVec 32) (hasked : d.initState ≠ .idle) (i : Nat) :
    d.Ages { d with upstreamServer := update d.upstreamServer i (failServer now (d.upstreamServer i)) } :=
  .server hasked (failServer_config now _).1 (failServer_config now _).2

theorem ages_getServerByRoundOnce (now : BitVec 32) (d : ServerArr) : d.Ages (getServerByRoundOnce now d).2 := by
  have hfollows := follows_getServerByRoundOnce now d
  refine ⟨hfollows.nelts, hfollows.weight, hfollows.maxFails, by rw [getServerByRoundOnce_initState], fun _ i => ?_⟩
  obtain ⟨heq, -⟩ | ⟨b, -, heq⟩ := getServerByRoundOnce_cases now d
  · rw [heq]
  · rw [heq]
    exact (sameFailures_picked now d b i).fails

/-- While nobody has failed the last loop of `init_before_round` sets no
`fails` back. -/
theorem not_timedOut (hmax : ∀ i, (d.upstreamServer i).maxFails = 3) (hfails : ∀ i, (d.upstreamServer i).fails = 0) :
    anyTimedOut now d = false := by
  unfold anyTimedOut
  rw [List.any_eq_false]
  intro i _
  simp [hmax, hfails]

theorem ages_resetServers (hmax : ∀ i, (d.upstreamServer i).maxFails = 3)
    (hfails : d.initState = .idle → ∀ i, (d.upstreamServer i).fails = 0) : d.Ages (resetServers now d) := by
  have hfollows := follows_resetServers now d
  refine ⟨hfollows.nelts, hfollows.weight, hfollows.maxFails, ⟨fun hidle => ?_, fun hidle => ?_⟩, fun hidle i => ?_⟩
  · unfold resetServers at hidle
    dsimp only at hidle
    split at hidle
    · contradiction
    · exact hidle
  · unfold resetServers
    dsimp only
    rw [not_timedOut hmax (hfails hidle)]
    exact hidle
  · unfold resetServers
    dsimp only
    split
    · change (if _ then 0 else (d.upstreamServer i).fails) = (d.upstreamServer i).fails
      rw [hfails hidle i]
      exact ite_self 0
    · rfl

/-- A rule for the loop of `get_server_by_round`. -/
theorem retryLoop_rel {R : ServerArr → ServerArr → Prop} (hrefl : ∀ d, R d d)
    (htrans : ∀ {d d' d''}, R d d' → R d' d'' → R d d'') (honce : ∀ d, R d (getServerByRoundOnce now d).2)
    (hfail : ∀ d i, R d { d with
      upstreamServer := update d.upstreamServer i (failServer now (d.upstreamServer i)) }) (r : HttpRequest)
    (d : ServerArr) : R d (retryLoop now conn domain k r d).d := by
  induction k generalizing r d with
  | zero => exact hrefl d
  | succ k ih =>
      have hstep := honce d
      rw [retryLoop]
      cases hsel : getServerByRoundOnce now d with
      | mk us d' =>
          rw [hsel] at hstep
          cases us with
          | none => exact htrans hstep (ih _ _)
          | some i =>
              cases hret : conn (r.upstreamTries + 1) with
              | ok =>
                  simp only [hret]
                  exact hstep
              | again =>
                  simp only [hret]
                  exact hstep
              | error =>
                  simp only [hret]
                  exact htrans (htrans hstep (hfail _ i)) (ih _ _)
              | invalidRequest =>
                  simp only [hret]
                  exact htrans (htrans hstep (hfail _ i)) (ih _ _)

theorem ages_retryLoop (hasked : d.initState ≠ .idle) (r : HttpRequest) :
    d.Ages (retryLoop now conn domain k r d).d := by
  have hrel := @retryLoop_rel now conn domain k (fun d d' => d.initState ≠ .idle → d.Ages d')
    (fun d _ => .refl d) (fun h h' hasked => (h hasked).trans (h' fun hidle => hasked ((h hasked).idle.mp hidle)))
    (fun d _ => ages_getServerByRoundOnce now d) (fun d i hasked => ages_fail now hasked i) r d
  exact hrel hasked

/-- What the loop leaves in the request. -/
theorem retryLoop_request (now : BitVec 32) (conn : Nat → Ret) (domain k : Nat) (r : HttpRequest) (d : ServerArr) :
    (retryLoop now conn domain k r d).r.curServerDomain = r.curServerDomain ∧
      ∀ us ∈ (retryLoop now conn domain k r d).r.curUpstream, us.1 = domain ∨ us ∈ r.curUpstream := by
  induction k generalizing r d with
  | zero => exact ⟨rfl, fun us hus => .inr hus⟩
  | succ k ih =>
      rw [retryLoop]
      cases getServerByRoundOnce now d with
      | mk us d' =>
          cases us with
          | none => exact ih { r with upstreamTries := r.upstreamTries + 1 } d'
          | some i =>
              have hchosen : ∀ us ∈ some (domain, i), us.1 = domain ∨ us ∈ r.curUpstream := by
                intro us hus
                cases hus
                exact .inl rfl
              cases hret : conn (r.upstreamTries + 1) with
              | ok =>
                  simp only [hret]
                  exact ⟨trivial, hchosen⟩
              | again =>
                  simp only [hret]
                  exact ⟨trivial, hchosen⟩
              | error =>
                  simp only [hret]
                  exact ih { r with upstreamTries := r.upstreamTries + 1 } _
              | invalidRequest =>
                  simp only [hret]
                  exact ih { r with upstreamTries := r.upstreamTries + 1 } _

/-! ## all domains -/

theorem Servers.Aged.refl (servers : Servers) : servers.Aged servers := fun _ => .refl _

theorem Servers.Aged.trans (h : servers.Aged servers') (h' : servers'.Aged servers₁) : servers.Aged servers₁ :=
  fun domain => (h domain).trans (h' domain)

/-- One domain ages. -/
theorem Servers.Aged.update (h : (servers.serverIpArr domain).Ages d) :
    servers.Aged { servers with serverIpArr := Function.update servers.serverIpArr domain d } := by
  intro domain'
  dsimp only
  by_cases hsame : domain' = domain
  · subst hsame
    rw [update_self]
    exact h
  · rw [update_of_ne hsame]
    exact .refl _

theorem Servers.Sane.aged (h : servers.Sane cfg) (hages : servers.Aged servers') : servers'.Sane cfg where
  nelts := fun domain => (hages domain).nelts.trans (h.nelts domain)
  weight := fun domain i => ((hages domain).weight i).trans (h.weight domain i)
  maxFails := fun domain i => ((hages domain).maxFails i).trans (h.maxFails domain i)
  fails := fun domain hidle i => by
    have hidle' := (hages domain).idle.mp hidle
    exact ((hages domain).fails hidle' i).trans (h.fails domain hidle' i)

theorem Servers.Used.aged (h : servers.Used r) (hages : servers.Aged servers') : servers'.Used r :=
  ⟨fun domain hdomain hidle => h.domain domain hdomain ((hages domain).idle.mp hidle),
    fun us hus hidle => h.server us hus ((hages us.1).idle.mp hidle)⟩

/-- The ring of a domain is built. -/
def Servers.built (servers : Servers) (domain : Nat) : Servers :=
  { servers with
    serverIpArr := update servers.serverIpArr domain { servers.serverIpArr domain with initState := .initDone } }

theorem Servers.built_initState (servers : Servers) (domain : Nat) :
    ((servers.built domain).serverIpArr domain).initState = .initDone := by
  unfold Servers.built
  dsimp only
  rw [update_self]

theorem Servers.built_of_ne (servers : Servers) {domain domain' : Nat} (hne : domain' ≠ domain) :
    (servers.built domain).serverIpArr domain' = servers.serverIpArr domain' := update_of_ne hne _ _

theorem Servers.Used.built (h : servers.Used r) (domain : Nat) : (servers.built domain).Used r := by
  have hmono : ∀ domain', (servers.serverIpArr domain').initState ≠ .idle →
      ((servers.built domain).serverIpArr domain').initState ≠ .idle := by
    intro domain' hasked
    by_cases hsame : domain' = domain
    · subst hsame
      rw [servers.built_initState]
      exact nofun
    · rw [servers.built_of_ne hsame]
      exact hasked
  exact ⟨fun domain' hdomain' => hmono domain' (h.domain domain' hdomain'),
    fun us hus => hmono us.1 (h.server us hus)⟩

theorem Servers.Sane.built (h : servers.Sane cfg) (domain : Nat) : (servers.built domain).Sane cfg := by
  have hother : ∀ {P : Nat → ServerArr → Prop}, (∀ domain', P domain' (servers.serverIpArr domain')) →
      P domain { servers.serverIpArr domain with initState := .initDone } →
      ∀ domain', P domain' (Function.update servers.serverIpArr domain
        { servers.serverIpArr domain with initState := .initDone } domain') := by
    intro P hall hbuilt domain'
    by_cases hsame : domain' = domain
    · subst hsame
      rw [update_self]
      exact hbuilt
    · rw [update_of_ne hsame]
      exact hall domain'
  refine ⟨?_, ?_, ?_, ?_⟩
  · exact hother (P := fun domain' d => d.nelts = cfg.nelts domain') h.nelts (h.nelts domain)
  · exact hother (P := fun domain' d => ∀ i, (d.upstreamServer i).weight = (cfg.loc domain' i).weight) h.weight
      (h.weight domain)
  · exact hother (P := fun _ d => ∀ i, (d.upstreamServer i).maxFails = 3) h.maxFails (h.maxFails domain)
  · exact hother (P := fun _ d => d.initState = .idle → ∀ i, (d.upstreamServer i).fails = 0) h.fails nofun

/-! ## selections -/

theorem ages_resetTried (h : resetTried block d = some d') : d.Ages d' := by
  obtain ⟨hnelts, hserver, hstate⟩ := resetTried_same h
  exact ⟨hnelts, fun i => by rw [hserver], fun i => by rw [hserver], by rw [hstate], fun _ i => by rw [hserver]⟩

theorem initBeforeRound_ages (hsane : servers.Sane cfg)
    (h : initBeforeRound now block servers r target = .ok (ret, r₁, servers₁)) : servers.Aged servers₁ := by
  obtain ⟨domain, -, -, ⟨-, rfl, -⟩ | ⟨d, -, htried, rfl⟩⟩ := initBeforeRound_cases h
  · exact .refl _
  · have htriedAges := ages_resetTried htried
    refine .update (htriedAges.trans (ages_resetServers (fun i => ?_) fun hidle i => ?_))
    · rw [htriedAges.maxFails]
      exact hsane.maxFails domain i
    · have hidle' := htriedAges.idle.mp hidle
      rw [htriedAges.fails hidle']
      exact hsane.fails domain hidle' i

/-- A selection by rotation, for a domain that was asked. -/
theorem selectByRound_ages (hsane : servers.Sane cfg) (hused : servers.Used r) (hcur : r.curServerDomain ≠ none)
    (h : selectByRound o block servers rings r target = .ok sel) :
    servers.Aged sel.servers ∧ sel.servers.Used sel.r ∧ sel.r.curServerDomain ≠ none := by
  unfold selectByRound getServerByRound at h
  obtain ⟨⟨r', servers', acts⟩, hround, h⟩ := bind_ok h
  cases h
  obtain ⟨⟨ret, r₁, servers₁⟩, hinit, hround⟩ := bind_ok hround
  have hages := initBeforeRound_ages hsane hinit
  obtain ⟨-, -, hsame, -⟩ := initBeforeRound_cases hinit
  have hdomain₁ := hsame hcur
  have hused₁ : servers₁.Used r₁ := by
    refine ⟨fun domain hdomain => ?_, fun us hus => ?_⟩
    · rw [hdomain₁] at hdomain
      exact (hused.aged hages).domain domain hdomain
    · rw [(initBeforeRound_frame hinit).2] at hus
      exact (hused.aged hages).server us hus
  dsimp only at hround ⊢
  split at hround
  · cases hround
    exact ⟨hages, hused₁, hdomain₁ ▸ hcur⟩
  · obtain ⟨domain, hderef, hround⟩ := bind_ok hround
    have hdomain := deref_ok hderef
    have hasked := hused₁.domain domain hdomain
    obtain ⟨run, hrun⟩ : ∃ run, run = retryLoop o.now o.conn domain
        ((servers₁.serverIpArr domain).nelts - r₁.upstreamTries) r₁ (servers₁.serverIpArr domain) := ⟨_, rfl⟩
    have hloop : servers₁.Aged { servers₁ with serverIpArr := update servers₁.serverIpArr domain run.d } := by
      rw [hrun]
      exact .update (ages_retryLoop hasked r₁)
    have hrequest := retryLoop_request o.now o.conn domain
      ((servers₁.serverIpArr domain).nelts - r₁.upstreamTries) r₁ (servers₁.serverIpArr domain)
    rw [← hrun] at hrequest
    have hresult : ∀ r₂ : HttpRequest, r₂.curServerDomain = run.r.curServerDomain →
        r₂.curUpstream = run.r.curUpstream →
        Servers.Used { servers₁ with serverIpArr := update servers₁.serverIpArr domain run.d } r₂ ∧
          r₂.curServerDomain ≠ none := by
      intro r₂ hsameDomain hsameUpstream
      rw [hrequest.1, hdomain] at hsameDomain
      have hasked' : ∀ domain', domain' = domain → (update servers₁.serverIpArr domain run.d domain').initState ≠ .idle := by
        rintro domain' rfl hidle
        exact hasked ((hloop domain').idle.mp hidle)
      refine ⟨⟨fun domain' hdomain' => ?_, fun us hus => ?_⟩, by simp [hsameDomain]⟩
      · rw [hsameDomain] at hdomain'
        cases hdomain'
        exact hasked' _ rfl
      · rw [hsameUpstream] at hus
        obtain hown | hold := hrequest.2 us hus
        · exact hasked' us.1 hown
        · exact (hused₁.aged hloop).server us hold
    simp only [← hrun] at hround
    split at hround
    · cases hround
      exact ⟨hages.trans hloop, hresult _ rfl rfl⟩
    · split at hround
      · cases hround
        exact ⟨hages.trans hloop, hresult _ rfl rfl⟩
      · cases hround
        exact ⟨hages.trans hloop, hresult _ rfl rfl⟩

/-! ## lookups -/

/-- The domain whose ring `init_before_consistent_hash_get` builds, as
`init_before_round` leaves it. -/
def ringToBuild (o : Outside) (servers : Servers) (r : HttpRequest) (target : Option (List UInt8)) :
    Option (Nat × ServerArr) := do
  let (_, r, servers) ← (initBeforeRound o.now o.block servers r target).toOption
  let domain ← r.curServerDomain
  if (servers.serverIpArr domain).initState = .initDone then none else some (domain, servers.serverIpArr domain)

/-- How a lookup finds the ring of its domain. -/
theorem initBeforeConsistentHashGet_cases
    (h : initBeforeConsistentHashGet o servers rings r target = .ok (r', servers', rings')) :
    ∃ ret servers₁ domain, initBeforeRound o.now o.block servers r target = .ok (ret, r', servers₁) ∧
      r'.curServerDomain = some domain ∧
      (ringToBuild o servers r target = none ∧ (servers₁.serverIpArr domain).initState = .initDone ∧
          servers' = servers₁ ∨
        ringToBuild o servers r target = some (domain, servers₁.serverIpArr domain) ∧
          servers' = servers₁.built domain ∧
          ∃ old, ringBlock o (servers₁.serverIpArr domain).initState (rings domain) = .ok old ∧
            rings' domain = some (buildRing o (servers₁.serverIpArr domain) old)) := by
  unfold initBeforeConsistentHashGet at h
  obtain ⟨⟨ret, r₁, servers₁⟩, hinit, h⟩ := bind_ok h
  obtain ⟨domain, hderef, h⟩ := bind_ok h
  have hdomain := deref_ok hderef
  have hbuild : ringToBuild o servers r target =
      if (servers₁.serverIpArr domain).initState = .initDone then none
      else some (domain, servers₁.serverIpArr domain) := by
    unfold ringToBuild
    simp only [hinit, Except.toOption, bind, Option.bind, hdomain]
  refine ⟨ret, servers₁, domain, ?_⟩
  dsimp only at h
  split at h
  · next hdone =>
    cases h
    rw [if_pos hdone] at hbuild
    exact ⟨hinit, hdomain, .inl ⟨hbuild, hdone, rfl⟩⟩
  · next hdone =>
    obtain ⟨old, hold, h⟩ := bind_ok h
    cases h
    rw [if_neg hdone] at hbuild
    exact ⟨hinit, hdomain, .inr ⟨hbuild, rfl, old, hold, update_self ..⟩⟩

/-- The rest of a first selection. -/
theorem forward_ages (htries : r.upstreamTries = 0)
    (h : tryConnectUpstream .consistentHash o servers rings r target = .ok sel) :
    ∃ r' servers' rings', initBeforeConsistentHashGet o servers rings { r with upstreamTries := 1 } target =
        .ok (r', servers', rings') ∧
      (servers'.Sane cfg → (∀ domain ∈ r'.curServerDomain, (servers'.serverIpArr domain).initState = .initDone) →
        servers'.Aged sel.servers ∧ sel.servers.Used sel.r) := by
  unfold tryConnectUpstream getServerByConsistentHash at h
  dsimp only at h
  rw [if_neg (by omega)] at h
  obtain ⟨⟨r₁, servers₁, rings₁, domain, us⟩, hlookup, h⟩ := bind_ok h
  obtain ⟨hinit, hdomain, -⟩ := hashLookup_cases hlookup
  rw [htries] at hinit
  refine ⟨r₁, servers₁, rings₁, hinit, fun hsane hdone => ?_⟩
  have hasked : (servers₁.serverIpArr domain).initState ≠ .idle := by
    rw [hdone domain hdomain]
    exact nofun
  have hused : servers₁.Used { r₁ with curUpstream := none } := by
    refine ⟨fun domain' hdomain' => ?_, fun us hus => absurd hus (Option.not_mem_none us)⟩
    rw [hdone domain' hdomain']
    exact nofun
  have hcurDomain : ({ r₁ with curUpstream := none } : HttpRequest).curServerDomain ≠ none := by
    simp [hdomain]
  cases us with
  | none =>
      obtain ⟨hages, hrest, -⟩ := selectByRound_ages hsane hused hcurDomain h
      exact ⟨hages, hrest⟩
  | some i =>
      dsimp only at h
      split at h
      · cases h
        refine ⟨.refl _, fun domain' hdomain' => ?_, fun us hus => ?_⟩
        · exact hused.domain domain' hdomain'
        · cases hus
          exact hasked
      · obtain ⟨sel₁, hround, h⟩ := bind_ok h
        cases h
        have hfailed : (servers₁.serverIpArr domain).Ages ((servers₁.serverIpArr domain).ringFailed o.now i) := by
          refine (ages_fail o.now hasked i).trans ⟨rfl, fun _ => rfl, fun _ => rfl, ?_, fun _ _ => rfl⟩
          exact iff_of_false nofun hasked
        have hages₁ : servers₁.Aged { servers₁ with
            serverIpArr := update servers₁.serverIpArr domain
              ((servers₁.serverIpArr domain).ringFailed o.now i) } := .update hfailed
        obtain ⟨hages, hrest, -⟩ :=
          selectByRound_ages (hsane.aged hages₁) (hused.aged hages₁) hcurDomain hround
        exact ⟨hages₁.trans hages, hrest⟩

end

/-! ## runs -/

/-- The weights of the servers of a domain. -/
def HashConfig.weights (cfg : HashConfig) (domain : Nat) : List Int :=
  (List.range (cfg.nelts domain)).map fun i => (cfg.loc domain i).weight

/-- The nodes of servers with these weights. -/
def vnodesFor (pCeil : Int → Int → Int) (weights : List Int) : Int :=
  (weights.map fun w => pCeil (8 * weights.length * w) weights.sum).sum

/-- The process with the number of nodes that the blocks of the rings have room
for. -/
structure RingRoom where
  proxy : HashProxy
  room : Nat → Int

namespace RingRoom

variable (cfg : HashConfig) (t : RingRoom)

/-- The domain whose ring an event builds, as it is then. -/
def building (e : HashEvent) : Option (Outside × Nat × ServerArr) := do
  let (o, r, servers, target) ← t.proxy.selects cfg e
  if r.upstreamTries = 0 then
    (ringToBuild o servers { r with upstreamTries := 1 } target).map fun (domain, d) => (o, domain, d)
  else none

/-- A block is allocated if `init_state` is `IDLE`. -/
def allocate (room : Nat → Int) : Option (Outside × Nat × ServerArr) → Nat → Int
  | none => room
  | some (o, domain, d) => if d.initState = .idle then update room domain (totalVnum o d) else room

/-- One event. -/
def step (e : HashEvent) : Except Fault RingRoom := do
  let proxy ← t.proxy.step cfg e
  pure { proxy := proxy, room := allocate t.room (t.building cfg e) }

/-- The runs of the process. -/
def machine : Machine RingRoom HashEvent where
  init t := (HashProxy.machine cfg).init t.proxy
  allows t := t.proxy.Allows
  step t e := (t.step cfg e).toOption

/-- What every event keeps. -/
structure Kept (t : RingRoom) : Prop where
  sane : t.proxy.servers.Sane cfg
  used : ∀ i, ∀ p ∈ t.proxy.reqs i, t.proxy.servers.Used p.r
  room : ∀ domain, (t.proxy.servers.serverIpArr domain).initState ≠ .idle → t.room domain = vnodesFor cfg.pCeil (cfg.weights domain)

variable {cfg t} {t' : RingRoom} {e : HashEvent} {o : Outside} {domain : Nat} {d : ServerArr}

/-- While no server has failed all are up. -/
theorem runningServers_fresh {now : BitVec 32} (hmax : ∀ i, (d.upstreamServer i).maxFails = 3)
    (hfails : ∀ i, (d.upstreamServer i).fails = 0) : runningServers now d = List.range d.nelts := by
  unfold runningServers
  refine List.filter_eq_self.mpr fun i _ => ?_
  unfold isServerDown
  rw [hmax, hfails]
  rfl

theorem totalVnum_eq (o : Outside) (d : ServerArr) : totalVnum o d = vnodesFor o.pCeil (d.weightsUp o.now) := by
  unfold totalVnum vnodesFor ServerArr.weightsUp
  rw [List.map_map, List.length_map]
  rfl

/-- A ring is allocated for all servers. -/
theorem totalVnum_fresh {servers : Servers} (hsane : servers.Sane cfg) (hpCeil : o.pCeil = cfg.pCeil)
    (hidle : (servers.serverIpArr domain).initState = .idle) :
    totalVnum o (servers.serverIpArr domain) = vnodesFor cfg.pCeil (cfg.weights domain) := by
  have hweights : (servers.serverIpArr domain).weightsUp o.now = cfg.weights domain := by
    unfold ServerArr.weightsUp HashConfig.weights
    rw [runningServers_fresh (hsane.maxFails domain) (hsane.fails domain hidle), hsane.nelts]
    exact List.map_congr_left fun i _ => hsane.weight domain i
  rw [totalVnum_eq, hweights, hpCeil]

/-- The servers age, and the request of the event is the only one that changes. -/
theorem Kept.aged (h : t.Kept cfg) {proxy : HashProxy} {i : Nat} {p : Option Proxied}
    (hages : t.proxy.servers.Aged proxy.servers) (hreqs : proxy.reqs = update t.proxy.reqs i p)
    (hused : ∀ p' ∈ p, proxy.servers.Used p'.r) : Kept cfg ⟨proxy, t.room⟩ where
  sane := h.sane.aged hages
  used := fun j p' hp' => by
    dsimp only at hp' ⊢
    rw [hreqs] at hp'
    by_cases hj : j = i
    · subst hj
      rw [update_self] at hp'
      exact hused p' hp'
    · rw [update_of_ne hj] at hp'
      exact (h.used j p' hp').aged hages
  room := fun domain hasked => h.room domain fun hidle => hasked ((hages domain).idle.mpr hidle)

/-- A lookup, and the room that it allocates. -/
theorem Kept.lookup (h : t.Kept cfg) {servers' : Servers} {rings' : Nat → Option Ring} {r r' : HttpRequest}
    {target : Option (List UInt8)} (hpCeil : o.pCeil = cfg.pCeil)
    (hinit : initBeforeConsistentHashGet o t.proxy.servers t.proxy.rings r target = .ok (r', servers', rings')) :
    servers'.Sane cfg ∧ (∀ r : HttpRequest, t.proxy.servers.Used r → servers'.Used r) ∧
      (∀ domain ∈ r'.curServerDomain, (servers'.serverIpArr domain).initState = .initDone) ∧
      ∀ domain, (servers'.serverIpArr domain).initState ≠ .idle →
        allocate t.room ((ringToBuild o t.proxy.servers r target).map fun (domain, d) => (o, domain, d)) domain =
          vnodesFor cfg.pCeil (cfg.weights domain) := by
  obtain ⟨ret, servers₁, domain, hround, hdomain, hcases⟩ := initBeforeConsistentHashGet_cases hinit
  have hages := initBeforeRound_ages h.sane hround
  have hsane := h.sane.aged hages
  have hroom : ∀ domain', (servers₁.serverIpArr domain').initState ≠ .idle →
      t.room domain' = vnodesFor cfg.pCeil (cfg.weights domain') := fun domain' hasked =>
    h.room domain' fun hidle => hasked ((hages domain').idle.mpr hidle)
  obtain ⟨hbuild, hdone, rfl⟩ | ⟨hbuild, rfl, -⟩ := hcases
  · refine ⟨hsane, fun r hr => hr.aged hages, fun domain' hdomain' => ?_, fun domain' hasked => ?_⟩
    · rw [hdomain] at hdomain'
      cases hdomain'
      exact hdone
    · rw [hbuild]
      exact hroom domain' hasked
  · refine ⟨hsane.built domain, fun r hr => (hr.aged hages).built domain, fun domain' hdomain' => ?_,
      fun domain' hasked => ?_⟩
    · rw [hdomain] at hdomain'
      cases hdomain'
      exact servers₁.built_initState domain
    · rw [hbuild]
      change (if (servers₁.serverIpArr domain).initState = .idle then
        update t.room domain (totalVnum o (servers₁.serverIpArr domain)) else t.room) domain' = _
      by_cases hsame : domain' = domain
      · subst hsame
        split
        · next hidle =>
          rw [update_self]
          exact totalVnum_fresh hsane hpCeil hidle
        · next hidle => exact hroom domain' hidle
      · rw [servers₁.built_of_ne hsame] at hasked
        split
        · rw [update_of_ne hsame]
          exact hroom domain' hasked
        · exact hroom domain' hasked

/-- A forwarded request. -/
theorem Kept.forward (h : t.Kept cfg) {i : Nat} {upstream : Slot} {target : List UInt8} {o₀ : Outside}
    (hallows : t.proxy.Allows (.forward i upstream target o₀))
    (hstep : t.step cfg (.forward i upstream target o₀) = .ok t') : t'.Kept cfg := by
  obtain ⟨proxy, hproxy, hstep⟩ := bind_ok hstep
  cases hstep
  obtain ⟨p, hp, hproxy⟩ := bind_ok hproxy
  obtain ⟨sel, hsel, hproxy⟩ := bind_ok hproxy
  cases hproxy
  have hp := deref_ok hp
  obtain ⟨p₀, hp₀, -, -, htries⟩ := hallows
  obtain rfl : p = p₀ := Option.some.inj (hp.symm.trans hp₀)
  obtain ⟨r', servers', rings', hinit, hrest⟩ :=
    forward_ages (r := { p.r with upstream := some upstream }) htries hsel
  obtain ⟨hsane, hmono, hdone, hroom⟩ := h.lookup (o := t.proxy.outside cfg o₀) rfl hinit
  obtain ⟨hages, hused⟩ := hrest hsane hdone
  have hbuilding : t.building cfg (.forward i upstream target o₀) =
      (ringToBuild (t.proxy.outside cfg o₀) t.proxy.servers
        { p.r with upstream := some upstream, upstreamTries := 1 } (some target)).map
          fun (domain, d) => (t.proxy.outside cfg o₀, domain, d) := by
    unfold building HashProxy.selects
    simp only [hp, bind, Option.bind, pure, htries, if_true]
  refine ⟨hsane.aged hages, fun j p' hp' => ?_, fun domain hasked => ?_⟩
  · dsimp only at hp' ⊢
    by_cases hj : j = i
    · subst hj
      rw [update_self] at hp'
      cases hp'
      exact hused
    · rw [update_of_ne hj] at hp'
      exact (hmono _ (h.used j p' hp')).aged hages
  · have hroom := hroom domain fun hidle => hasked ((hages domain).idle.mpr hidle)
    rw [← hroom, ← hbuilding]

/-- The server of a request is changed. -/
theorem Kept.set (h : t.Kept cfg) {i : Nat} {p : Proxied} (hp : p ∈ t.proxy.reqs i) {us : ServerId}
    (hus : us ∈ p.r.curUpstream) {s : UpstreamServer} (hweight : s.weight = (t.proxy.servers.get us).weight)
    (hmaxFails : s.maxFails = (t.proxy.servers.get us).maxFails) : t.proxy.servers.Aged (t.proxy.servers.set us s) :=
  .update (.server ((h.used i p hp).server us hus) hweight hmaxFails)

/-- A callback asks no ring. -/
theorem building_result {i : Nat} {res : ConnectionResult} {o₀ : Outside} {p : Proxied} (hp : t.proxy.reqs i = some p)
    (htries : 0 < p.r.upstreamTries) : t.building cfg (.result i res o₀) = none := by
  cases res with
  | timedout => rfl
  | noSockopt => rfl
  | soError err =>
      unfold building HashProxy.selects
      cases hus : p.r.curUpstream with
      | none => simp [hp, hus]
      | some us =>
          have hne : p.r.upstreamTries ≠ 0 := Nat.ne_of_gt htries
          by_cases herr : err = 0
          · simp [hp, herr]
          · simp [hp, hus, herr, hne]

theorem Kept.result (h : t.Kept cfg) (hkept : t.proxy.Kept) {i : Nat} {res : ConnectionResult} {o₀ : Outside}
    (hallows : t.proxy.Allows (.result i res o₀)) (hstep : t.step cfg (.result i res o₀) = .ok t') : t'.Kept cfg := by
  obtain ⟨proxy, hproxy, hstep⟩ := bind_ok hstep
  cases hstep
  obtain ⟨p, hp, hproxy⟩ := bind_ok hproxy
  obtain ⟨⟨p', servers', rings'⟩, hres, hproxy⟩ := bind_ok hproxy
  cases hproxy
  have hp := deref_ok hp
  obtain ⟨p₀, hp₀, hhandler⟩ := hallows
  obtain rfl : p = p₀ := Option.some.inj (hp.symm.trans hp₀)
  have htries := hkept.pending i p hp hhandler
  rw [building_result hp htries]
  have hused := h.used i p hp
  suffices hafter : t.proxy.servers.Aged servers' ∧ servers'.Used p'.r by
    refine h.aged hafter.1 rfl fun p'' hp'' => ?_
    cases hp''
    exact hafter.2
  unfold hashConnectionResult at hres
  obtain ⟨us, hderef, hres⟩ := bind_ok hres
  have hus := deref_ok hderef
  cases res with
  | timedout =>
      cases hres
      exact ⟨.refl _, hused.domain, hused.server⟩
  | noSockopt =>
      cases hres
      exact ⟨.refl _, hused.domain, hused.server⟩
  | soError err =>
      dsimp only at hres
      split at hres
      · cases hres
        exact ⟨.refl _, hused.domain, fun us' hus' => hused.server us' (by rw [hus]; exact hus')⟩
      · obtain ⟨sel, hsel, hres⟩ := bind_ok hres
        cases hres
        obtain ⟨hweight, hmaxFails⟩ := failServer_config t.proxy.now (t.proxy.servers.get us)
        have hset := h.set hp hus hweight hmaxFails
        unfold tryConnectUpstream getServerByConsistentHash at hsel
        dsimp only at hsel
        rw [if_pos htries] at hsel
        have hcur : p.r.curServerDomain ≠ none := by
          intro hnone
          obtain ⟨ret, r₁, servers₁, hinit, -⟩ := selectByRound_cases hsel
          obtain ⟨domain, hfirst, -⟩ := initBeforeRound_cases hinit
          obtain ⟨-, name, hname, -⟩ := hfirst hnone
          contradiction
        have hnone : (t.proxy.servers.set us (failServer t.proxy.now (t.proxy.servers.get us))).Used
            { p.r with curUpstream := none } :=
          ⟨(hused.aged hset).domain, fun us' hus' => absurd hus' (Option.not_mem_none us')⟩
        obtain ⟨hages, hafter, -⟩ := selectByRound_ages (h.sane.aged hset) hnone hcur hsel
        exact ⟨hset.trans hages, hafter⟩

theorem Kept.step (h : t.Kept cfg) (hkept : t.proxy.Kept) (hallows : t.proxy.Allows e) (hstep : t.step cfg e = .ok t') :
    t'.Kept cfg := by
  cases e with
  | clock now =>
      obtain ⟨proxy, hproxy, hstep⟩ := bind_ok hstep
      cases hstep
      cases hproxy
      exact ⟨h.sane, h.used, h.room⟩
  | init =>
      obtain ⟨proxy, hproxy, hstep⟩ := bind_ok hstep
      cases hstep
      cases hproxy
      refine h.aged (.refl _) rfl fun p hp => ?_
      cases hp
      exact ⟨fun domain hdomain => absurd hdomain (Option.not_mem_none domain), fun us hus => absurd hus (Option.not_mem_none us)⟩
  | forward i upstream target o₀ => exact h.forward hallows hstep
  | result i res o₀ => exact h.result hkept hallows hstep
  | other i p' =>
      obtain ⟨proxy, hproxy, hstep⟩ := bind_ok hstep
      cases hstep
      cases hproxy
      obtain ⟨p, hp, hupstream, hdomain, -⟩ := hallows
      refine h.aged (.refl _) rfl fun p'' hp'' => ?_
      cases hp''
      have hused := h.used i p hp
      refine ⟨fun domain hmem => ?_, fun us hus => ?_⟩
      · rw [hdomain] at hmem
        exact hused.domain domain hmem
      · rw [hupstream] at hus
        exact hused.server us hus
  | close i =>
      obtain ⟨proxy, hproxy, hstep⟩ := bind_ok hstep
      cases hstep
      obtain ⟨p, hp, hproxy⟩ := bind_ok hproxy
      cases hproxy
      refine h.aged ?_ rfl fun p' hp' => absurd hp' (Option.not_mem_none p')
      change t.proxy.servers.Aged (httpCloseRequest t.proxy.now t.proxy.servers p.r).1
      unfold httpCloseRequest
      cases hus : p.r.curUpstream with
      | none => exact .refl _
      | some us =>
          obtain ⟨hweight, hmaxFails⟩ := freeServerAfterRoundSelect_config t.proxy.now (t.proxy.servers.get us)
          exact h.set (deref_ok hp) hus hweight hmaxFails
  | clear i =>
      obtain ⟨proxy, hproxy, hstep⟩ := bind_ok hstep
      cases hstep
      obtain ⟨p, hp, hproxy⟩ := bind_ok hproxy
      cases hproxy
      refine h.aged (.refl _) rfl fun p' hp' => ?_
      cases hp'
      exact ⟨fun domain hdomain => absurd hdomain (Option.not_mem_none domain),
        fun us hus => absurd hus (Option.not_mem_none us)⟩

theorem proxy_reaches (h : (machine cfg).Reaches t) : (HashProxy.machine cfg).Reaches t.proxy := by
  induction h with
  | init hinit => exact .init hinit
  | @step s s' e h hallows hstep ih =>
      change (s.step cfg e).toOption = some s' at hstep
      cases hs : s.step cfg e with
      | error f =>
          rw [hs] at hstep
          contradiction
      | ok u =>
          rw [hs] at hstep
          cases hstep
          obtain ⟨proxy, hproxy, hu⟩ := bind_ok hs
          cases hu
          refine ih.step hallows ?_
          change (s.proxy.step cfg e).toOption = some proxy
          rw [hproxy]
          rfl

theorem kept_of_reaches (h : (machine cfg).Reaches t) : t.Kept cfg := by
  induction h with
  | init hinit =>
      obtain ⟨now, garbage, hstart⟩ := hinit
      refine ⟨?_, fun i p hp => ?_, fun domain hasked => ?_⟩
      · rw [hstart]
        exact ⟨fun _ => rfl, fun _ _ => rfl, fun _ _ => rfl, fun _ _ _ => rfl⟩
      · rw [hstart] at hp
        exact absurd hp (Option.not_mem_none p)
      · rw [hstart] at hasked
        exact absurd rfl hasked
  | @step s s' e h hallows hstep ih =>
      change (s.step cfg e).toOption = some s' at hstep
      cases hs : s.step cfg e with
      | error f =>
          rw [hs] at hstep
          contradiction
      | ok u =>
          rw [hs] at hstep
          cases hstep
          exact ih.step (HashProxy.kept_of_reaches (proxy_reaches h)) hallows hs

/-! ## the room for a ring -/

/-- The event that builds a ring. -/
theorem building_cases (h : t.Kept cfg) (hkept : t.proxy.Kept) (hallows : t.proxy.Allows e)
    (hbuild : t.building cfg e = some (o, domain, d)) :
    o.pCeil = cfg.pCeil ∧ ∃ servers : Servers, servers.Sane cfg ∧ t.proxy.servers.Aged servers ∧
      d = servers.serverIpArr domain := by
  cases e with
  | forward i upstream target o₀ =>
      obtain ⟨p, hp, -, -, htries⟩ := hallows
      have hreq : t.proxy.reqs i = some p := hp
      unfold building HashProxy.selects at hbuild
      simp only [hreq, bind, Option.bind, pure, htries, if_true] at hbuild
      obtain ⟨⟨domain', d'⟩, hring, heq⟩ := Option.map_eq_some_iff.mp hbuild
      cases heq
      refine ⟨rfl, ?_⟩
      unfold ringToBuild at hring
      cases hinit : initBeforeRound (t.proxy.outside cfg o₀).now (t.proxy.outside cfg o₀).block t.proxy.servers
          { p.r with upstream := some upstream, upstreamTries := 1 } (some target) with
      | error f => simp [hinit, Except.toOption] at hring
      | ok res =>
          obtain ⟨ret, r₁, servers₁⟩ := res
          have hages := initBeforeRound_ages h.sane hinit
          refine ⟨servers₁, h.sane.aged hages, hages, ?_⟩
          simp only [hinit, Except.toOption, bind, Option.bind] at hring
          cases hdomain : r₁.curServerDomain with
          | none => simp [hdomain] at hring
          | some domain' =>
              simp only [hdomain] at hring
              split at hring
              · contradiction
              · cases hring
                rfl
  | result i res o₀ =>
      obtain ⟨p, hp, hhandler⟩ := hallows
      rw [building_result hp (hkept.pending i p hp hhandler)] at hbuild
      contradiction
  | clock now => contradiction
  | init => contradiction
  | other i p => contradiction
  | close i => contradiction
  | clear i => contradiction

/-- The nodes of servers with positive weights: eight for each, and the excess. -/
theorem vnodesFor_eq {pCeil : Int → Int → Int} (hexact : CeilsExactly pCeil) {ws : List Int}
    (hpos : ∀ w ∈ ws, 0 < w) : vnodesFor pCeil ws = 8 * ws.length + excess (8 * ws.length) ws := by
  by_cases hne : ws = []
  · subst hne
    rfl
  · have hsum := List.sum_pos ws hpos hne
    rw [← sum_shares _ hsum]
    unfold vnodesFor shares
    refine congrArg List.sum (List.map_congr_left fun w _ => ?_)
    exact hexact _ _ hsum

/-- Of at most ten servers any set has not more nodes than all of them. -/
theorem excess_le_of_sublist {ws all : List Int} (hsub : ws.Sublist all) (hpos : ∀ w ∈ all, 0 < w)
    (hten : all.length ≤ 10) :
    excess (8 * ws.length) ws ≤ excess (8 * all.length) all + 8 * (all.length - ws.length) := by
  by_cases hlength : ws.length = all.length
  · rw [hsub.eq_of_length hlength]
    omega
  · have hle := hsub.length_le
    have hall : 0 ≤ excess (8 * all.length) all := by
      refine excess_nonneg _ (List.sum_pos _ hpos ?_)
      rintro rfl
      exact hlength (Nat.le_zero.mp hle)
    by_cases hne : ws = []
    · subst hne
      have hzero : excess (8 * ([] : List Int).length) [] = 0 := rfl
      rw [hzero]
      omega
    · have hlt := excess_lt (8 * ws.length) (List.sum_pos ws (fun w hw => hpos w (hsub.subset hw)) hne)
      omega

/-- A ring that is built again has room exactly if the rounding adds to it what
it added to the first one, or not more than eight for each server that is down;
with at most ten servers it always has. -/
theorem ring_room_iff (hexact : CeilsExactly cfg.pCeil)
    (hweight : ∀ domain, ∀ i < cfg.nelts domain, 0 < (cfg.loc domain i).weight) (h : (machine cfg).Reaches t)
    (hallows : t.proxy.Allows e) (hbuild : t.building cfg e = some (o, domain, d)) (hagain : d.initState ≠ .idle) :
    (((vnodesWritten o d).length : Int) ≤ t.room domain ↔
        excess (8 * (d.weightsUp o.now).length) (d.weightsUp o.now) ≤
          excess (8 * (cfg.weights domain).length) (cfg.weights domain) +
            8 * ((cfg.weights domain).length - (d.weightsUp o.now).length)) ∧
      (cfg.nelts domain ≤ 10 → ((vnodesWritten o d).length : Int) ≤ t.room domain) := by
  have hkept := kept_of_reaches h
  obtain ⟨hpCeil, servers, hsane, hages, rfl⟩ :=
    building_cases hkept (HashProxy.kept_of_reaches (proxy_reaches h)) hallows hbuild
  have hall : ∀ w ∈ cfg.weights domain, 0 < w := by
    intro w hw
    obtain ⟨i, hi, rfl⟩ := List.mem_map.mp hw
    exact hweight domain i (List.mem_range.mp hi)
  have hsub : ((servers.serverIpArr domain).weightsUp o.now).Sublist (cfg.weights domain) := by
    have hmap := (List.filter_sublist (p := fun i => !isServerDown o.now ((servers.serverIpArr domain).upstreamServer i))
      (l := List.range (servers.serverIpArr domain).nelts)).map
        fun i => ((servers.serverIpArr domain).upstreamServer i).weight
    rw [hsane.nelts] at hmap
    simp only [hsane.weight] at hmap
    unfold ServerArr.weightsUp runningServers HashConfig.weights
    rw [hsane.nelts]
    simp only [hsane.weight]
    exact hmap
  have hpos : ∀ w ∈ (servers.serverIpArr domain).weightsUp o.now, 0 < w := fun w hw => hall w (hsub.subset hw)
  have hroom : t.room domain = 8 * (cfg.weights domain).length + excess (8 * (cfg.weights domain).length) (cfg.weights domain) := by
    rw [hkept.room domain fun hidle => hagain ((hages domain).idle.mpr hidle), vnodesFor_eq hexact hall]
  have hexact' : CeilsExactly o.pCeil := hpCeil ▸ hexact
  have hwritten : ((vnodesWritten o (servers.serverIpArr domain)).length : Int) =
      8 * ((servers.serverIpArr domain).weightsUp o.now).length +
        excess (8 * ((servers.serverIpArr domain).weightsUp o.now).length)
          ((servers.serverIpArr domain).weightsUp o.now) := by
    rw [← vnodesFor_eq hexact' hpos, ← totalVnum_eq]
    refine length_vnodesWritten fun i hi => ?_
    have hw := hpos _ (List.mem_map_of_mem hi)
    have hsum : 0 < ((servers.serverIpArr domain).weightsUp o.now).sum :=
      List.sum_pos _ hpos (List.ne_nil_of_mem (List.mem_map_of_mem hi))
    unfold vnodesOfServer
    rw [hexact' _ _ hsum]
    exact ceilDiv_nonneg (Int.mul_nonneg (by omega) (Int.le_of_lt hw)) hsum
  rw [hwritten, hroom]
  refine ⟨by omega, fun hten => ?_⟩
  have hlength : (cfg.weights domain).length ≤ 10 := by
    unfold HashConfig.weights
    rw [List.length_map, List.length_range]
    exact hten
  have hle := excess_le_of_sublist hsub hall hlength
  omega

/-! ## runs of two and of eleven servers -/

instance decidableMachineAllows (cfg : HashConfig) (t : RingRoom) (e : HashEvent) :
    Decidable ((machine cfg).allows t e) := inferInstanceAs (Decidable (t.proxy.Allows e))

/-- Whether an event may be next and has a ring built again, so that `q` holds. -/
def buildTest (cfg : HashConfig) (e : HashEvent) (q : Outside → Nat → ServerArr → RingRoom → Bool) (t : RingRoom) :
    Bool :=
  decide (t.proxy.Allows e) && (t.building cfg e).any fun (o, domain, d) =>
    decide (d.initState ≠ .idle) && q o domain d t

theorem building_of_buildTest {q : Outside → Nat → ServerArr → RingRoom → Bool} (h : buildTest cfg e q t = true) :
    t.proxy.Allows e ∧ ∃ o domain d, t.building cfg e = some (o, domain, d) ∧ d.initState ≠ .idle ∧ q o domain d t = true := by
  unfold buildTest at h
  rw [Bool.and_eq_true, decide_eq_true_eq, Option.any_eq_true] at h
  obtain ⟨hallows, ⟨o, domain, d⟩, hbuild, hq⟩ := h
  rw [Bool.and_eq_true, decide_eq_true_eq] at hq
  exact ⟨hallows, o, domain, d, hbuild, hq.1, hq.2⟩

theorem sortingClient_exactly : CeilsExactly sortingClient.pCeil := by
  intro a b hb
  change (if b = 0 then 0 else (a + b - 1) / b) = ceilDiv a b
  rw [if_neg (by omega)]
  refine le_antisymm ?_ ?_
  · have hle := (ceilDiv_le_iff hb (ceilDiv a b)).mp le_rfl
    refine Int.lt_add_one_iff.mp (Int.ediv_lt_of_lt_mul hb ?_)
    rw [Int.add_mul]
    omega
  · rw [ceilDiv_le_iff hb]
    have hlt := Int.lt_ediv_add_one_mul_self (a + b - 1) hb
    rw [Int.add_mul] at hlt
    omega

/-- The process as it is started. -/
def start (cfg : HashConfig) : RingRoom := ⟨HashProxy.start cfg 0 fun _ => .zeros, fun _ => 0⟩

theorem reaches_start (cfg : HashConfig) : (machine cfg).Reaches (start cfg) := .init ⟨0, _, rfl⟩

/-- The connect of the first request is in progress, and the ring built again for
the second one. -/
theorem ring_room_two :
    ∃ t o domain d, (machine HashProxy.twoServers).Reaches t ∧
      t.building HashProxy.twoServers (HashProxy.forwardTo 1 .ok) = some (o, domain, d) ∧ d.initState ≠ .idle ∧
      ((vnodesWritten o d).length : Int) ≤ t.room domain := by
  obtain ⟨t, h, htest⟩ := Machine.Reaches.exists_of_runTest
    (buildTest HashProxy.twoServers (HashProxy.forwardTo 1 .ok) fun _ domain _ _ => decide (domain = 0))
    [.init, HashProxy.forwardTo 0 .again, .init] (reaches_start HashProxy.twoServers) (by decide +kernel)
  obtain ⟨hallows, o, domain, d, hbuild, hagain, hdomain⟩ := building_of_buildTest htest
  refine ⟨t, o, domain, d, h, hbuild, hagain, ?_⟩
  exact (ring_room_iff sortingClient_exactly (fun _ _ _ => Int.zero_lt_one) h hallows hbuild hagain).2
    (by change 2 ≤ 10; decide)

/-- One domain with eleven servers, whose weights add up to 88. -/
def elevenServers : HashConfig where
  domains := 1
  name := fun _ => [98]
  nelts := fun _ => 11
  loc := fun _ i =>
    { host := [49, 50, 55, 46, 48, 46, 48, 46, 49], weight := [8, 8, 8, 8, 8, 8, 8, 8, 8, 7, 9].getD i 8 }
  pCeil := sortingClient.pCeil
  qsort := sortingClient.qsort

/-- A request of a client that the ring leads to the last server, whose connect
fails. -/
def failLast (i : Nat) : HashEvent :=
  .forward i 0 [98] { sortingClient with
    ip := hashKeyFunction [49, 50, 55, 46, 48, 46, 48, 46, 49] + 10
    conn := fun k => if k = 1 then .error else .ok }

/-- Three such requests, and the ring without that server has a node more than
the first one. -/
theorem ring_room_eleven :
    ∃ t o domain d, (machine elevenServers).Reaches t ∧ t.proxy.Allows (failLast 3) ∧
      t.building elevenServers (failLast 3) = some (o, domain, d) ∧ d.initState ≠ .idle ∧
      t.room domain < (vnodesWritten o d).length := by
  obtain ⟨t, h, htest⟩ := Machine.Reaches.exists_of_runTest
    (buildTest elevenServers (failLast 3) fun o domain d t => decide (t.room domain < (vnodesWritten o d).length))
    [.init, failLast 0, .init, failLast 1, .init, failLast 2, .init] (reaches_start elevenServers) (by decide +kernel)
  obtain ⟨hallows, o, domain, d, hbuild, hagain, hroom⟩ := building_of_buildTest htest
  exact ⟨t, o, domain, d, h, hallows, hbuild, hagain, of_decide_eq_true hroom⟩

end RingRoom

end PWebServer
