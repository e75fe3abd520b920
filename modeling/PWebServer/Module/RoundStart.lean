import PWebServer.Module.RingState

/-!
# Module.RoundStart

What `init_before_round` leaves behind: a domain none of whose servers has been
tried, and all other domains as they were.

It is the domain of the request that is looked up on the first selection; on a
retry it is the first one that is reset.  A bitmap of more than one word is as
`pMalloc` returns it.
-/

namespace PWebServer

open Function

instance decidableMarked (tried : Nat → BitVec 64) (i : Nat) : Decidable (Marked tried i) :=
  inferInstanceAs (Decidable (_ ≠ _))

/-- No server of the domain has been tried, and none has failed. -/
structure ServerArr.Untried (d : ServerArr) : Prop where
  unmarked : ∀ i < d.nelts, ¬ Marked d.tried i
  connSuc : ∀ i < d.nelts, (d.upstreamServer i).state = .connSuc

/-- Nothing of the domain is different. -/
structure ServerArr.Unchanged (d d' : ServerArr) : Prop where
  domainName : d'.domainName = d.domainName
  nelts : d'.nelts = d.nelts
  initState : d'.initState = d.initState
  server : ∀ i < d.nelts, d'.upstreamServer i = d.upstreamServer i
  marked : ∀ i < d.nelts, Marked d'.tried i ↔ Marked d.tried i

/-- After `init_before_round` for `domain`. -/
structure StartsRound (servers servers₁ : Servers) (domain : Nat) : Prop where
  untried : (servers₁.serverIpArr domain).Untried
  others : ∀ other < servers.nelts, other ≠ domain →
    (servers.serverIpArr other).Unchanged (servers₁.serverIpArr other)

/-- The words that `pMalloc` returns for a bitmap mark a server of the domain. -/
def BlockMarks (block : Option (Nat → BitVec 64)) (d : ServerArr) (i : Nat) : Prop :=
  64 < d.nelts ∧ ∃ words ∈ block, Marked words i

/-- A reset finds nothing to change. -/
structure ServerArr.Settled (now : BitVec 32) (block : Option (Nat → BitVec 64)) (d : ServerArr) : Prop where
  connSuc : ∀ i < d.nelts, (d.upstreamServer i).state = .connSuc
  fails : ∀ i < d.nelts, (d.upstreamServer i).Spent → inFailTimeDuration now (d.upstreamServer i) = false →
    (d.upstreamServer i).fails = 0
  modified : anyTimedOut now d = true → d.initState = .modified
  marked : ∀ i < d.nelts, Marked d.tried i ↔ BlockMarks block d i

section

variable {now : BitVec 32} {block : Option (Nat → BitVec 64)} {d d' : ServerArr} {servers servers₁ : Servers}
  {r r₁ : HttpRequest} {target : Option (List UInt8)} {domain : Nat}

theorem ServerArr.Unchanged.refl (d : ServerArr) : d.Unchanged d :=
  ⟨rfl, rfl, rfl, fun _ _ => rfl, fun _ _ => Iff.rfl⟩

theorem resetTried_domainName (h : resetTried block d = some d') : d'.domainName = d.domainName := by
  unfold resetTried at h
  split at h
  · cases h
    rfl
  · obtain ⟨words, -, rfl⟩ := Option.map_eq_some_iff.mp h
    rfl

/-- Which servers the bitmap of a round marks from the start. -/
theorem marked_resetTried (h : resetTried block d = some d') (i : Nat) :
    Marked d'.tried i ↔ BlockMarks block d i := by
  unfold resetTried at h
  unfold BlockMarks
  split at h
  · next hle =>
    cases h
    refine iff_of_false (fun hmarked => hmarked ?_) fun hblock => absurd hblock.1 (not_lt.mpr hle)
    exact BitVec.zero_and
  · next hlt =>
    obtain ⟨words, hwords, rfl⟩ := Option.map_eq_some_iff.mp h
    constructor
    · exact fun hmarked => ⟨not_le.mp hlt, words, hwords, hmarked⟩
    · rintro ⟨-, words', hwords', hmarked⟩
      rw [hwords] at hwords'
      cases hwords'
      exact hmarked

theorem anyTimedOut_resetTried (h : resetTried block d = some d') : anyTimedOut now d' = anyTimedOut now d := by
  obtain ⟨hnelts, hserver, -⟩ := resetTried_same h
  unfold anyTimedOut
  rw [hnelts, hserver]

/-- The domain that is reset. -/
theorem untried_reset (h : resetTried block d = some d') :
    (resetServers now d').Untried ↔ ∀ i < d.nelts, ¬ BlockMarks block d i := by
  obtain ⟨hnelts, -, -⟩ := resetTried_same h
  have hsame : (resetServers now d').nelts = d.nelts := hnelts
  constructor
  · intro huntried i hi hblock
    refine huntried.unmarked i (by rw [hsame]; exact hi) ?_
    exact (marked_resetTried h i).mpr hblock
  · intro hnone
    refine ⟨fun i hi hmarked => ?_, fun i hi => ?_⟩
    · rw [hsame] at hi
      exact hnone i hi ((marked_resetTried h i).mp hmarked)
    · rw [resetServers_server now d' hi]
      rfl

theorem resetServer_eq_iff (now : BitVec 32) (s : UpstreamServer) :
    resetServer now s = s ↔
      s.state = .connSuc ∧ (s.Spent → inFailTimeDuration now s = false → s.fails = 0) := by
  have hfields : resetServer now s = s ↔
      (if s.maxFails ≤ s.fails ∧ ¬ inFailTimeDuration now s then 0 else s.fails) = s.fails ∧
        ConnState.connSuc = s.state := by
    constructor
    · intro heq
      exact ⟨congrArg UpstreamServer.fails heq, congrArg UpstreamServer.state heq⟩
    · rintro ⟨hfails, hstate⟩
      unfold resetServer
      rw [hfails, hstate]
  rw [hfields, and_comm, eq_comm (a := ConnState.connSuc)]
  refine and_congr_right fun _ => ?_
  unfold UpstreamServer.Spent
  cases inFailTimeDuration now s with
  | true => simp
  | false =>
      by_cases hspent : s.maxFails ≤ s.fails
      · simp [hspent, eq_comm]
      · simp [hspent]

/-- A domain that is reset although it is another's turn. -/
theorem unchanged_reset (h : resetTried block d = some d') :
    d.Unchanged (resetServers now d') ↔ d.Settled now block := by
  obtain ⟨hnelts, hserver, hstate⟩ := resetTried_same h
  have hservers : ∀ i < d.nelts, (resetServers now d').upstreamServer i = resetServer now (d.upstreamServer i) := by
    intro i hi
    rw [resetServers_server now d' (by rw [hnelts]; exact hi), hserver]
  have hinit : (resetServers now d').initState = if anyTimedOut now d then .modified else d.initState := by
    rw [← anyTimedOut_resetTried h, ← hstate]
    rfl
  constructor
  · intro hsame
    have hreset : ∀ i < d.nelts, resetServer now (d.upstreamServer i) = d.upstreamServer i := fun i hi =>
      (hservers i hi).symm.trans (hsame.server i hi)
    refine ⟨fun i hi => ((resetServer_eq_iff now _).mp (hreset i hi)).1,
      fun i hi => ((resetServer_eq_iff now _).mp (hreset i hi)).2, fun htimed => ?_, fun i hi => ?_⟩
    · rw [← hsame.initState, hinit, if_pos htimed]
    · rw [← hsame.marked i hi]
      exact marked_resetTried h i
  · intro hsettled
    refine ⟨?_, hnelts, ?_, fun i hi => ?_, fun i hi => ?_⟩
    · change d'.domainName = d.domainName
      exact resetTried_domainName h
    · rw [hinit]
      split
      · next htimed => exact (hsettled.modified htimed).symm
      · rfl
    · rw [hservers i hi]
      exact (resetServer_eq_iff now _).mpr ⟨hsettled.connSuc i hi, hsettled.fails i hi⟩
    · rw [hsettled.marked i hi]
      exact marked_resetTried h i

/-- The domain that is reset: that of a first selection, or else the first one. -/
theorem initBeforeRound_ok (h : initBeforeRound now block servers r target = .ok (.ok, r₁, servers₁))
    (hdomain : r₁.curServerDomain = some domain) :
    ∃ d, resetTried block (servers.serverIpArr (if r.curServerDomain = none then domain else 0)) = some d ∧
      servers₁ = { servers with
        serverIpArr := update servers.serverIpArr (if r.curServerDomain = none then domain else 0)
          (resetServers now d) } := by
  unfold initBeforeRound at h
  by_cases hnone : r.curServerDomain = none
  · cases target with
    | none => simp [hnone, bind, Except.bind] at h
    | some name =>
        simp only [hnone, bind, Except.bind, deref_some, pure, Except.pure, if_true] at h
        split at h
        · contradiction
        · split at h
          · cases h
          · next d htried =>
            cases h
            cases hdomain
            rw [if_pos hnone]
            exact ⟨d, htried, rfl⟩
  · simp only [hnone, bind, Except.bind, pure, Except.pure, if_false] at h
    split at h
    · contradiction
    · split at h
      · cases h
      · next d htried =>
        cases h
        rw [if_neg hnone]
        exact ⟨d, htried, rfl⟩

/-- The round starts afresh exactly if it is the domain of the request that is
reset, with no marks in the block that it may get; or, where it is the first
domain that is reset instead, if there is nothing to reset in either. -/
theorem initBeforeRound_starts_iff (h : initBeforeRound now block servers r target = .ok (.ok, r₁, servers₁))
    (hdomain : r₁.curServerDomain = some domain) (hlt : domain < servers.nelts) :
    StartsRound servers servers₁ domain ↔
      (r.curServerDomain = none ∨ domain = 0) ∧
          (∀ i < (servers.serverIpArr domain).nelts, ¬ BlockMarks block (servers.serverIpArr domain) i) ∨
        (r.curServerDomain ≠ none ∧ domain ≠ 0) ∧ (servers.serverIpArr domain).Untried ∧
          (servers.serverIpArr 0).Settled now block := by
  obtain ⟨d, htried, rfl⟩ := initBeforeRound_ok h hdomain
  by_cases hown : r.curServerDomain = none ∨ domain = 0
  · have hreset : (if r.curServerDomain = none then domain else 0) = domain := by
      split
      · rfl
      · next hsome => exact (hown.resolve_left hsome).symm
    have hnot : ¬ (r.curServerDomain ≠ none ∧ domain ≠ 0) := fun hother => hown.elim hother.1 hother.2
    rw [hreset] at htried ⊢
    simp only [hown, hnot, true_and, false_and, or_false]
    constructor
    · intro hstarts
      have huntried := hstarts.untried
      dsimp only at huntried
      rw [update_self] at huntried
      exact (untried_reset htried).mp huntried
    · intro hnone
      refine ⟨?_, fun other _ hother => ?_⟩
      · dsimp only
        rw [update_self]
        exact (untried_reset htried).mpr hnone
      · dsimp only
        rw [update_of_ne hother]
        exact .refl _
  · obtain ⟨hsome, hne⟩ := not_or.mp hown
    have hother : r.curServerDomain ≠ none ∧ domain ≠ 0 := ⟨hsome, hne⟩
    rw [if_neg hsome] at htried ⊢
    simp only [hsome, hne, ne_eq, not_false_eq_true, true_and, false_and, false_or]
    constructor
    · intro hstarts
      have huntried := hstarts.untried
      have hfirst := hstarts.others 0 (Nat.zero_lt_of_lt hlt) (Ne.symm hne)
      dsimp only at huntried hfirst
      rw [update_of_ne hne] at huntried
      rw [update_self] at hfirst
      exact ⟨huntried, (unchanged_reset htried).mp hfirst⟩
    · rintro ⟨huntried, hsettled⟩
      refine ⟨?_, fun other _ _ => ?_⟩
      · dsimp only
        rw [update_of_ne hne]
        exact huntried
      · dsimp only
        by_cases hzero : other = 0
        · subst hzero
          rw [update_self]
          exact (unchanged_reset htried).mpr hsettled
        · rw [update_of_ne hzero]
          exact .refl _

/-- Two domains with `n` servers each. -/
def twoDomains (n : Nat) : Servers where
  nelts := 2
  serverIpArr := fun domain =>
    upstreamProcessInit .roundMode (if domain = 0 then [97] else [98]) n (fun _ => {}) .zeros

/-- A first selection for the second domain. -/
theorem initBeforeRound_starts_first :
    ∃ r₁ servers₁, initBeforeRound 0 none (twoDomains 2) {} (some [98]) = .ok (.ok, r₁, servers₁) ∧
      StartsRound (twoDomains 2) servers₁ 1 := by
  have hiff := @initBeforeRound_starts_iff 0 none (twoDomains 2) _ {} _ (some [98]) 1 rfl rfl (by decide)
  refine ⟨_, _, rfl, hiff.mpr (.inl ⟨.inl rfl, fun i _ hblock => ?_⟩)⟩
  obtain ⟨-, words, hwords, -⟩ := hblock
  exact absurd hwords (Option.not_mem_none words)

/-- A retry for the second domain, after the connect to the server of the first
selection has failed; and a first selection among 65 servers, whose bitmap is a
block of ones. -/
theorem initBeforeRound_marked :
    (∃ r servers us r₁ servers₁,
      (getServerByRound 0 (fun _ => .again) none (twoDomains 2) {} (some [98])).toOption.map
          (fun res => (res.1, res.2.1)) = some (r, servers) ∧ r.curUpstream = some us ∧
        initBeforeRound 0 none (servers.set us (failServer 0 (servers.get us))) { r with curUpstream := none } none =
          .ok (.ok, r₁, servers₁) ∧
        r₁.curServerDomain = some 1 ∧
        ¬ StartsRound (servers.set us (failServer 0 (servers.get us))) servers₁ 1) ∧
      ∃ r₁ servers₁, initBeforeRound 0 (some fun _ => -1#64) (twoDomains 65) {} (some [98]) =
          .ok (.ok, r₁, servers₁) ∧ r₁.curServerDomain = some 1 ∧ ¬ StartsRound (twoDomains 65) servers₁ 1 := by
  constructor
  · refine ⟨_, _, (1, 0), _, _, rfl, rfl, rfl, rfl, fun hstarts => ?_⟩
    exact absurd (hstarts.untried.connSuc 0 (by decide)) (by decide)
  · refine ⟨_, _, rfl, rfl, fun hstarts => ?_⟩
    exact hstarts.untried.unmarked 0 (by decide) (by decide)

end

end PWebServer
