import PWebServer.Module.Ring
import PWebServer.Module.Selections

/-!
# Module.RingState

Whether the ring of a domain is still that of the servers that are up.

After `init_before_round` a server is down exactly if it is spent: `max_fails`
connects to it have failed.  A ring is built for the servers that are not spent,
and holds as long as nothing changes which ones are: `Follows` says so of one
change, `RingsHold` is what it keeps.
-/

namespace PWebServer

open Function

/-- As many connects to the server have failed as are let pass. -/
def UpstreamServer.Spent (s : UpstreamServer) : Prop := s.maxFails ≤ s.fails

instance (s : UpstreamServer) : Decidable s.Spent := inferInstanceAs (Decidable (_ ≤ _))

/-- Every server has a weight and may fail. -/
structure ServerArr.Configured (d : ServerArr) : Prop where
  weight : ∀ i < d.nelts, 0 < (d.upstreamServer i).weight
  maxFails : ∀ i < d.nelts, 0 < (d.upstreamServer i).maxFails

/-- A change after which the ring, if `init_state` still says so, is as good as
before. -/
structure ServerArr.Follows (d d' : ServerArr) : Prop where
  nelts : d'.nelts = d.nelts
  weight : ∀ i, (d'.upstreamServer i).weight = (d.upstreamServer i).weight
  maxFails : ∀ i, (d'.upstreamServer i).maxFails = (d.upstreamServer i).maxFails
  spent : d'.initState = .initDone → d.initState = .initDone ∧
    ∀ i < d.nelts, (d'.upstreamServer i).Spent ↔ (d.upstreamServer i).Spent

/-- The ring, if `init_state` says that it is valid, is that of the servers that
are not spent. -/
def ServerArr.RingHolds (d : ServerArr) (ring : Option Ring) : Prop :=
  d.initState = .initDone →
    ∃ ring', ring = some ring' ∧ ∀ i, i ∈ ring'.owners ↔ i < d.nelts ∧ ¬ (d.upstreamServer i).Spent

/-- The rings of all domains hold. -/
structure RingsHold (servers : Servers) (rings : Nat → Option Ring) : Prop where
  configured : ∀ domain, (servers.serverIpArr domain).Configured
  holds : ∀ domain, (servers.serverIpArr domain).RingHolds (rings domain)

/-- Whoever is released does not become spent by that, nor stops to be, while the
ring is valid; `s` is what the server is then. -/
def Servers.Steady (servers : Servers) (us : ServerId) (s : UpstreamServer) : Prop :=
  (servers.serverIpArr us.1).initState = .initDone → (s.Spent ↔ (servers.get us).Spent)

instance (servers : Servers) (us : ServerId) (s : UpstreamServer) : Decidable (servers.Steady us s) :=
  inferInstanceAs (Decidable (_ → _))

section

variable {d d' d'' : ServerArr} {servers servers₁ : Servers} {rings : Nat → Option Ring} {ring : Option Ring}
  {now : BitVec 32} {domain : Nat} {block : Option (Nat → BitVec 64)} {r r₁ : HttpRequest}
  {target : Option (List UInt8)} {ret : Ret} {conn : Nat → Ret} {us : ServerId}

/-! ## changes -/

theorem ServerArr.Follows.refl (d : ServerArr) : d.Follows d :=
  ⟨rfl, fun _ => rfl, fun _ => rfl, fun h => ⟨h, fun _ _ => Iff.rfl⟩⟩

theorem ServerArr.Follows.trans (h : d.Follows d') (h' : d'.Follows d'') : d.Follows d'' where
  nelts := h'.nelts.trans h.nelts
  weight := fun i => (h'.weight i).trans (h.weight i)
  maxFails := fun i => (h'.maxFails i).trans (h.maxFails i)
  spent := fun hdone => by
    obtain ⟨hdone', hspent'⟩ := h'.spent hdone
    obtain ⟨hdone'', hspent⟩ := h.spent hdone'
    refine ⟨hdone'', fun i hi => (hspent' i ?_).trans (hspent i hi)⟩
    rw [h.nelts]
    exact hi

theorem ServerArr.Follows.configured (h : d.Follows d') (hd : d.Configured) : d'.Configured where
  weight := fun i hi => by
    rw [h.nelts] at hi
    rw [h.weight]
    exact hd.weight i hi
  maxFails := fun i hi => by
    rw [h.nelts] at hi
    rw [h.maxFails]
    exact hd.maxFails i hi

theorem ServerArr.Follows.ringHolds (h : d.Follows d') (hd : d.RingHolds ring) : d'.RingHolds ring := by
  intro hdone
  obtain ⟨hdone', hspent⟩ := h.spent hdone
  obtain ⟨ring', hring, howners⟩ := hd hdone'
  refine ⟨ring', hring, fun i => ?_⟩
  rw [howners, h.nelts]
  exact and_congr_right fun hi => not_congr (hspent i hi).symm

theorem RingsHold.follow (h : RingsHold servers rings)
    (hfollows : ∀ domain, (servers.serverIpArr domain).Follows (servers₁.serverIpArr domain)) :
    RingsHold servers₁ rings :=
  ⟨fun domain => (hfollows domain).configured (h.configured domain),
    fun domain => (hfollows domain).ringHolds (h.holds domain)⟩

/-- A change of one domain. -/
theorem RingsHold.update (h : RingsHold servers rings) (hfollows : (servers.serverIpArr domain).Follows d) :
    RingsHold { servers with serverIpArr := Function.update servers.serverIpArr domain d } rings := by
  refine h.follow fun domain' => ?_
  dsimp only
  by_cases hsame : domain' = domain
  · subst hsame
    rw [update_self]
    exact hfollows
  · rw [update_of_ne hsame]
    exact .refl _

/-- One server is changed. -/
theorem ServerArr.Follows.server {s : UpstreamServer} {i : Nat} (hweight : s.weight = (d.upstreamServer i).weight)
    (hmaxFails : s.maxFails = (d.upstreamServer i).maxFails)
    (hspent : d.initState = .initDone → (s.Spent ↔ (d.upstreamServer i).Spent)) :
    d.Follows { d with upstreamServer := Function.update d.upstreamServer i s } := by
  have hother : ∀ {α : Type} (f : UpstreamServer → α), f s = f (d.upstreamServer i) → ∀ j,
      f (Function.update d.upstreamServer i s j) = f (d.upstreamServer j) := by
    intro α f hf j
    by_cases hj : j = i
    · subst hj
      rw [update_self]
      exact hf
    · rw [update_of_ne hj]
  refine ⟨rfl, hother _ hweight, hother _ hmaxFails, fun hdone => ⟨hdone, fun j _ => ?_⟩⟩
  exact iff_of_eq (hother UpstreamServer.Spent (propext (hspent hdone)) j)

/-- The ring is no longer valid. -/
theorem ServerArr.Follows.modified (h : d.Follows d') (hstate : d''.initState ≠ .initDone)
    (hsame : d''.nelts = d'.nelts ∧ d''.upstreamServer = d'.upstreamServer) : d.Follows d'' where
  nelts := hsame.1.trans h.nelts
  weight := fun i => by
    rw [hsame.2]
    exact h.weight i
  maxFails := fun i => by
    rw [hsame.2]
    exact h.maxFails i
  spent := fun hdone => absurd hdone hstate

/-! ## what the balancer does to a domain -/

theorem freeServerAfterRoundSelect_config (now : BitVec 32) (s : UpstreamServer) :
    (freeServerAfterRoundSelect now s).weight = s.weight ∧
      (freeServerAfterRoundSelect now s).maxFails = s.maxFails := by
  unfold freeServerAfterRoundSelect
  split
  · exact ⟨rfl, rfl⟩
  · split
    · exact ⟨rfl, rfl⟩
    · exact ⟨rfl, rfl⟩

theorem failServer_config (now : BitVec 32) (u : UpstreamServer) :
    (failServer now u).weight = u.weight ∧ (failServer now u).maxFails = u.maxFails :=
  freeServerAfterRoundSelect_config now { u with state := .connFail }

/-- A failed server is released. -/
theorem follows_fail {i : Nat}
    (hsteady : d.initState = .initDone →
      ((failServer now (d.upstreamServer i)).Spent ↔ (d.upstreamServer i).Spent)) :
    d.Follows { d with
      upstreamServer := update d.upstreamServer i (failServer now (d.upstreamServer i)) } := by
  obtain ⟨hweight, hmaxFails⟩ := failServer_config now (d.upstreamServer i)
  exact .server hweight hmaxFails hsteady

/-- A server of a domain is replaced. -/
theorem RingsHold.set {s : UpstreamServer} (h : RingsHold servers rings)
    (hweight : s.weight = (servers.get us).weight) (hmaxFails : s.maxFails = (servers.get us).maxFails)
    (hsteady : servers.Steady us s) : RingsHold (servers.set us s) rings :=
  h.update (.server hweight hmaxFails hsteady)

theorem not_anyTimedOut (h : anyTimedOut now d = false) {i : Nat} (hi : i < d.nelts)
    (hspent : (d.upstreamServer i).Spent) : inFailTimeDuration now (d.upstreamServer i) = true := by
  unfold anyTimedOut at h
  rw [List.any_eq_false] at h
  have hnot := h i (List.mem_range.mpr hi)
  unfold UpstreamServer.Spent at hspent
  simpa [hspent] using hnot

/-- Which servers are down does not change as those whose time is over start
afresh. -/
theorem isServerDown_resetServer (s : UpstreamServer) : isServerDown now (resetServer now s) = isServerDown now s := by
  have hsame : inFailTimeDuration now (resetServer now s) = inFailTimeDuration now s := rfl
  have hmax : (resetServer now s).maxFails = s.maxFails := rfl
  unfold isServerDown
  rw [hsame, hmax]
  cases hfail : inFailTimeDuration now s with
  | false => rw [Bool.and_false, Bool.and_false]
  | true =>
      have hfails : (resetServer now s).fails = s.fails := if_neg (by simp [hfail])
      rw [hfails]

theorem resetServers_server (now : BitVec 32) (d : ServerArr) {i : Nat} (hi : i < d.nelts) :
    (resetServers now d).upstreamServer i = resetServer now (d.upstreamServer i) := if_pos hi

theorem runningServers_resetServers : runningServers now (resetServers now d) = runningServers now d := by
  unfold runningServers
  refine List.filter_congr fun i hi => ?_
  rw [resetServers_server now d (List.mem_range.mp hi), isServerDown_resetServer]

/-- The last loop of `init_before_round`. -/
theorem follows_resetServers (now : BitVec 32) (d : ServerArr) : d.Follows (resetServers now d) := by
  have hfield : ∀ {α : Type} (f : UpstreamServer → α), (∀ s, f (resetServer now s) = f s) → ∀ i,
      f ((resetServers now d).upstreamServer i) = f (d.upstreamServer i) := by
    intro α f hf i
    unfold resetServers
    dsimp only
    split
    · exact hf _
    · rfl
  refine ⟨rfl, hfield _ fun _ => rfl, hfield _ fun _ => rfl, fun hdone => ?_⟩
  unfold resetServers at hdone
  dsimp only at hdone
  cases htimed : anyTimedOut now d with
  | true =>
      rw [htimed] at hdone
      contradiction
  | false =>
      rw [htimed] at hdone
      refine ⟨hdone, fun i hi => ?_⟩
      rw [resetServers_server now d hi]
      have hfails : (resetServer now (d.upstreamServer i)).fails = (d.upstreamServer i).fails := by
        refine if_neg fun htime => htime.2 ?_
        exact not_anyTimedOut htimed hi htime.1
      unfold UpstreamServer.Spent
      rw [hfails]
      exact Iff.rfl

/-- A server whose time is not over is down exactly if it is spent. -/
theorem isServerDown_iff {s : UpstreamServer} (hpos : 0 < s.maxFails)
    (htime : s.Spent → inFailTimeDuration now s = true) : isServerDown now s = true ↔ s.Spent := by
  unfold isServerDown
  rw [Bool.and_eq_true, Bool.and_eq_true, decide_eq_true_eq, decide_eq_true_eq]
  exact ⟨fun h => h.1.2, fun hspent => ⟨⟨by omega, hspent⟩, htime hspent⟩⟩

/-- A server that starts afresh is not spent. -/
theorem resetServer_time {s : UpstreamServer} (hpos : 0 < s.maxFails) (hspent : (resetServer now s).Spent) :
    inFailTimeDuration now (resetServer now s) = true := by
  change s.maxFails ≤ (if s.maxFails ≤ s.fails ∧ ¬ inFailTimeDuration now s then 0 else s.fails) at hspent
  change inFailTimeDuration now s = true
  split at hspent
  · omega
  · next hnot =>
    by_contra htime
    exact hnot ⟨hspent, htime⟩

/-! ## selections by rotation -/

theorem resetTried_same (h : resetTried block d = some d') :
    d'.nelts = d.nelts ∧ d'.upstreamServer = d.upstreamServer ∧ d'.initState = d.initState := by
  unfold resetTried at h
  split at h
  · cases h
    exact ⟨rfl, rfl, rfl⟩
  · obtain ⟨words, -, rfl⟩ := Option.map_eq_some_iff.mp h
    exact ⟨rfl, rfl, rfl⟩

theorem follows_resetTried (h : resetTried block d = some d') : d.Follows d' := by
  obtain ⟨hnelts, hserver, hstate⟩ := resetTried_same h
  refine ⟨hnelts, fun i => by rw [hserver], fun i => by rw [hserver], fun hdone => ⟨hstate ▸ hdone, fun i _ => ?_⟩⟩
  rw [hserver]

theorem initBeforeRound_follows (h : initBeforeRound now block servers r target = .ok (ret, r₁, servers₁))
    (domain : Nat) : (servers.serverIpArr domain).Follows (servers₁.serverIpArr domain) := by
  obtain ⟨domain', -, -, ⟨-, rfl, -⟩ | ⟨d, -, htried, rfl⟩⟩ := initBeforeRound_cases h
  · exact .refl _
  · dsimp only
    by_cases hsame : domain = domain'
    · subst hsame
      rw [update_self]
      exact (follows_resetTried htried).trans (follows_resetServers now d)
    · rw [update_of_ne hsame]
      exact .refl _

/-- No server is down or up through `init_before_round` itself. -/
theorem initBeforeRound_running (h : initBeforeRound now block servers r target = .ok (ret, r₁, servers₁))
    (domain : Nat) : runningServers now (servers₁.serverIpArr domain) =
      runningServers now (servers.serverIpArr domain) := by
  obtain ⟨domain', -, -, ⟨-, rfl, -⟩ | ⟨d, -, htried, rfl⟩⟩ := initBeforeRound_cases h
  · rfl
  · dsimp only
    by_cases hsame : domain = domain'
    · subst hsame
      obtain ⟨hnelts, hserver, -⟩ := resetTried_same htried
      rw [update_self, runningServers_resetServers]
      unfold runningServers
      rw [hnelts, hserver]
    · rw [update_of_ne hsame]

theorem follows_getServerByRoundOnce (now : BitVec 32) (d : ServerArr) :
    d.Follows (getServerByRoundOnce now d).2 := by
  obtain ⟨heq, -⟩ | ⟨b, -, heq⟩ := getServerByRoundOnce_cases now d
  · rw [heq]
    exact .refl d
  · rw [heq]
    refine ⟨rfl, fun i => ?_, fun i => (sameFailures_picked now d b i).maxFails, fun hdone => ⟨hdone, fun i _ => ?_⟩⟩
    · unfold ServerArr.picked
      dsimp only
      by_cases hi : i = b
      · rw [if_pos hi]
        dsimp only
        split
        · rfl
        · rfl
      · rw [if_neg hi]
        split
        · rfl
        · rfl
    · have hsame := sameFailures_picked now d b i
      unfold UpstreamServer.Spent
      rw [hsame.fails, hsame.maxFails]

/-- A connect that failed, with the server it was to, which is released. -/
def Attempt.Steady (now : BitVec 32) (a : Attempt) : Prop :=
  a.ret ≠ .ok → a.ret ≠ .again → a.servers.Steady a.us (failServer now (a.servers.get a.us))

instance (now : BitVec 32) (a : Attempt) : Decidable (a.Steady now) := inferInstanceAs (Decidable (_ → _ → _))

/-- The loop of `get_server_by_round`. -/
theorem follows_retryLoop {k : Nat}
    (hsteady : ∀ a ∈ retryAttempts now conn servers domain k r d, a.Steady now) :
    d.Follows (retryLoop now conn domain k r d).d := by
  induction k generalizing r d with
  | zero => exact .refl d
  | succ k ih =>
      have honce := follows_getServerByRoundOnce now d
      rw [retryAttempts] at hsteady
      rw [retryLoop]
      cases hsel : getServerByRoundOnce now d with
      | mk us d' =>
          rw [hsel] at honce hsteady
          cases us with
          | none => exact honce.trans (ih hsteady)
          | some i =>
              have hfails : ∀ {ret : Ret} {rest : List Attempt}, ret ≠ .ok → ret ≠ .again →
                  (∀ a ∈ (⟨(domain, i), ret, { servers with
                    serverIpArr := update servers.serverIpArr domain d' }⟩ : Attempt) :: rest, a.Steady now) →
                  d'.Follows { d' with
                    upstreamServer := update d'.upstreamServer i (failServer now (d'.upstreamServer i)) } := by
                intro ret rest hok hagain hall
                refine follows_fail fun hdone => ?_
                have hhead := hall _ List.mem_cons_self hok hagain
                unfold Servers.Steady Servers.get at hhead
                simp only [update_self] at hhead
                exact hhead hdone
              cases hret : conn (r.upstreamTries + 1) with
              | ok =>
                  simp only [hret]
                  exact honce
              | again =>
                  simp only [hret]
                  exact honce
              | error =>
                  simp only [hret] at hsteady ⊢
                  exact (honce.trans (hfails (by simp) (by simp) hsteady)).trans
                    (ih fun a ha => hsteady a (List.mem_cons_of_mem _ ha))
              | invalidRequest =>
                  simp only [hret] at hsteady ⊢
                  exact (honce.trans (hfails (by simp) (by simp) hsteady)).trans
                    (ih fun a ha => hsteady a (List.mem_cons_of_mem _ ha))

/-- The attempts of the loop are in its domain. -/
theorem retryAttempts_domain {k : Nat} {a : Attempt} (ha : a ∈ retryAttempts now conn servers domain k r d) :
    a.us.1 = domain ∧ (a.servers.serverIpArr domain).initState = d.initState := by
  induction k generalizing r d with
  | zero => exact absurd ha List.not_mem_nil
  | succ k ih =>
      have hstate := getServerByRoundOnce_initState now d
      rw [retryAttempts] at ha
      cases hsel : getServerByRoundOnce now d with
      | mk us d' =>
          rw [hsel] at hstate ha
          have hhead : ∀ ret i, (⟨(domain, i), ret, { servers with
                serverIpArr := update servers.serverIpArr domain d' }⟩ : Attempt).us.1 = domain ∧
              (update servers.serverIpArr domain d' domain).initState = d.initState := by
            intro ret i
            rw [update_self]
            exact ⟨rfl, hstate⟩
          cases us with
          | none =>
              obtain ⟨hus, hsame⟩ := ih ha
              exact ⟨hus, hsame.trans hstate⟩
          | some i =>
              cases hret : conn (r.upstreamTries + 1) with
              | ok =>
                  simp only [hret, List.mem_singleton] at ha
                  subst ha
                  exact hhead .ok i
              | again =>
                  simp only [hret, List.mem_singleton] at ha
                  subst ha
                  exact hhead .again i
              | error =>
                  simp only [hret, List.mem_cons] at ha
                  cases ha with
                  | inl heq =>
                      subst heq
                      exact hhead .error i
                  | inr hrest =>
                      obtain ⟨hus, hsame⟩ := ih hrest
                      exact ⟨hus, hsame.trans hstate⟩
              | invalidRequest =>
                  simp only [hret, List.mem_cons] at ha
                  cases ha with
                  | inl heq =>
                      subst heq
                      exact hhead .invalidRequest i
                  | inr hrest =>
                      obtain ⟨hus, hsame⟩ := ih hrest
                      exact ⟨hus, hsame.trans hstate⟩

/-- Where all servers are down nothing is tried. -/
theorem retryAttempts_nil {k : Nat} (hdown : runningServers now d = []) :
    retryAttempts now conn servers domain k r d = [] := by
  have hno : ∀ i, ¬ d.Eligible now i := by
    intro i hi
    have hmem : i ∈ runningServers now d := mem_runningServers.mpr ((eligible_iff_up now d i).mp hi).1
    rw [hdown] at hmem
    exact List.not_mem_nil hmem
  induction k generalizing r with
  | zero => rfl
  | succ k ih =>
      obtain ⟨heq, -⟩ | ⟨b, hb, -⟩ := getServerByRoundOnce_cases now d
      · rw [retryAttempts, heq]
        exact ih
      · exact absurd hb.eligible (hno b)

variable {o : Outside} {sel : Selection}

/-- `get_server_by_round` leaves the rings as good as they were. -/
theorem RingsHold.selectByRound (hold : RingsHold servers rings)
    (h : selectByRound o block servers rings r target = .ok sel)
    (hsteady : ∀ a ∈ sel.attempts, a.Steady o.now) : RingsHold sel.servers rings ∧ sel.rings = rings := by
  obtain ⟨ret, r₁, servers₁, hinit, hcases⟩ := selectByRound_cases h
  have hold₁ := hold.follow (initBeforeRound_follows hinit)
  obtain ⟨-, rfl⟩ | ⟨domain, -, r₂, acts, -, -, rfl⟩ := hcases
  · exact ⟨hold₁, rfl⟩
  · exact ⟨hold₁.update (follows_retryLoop hsteady), rfl⟩

/-- A later selection, which goes by rotation. -/
theorem RingsHold.again (hold : RingsHold servers rings) (htries : 0 < r.upstreamTries)
    (h : tryConnectUpstream .consistentHash o servers rings r target = .ok sel)
    (hsteady : ∀ a ∈ sel.attempts, a.Steady o.now) : RingsHold sel.servers sel.rings := by
  unfold tryConnectUpstream getServerByConsistentHash at h
  dsimp only at h
  rw [if_pos htries] at h
  obtain ⟨hrest, hrings⟩ := hold.selectByRound h hsteady
  rw [hrings]
  exact hrest

/-! ## lookups -/

theorem Ring.BuiltFor.mem_owners {ring : Ring} {up : List Nat} (h : ring.BuiltFor d up) (i : Nat) :
    i ∈ ring.owners ↔ i ∈ up := by
  constructor
  · rintro ⟨k, hk, heq⟩
    obtain ⟨j, hj, hnode⟩ := h.node k hk
    rw [hnode] at heq
    cases heq
    exact hj
  · intro hi
    obtain ⟨k, hk, hnode⟩ := h.owned i hi
    refine ⟨k, hk, ?_⟩
    rw [hnode]
    rfl

/-- `init_before_round` fails, for want of memory, and does not get to see that
the time of a server is over. -/
def Overlooks (o : Outside) (servers : Servers) (target : List UInt8) : Prop :=
  resetTried o.block (servers.serverIpArr (findDomain servers target)) = none ∧
    anyTimedOut o.now (servers.serverIpArr (findDomain servers target)) = true

/-- At a lookup the servers that are not spent are those that are up. -/
theorem RingsHold.running (hold : RingsHold servers rings) (hcur : r.curServerDomain = none)
    (hsees : ∀ name, target = some name → ¬ Overlooks o servers name)
    (hinit : initBeforeRound o.now block servers r target = .ok (ret, r₁, servers₁)) (hblock : block = o.block)
    (hdomain : r₁.curServerDomain = some domain) (i : Nat) :
    i ∈ runningServers o.now (servers₁.serverIpArr domain) ↔
      i < (servers₁.serverIpArr domain).nelts ∧ ¬ ((servers₁.serverIpArr domain).upstreamServer i).Spent := by
  obtain ⟨domain', hfirst, -, hcases⟩ := initBeforeRound_cases hinit
  obtain ⟨hdomain', name, hname, hfind⟩ := hfirst hcur
  obtain rfl : domain = domain' := Option.some.inj (hdomain.symm.trans hdomain')
  have hconf := (initBeforeRound_follows hinit domain).configured (hold.configured domain)
  have htime : ∀ j < (servers₁.serverIpArr domain).nelts, ((servers₁.serverIpArr domain).upstreamServer j).Spent →
      inFailTimeDuration o.now ((servers₁.serverIpArr domain).upstreamServer j) = true := by
    obtain ⟨-, rfl, htried⟩ | ⟨d, -, htried, rfl⟩ := hcases
    · intro j hj hspent
      refine not_anyTimedOut ?_ hj hspent
      rw [Bool.eq_false_iff, hfind]
      intro htimed
      refine hsees name hname ⟨?_, htimed⟩
      rw [← hblock, ← hfind]
      exact htried
    · dsimp only
      rw [update_self]
      intro j hj hspent
      rw [resetServers_server o.now d hj] at hspent ⊢
      exact resetServer_time (((follows_resetTried htried).configured (hold.configured domain)).maxFails j hj) hspent
  rw [mem_runningServers]
  refine and_congr_right fun hi => ?_
  rw [← isServerDown_iff (hconf.maxFails i hi) (htime i hi), Bool.not_eq_true]

/-- What `init_before_consistent_hash_get` hands to a lookup: a ring of the
servers that are up. -/
theorem RingsHold.lookup {servers' : Servers} {rings' : Nat → Option Ring} {r' : HttpRequest}
    (hold : RingsHold servers rings) (hceil : CeilsUp o.pCeil) (hsort : Sorts o.qsort) (hcur : r.curServerDomain = none)
    (hsees : ∀ name, target = some name → ¬ Overlooks o servers name)
    (h : initBeforeConsistentHashGet o servers rings r target = .ok (r', servers', rings'))
    (hdomain : r'.curServerDomain = some domain) :
    RingsHold servers' rings' ∧ ∃ ring, rings' domain = some ring ∧
      ∀ i, i ∈ ring.owners ↔ i ∈ runningServers o.now (servers'.serverIpArr domain) := by
  unfold initBeforeConsistentHashGet at h
  obtain ⟨⟨ret, r₁, servers₁⟩, hinit, h⟩ := bind_ok h
  obtain ⟨domain', hdomain', h⟩ := bind_ok h
  have hold₁ := hold.follow (initBeforeRound_follows hinit)
  dsimp only at hdomain' h
  split at h
  · next hdone =>
    cases h
    rw [hdomain] at hdomain'
    cases hdomain'
    obtain ⟨ring, hring, howners⟩ := hold₁.holds domain hdone
    refine ⟨hold₁, ring, hring, fun i => ?_⟩
    rw [howners, hold.running hcur hsees hinit rfl hdomain i]
  · obtain ⟨old, hold', h⟩ := bind_ok h
    cases h
    rw [hdomain] at hdomain'
    cases hdomain'
    have hbuilt := buildRing_builtFor hceil hsort (hold₁.configured domain).weight old
    have hsame : ∀ i, i ∈ (buildRing o (servers₁.serverIpArr domain) old).owners ↔
        i < (servers₁.serverIpArr domain).nelts ∧
          ¬ ((servers₁.serverIpArr domain).upstreamServer i).Spent := fun i => by
      rw [hbuilt.mem_owners, hold.running hcur hsees hinit rfl hdomain i]
    refine ⟨⟨fun domain' => ?_, fun domain' => ?_⟩, _, update_self .., fun i => ?_⟩
    · dsimp only
      by_cases hother : domain' = domain
      · subst hother
        rw [update_self]
        exact ⟨(hold₁.configured domain').weight, (hold₁.configured domain').maxFails⟩
      · rw [update_of_ne hother]
        exact hold₁.configured domain'
    · dsimp only
      by_cases hother : domain' = domain
      · subst hother
        rw [update_self, update_self]
        exact fun _ => ⟨_, rfl, hsame⟩
      · rw [update_of_ne hother, update_of_ne hother]
        exact hold₁.holds domain'
    · dsimp only
      rw [update_self]
      exact hbuilt.mem_owners i

/-! ## selections by the ring -/

/-- The attempts of `get_server_by_round` for a request that has a domain. -/
theorem selectByRound_attempts (h : selectByRound o block servers rings r target = .ok sel)
    (hcur : r.curServerDomain = some domain) :
    sel.attempts = [] ∨ ∃ ret r₁ servers₁ k,
      initBeforeRound o.now block servers r target = .ok (ret, r₁, servers₁) ∧
        sel.attempts = retryAttempts o.now o.conn servers₁ domain k r₁ (servers₁.serverIpArr domain) := by
  obtain ⟨ret, r₁, servers₁, hinit, hcases⟩ := selectByRound_cases h
  obtain ⟨-, rfl⟩ | ⟨domain', hdomain', r₂, acts, -, -, rfl⟩ := hcases
  · exact .inl rfl
  · obtain ⟨-, -, hsame, -⟩ := initBeforeRound_cases hinit
    rw [hsame (by simp [hcur]), hcur] at hdomain'
    cases hdomain'
    exact .inr ⟨ret, r₁, servers₁, _, hinit, rfl⟩

/-- The search ends at the target it began with, or at a node. -/
theorem hashSearch_mem {cycle : Nat → Vnode} {hashcode : BitVec 32} {left right : Nat} {target : Option Nat} :
    hashSearch cycle hashcode left right target = target ∨
      ∃ k < right, hashSearch cycle hashcode left right target = (cycle k).rnode := by
  fun_induction hashSearch cycle hashcode left right target with
  | case1 left right target hlt mid ch hless ih => exact ih
  | case2 left right target hlt mid ch hless hgreater ih =>
      refine .inr ?_
      obtain heq | ⟨k, hk, heq⟩ := ih
      · exact ⟨mid, by omega, heq⟩
      · exact ⟨k, by omega, heq⟩
  | case3 left right target hlt mid ch hless hgreater => exact .inr ⟨mid, by omega, rfl⟩
  | case4 left right target hlt => exact .inl rfl

/-- On a ring of the servers that are up a lookup fails only if none is up. -/
theorem running_nil_of_none {ring : Ring} {hashcode : BitVec 32}
    (howners : ∀ i, i ∈ ring.owners ↔ i ∈ runningServers now d)
    (h : getServerByConsistentHashOnce now d (some ring) hashcode = .ok none) : runningServers now d = [] := by
  by_contra hup
  obtain ⟨i₀, hi₀⟩ := List.exists_mem_of_ne_nil _ hup
  obtain ⟨k₀, hk₀, -⟩ := (howners i₀).mpr hi₀
  unfold getServerByConsistentHashOnce at h
  obtain ⟨ring', hring, h⟩ := bind_ok h
  cases hring
  obtain ⟨i, hi, h⟩ := bind_ok h
  have howner : i ∈ ring.owners := by
    obtain hnone | ⟨k, hk, heq⟩ := @hashSearch_mem ring.cycle hashcode 0 ring.vnodes.toNat none
    · rw [hnone, if_pos rfl] at hi
      exact ⟨0, Nat.zero_lt_of_lt hk₀, deref_ok hi⟩
    · rw [heq] at hi
      split at hi
      · exact ⟨0, Nat.zero_lt_of_lt hk₀, deref_ok hi⟩
      · exact ⟨k, hk, deref_ok hi⟩
  have hdown := (mem_runningServers.mp ((howners i).mp howner)).2
  simp [hdown, pure, Except.pure] at h

/-- The steps of a lookup. -/
theorem hashLookup_cases {servers' : Servers} {rings' : Nat → Option Ring} {r' : HttpRequest} {i : Option Nat}
    (h : hashLookup o servers rings r target = .ok (r', servers', rings', domain, i)) :
    initBeforeConsistentHashGet o servers rings r target = .ok (r', servers', rings') ∧
      r'.curServerDomain = some domain ∧
      getServerByConsistentHashOnce o.now (servers'.serverIpArr domain) (rings' domain)
        (hashCodeOfIpInteger o.ip) = .ok i := by
  unfold hashLookup at h
  obtain ⟨⟨r₁, servers₁, rings₁⟩, hinit, h⟩ := bind_ok h
  obtain ⟨domain₁, hdomain, h⟩ := bind_ok h
  obtain ⟨i₁, honce, h⟩ := bind_ok h
  cases h
  exact ⟨hinit, deref_ok hdomain, honce⟩

/-- A domain whose server `i` did not answer, although it is that of the ring. -/
def ServerArr.ringFailed (now : BitVec 32) (d : ServerArr) (i : Nat) : ServerArr :=
  { d with
    initState := .modified
    upstreamServer := update d.upstreamServer i (failServer now (d.upstreamServer i)) }

theorem follows_ringFailed (now : BitVec 32) (d : ServerArr) (i : Nat) : d.Follows (d.ringFailed now i) := by
  obtain ⟨hweight, hmaxFails⟩ := failServer_config now (d.upstreamServer i)
  have hserver : ∀ {α : Type} (f : UpstreamServer → α),
      f (failServer now (d.upstreamServer i)) = f (d.upstreamServer i) → ∀ j,
      f ((d.ringFailed now i).upstreamServer j) = f (d.upstreamServer j) := by
    intro α f hf j
    unfold ServerArr.ringFailed
    dsimp only
    by_cases hj : j = i
    · subst hj
      rw [update_self]
      exact hf
    · rw [update_of_ne hj]
  exact ⟨rfl, hserver _ hweight, hserver _ hmaxFails, fun hdone => nomatch hdone⟩

/-- A first selection: whatever fails, the ring is either not touched or no
longer taken to be valid. -/
theorem RingsHold.forward (hold : RingsHold servers rings) (hceil : CeilsUp o.pCeil) (hsort : Sorts o.qsort)
    (hcur : r.curServerDomain = none) (htries : r.upstreamTries = 0)
    (hsees : ∀ name, target = some name → ¬ Overlooks o servers name)
    (h : tryConnectUpstream .consistentHash o servers rings r target = .ok sel) :
    RingsHold sel.servers sel.rings := by
  unfold tryConnectUpstream getServerByConsistentHash at h
  dsimp only at h
  rw [if_neg (by omega)] at h
  obtain ⟨⟨r₁, servers₁, rings₁, domain, us⟩, hlookup, h⟩ := bind_ok h
  obtain ⟨hinit, hdomain, honce⟩ := hashLookup_cases hlookup
  obtain ⟨hold₁, ring, hring, howners⟩ :=
    hold.lookup (r := { r with upstreamTries := r.upstreamTries + 1 }) hceil hsort hcur hsees hinit hdomain
  cases us with
  | none =>
      rw [hring] at honce
      have hdown := running_nil_of_none howners honce
      have hrest := hold₁.selectByRound h fun a ha => ?_
      · rw [hrest.2]
        exact hrest.1
      · obtain hnil | ⟨ret, r₂, servers₂, k, hinit₂, hattempts⟩ := selectByRound_attempts h hdomain
        · rw [hnil] at ha
          exact absurd ha List.not_mem_nil
        · rw [hattempts, retryAttempts_nil (by rw [initBeforeRound_running hinit₂, hdown])] at ha
          exact absurd ha List.not_mem_nil
  | some i =>
      dsimp only at h
      split at h
      · cases h
        exact hold₁
      · obtain ⟨sel₁, hround, h⟩ := bind_ok h
        cases h
        obtain ⟨servers₂, hservers₂⟩ : ∃ servers₂ : Servers, servers₂ = { servers₁ with
            serverIpArr := Function.update servers₁.serverIpArr domain
              ((servers₁.serverIpArr domain).ringFailed o.now i) } := ⟨_, rfl⟩
        have hround' : PWebServer.selectByRound o o.retryBlock servers₂ rings₁ { r₁ with curUpstream := none }
            target = .ok sel₁ := by
          rw [hservers₂]
          exact hround
        have hstate : (servers₂.serverIpArr domain).initState ≠ .initDone := by
          rw [hservers₂]
          dsimp only
          rw [update_self]
          exact nofun
        have hmodified : RingsHold servers₂ rings₁ := by
          rw [hservers₂]
          exact hold₁.update (follows_ringFailed o.now _ i)
        have hrest := hmodified.selectByRound hround' fun a ha => ?_
        · rw [hrest.2]
          exact hrest.1
        · obtain hnil | ⟨ret, r₂, servers₃, k, hinit₂, hattempts⟩ := selectByRound_attempts hround' hdomain
          · rw [hnil] at ha
            exact absurd ha List.not_mem_nil
          · rw [hattempts] at ha
            obtain ⟨hus, hsame⟩ := retryAttempts_domain ha
            intro _ _ hdone
            rw [hus, hsame] at hdone
            obtain hkept | hset := initBeforeRound_initState hinit₂ domain
            · exact absurd (hkept.symm.trans hdone) hstate
            · rw [hset] at hdone
              contradiction

end

end PWebServer
