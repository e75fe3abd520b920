import PWebServer.Module.ConsistentHash

/-!
# Module.Selections

What a selection, in either mode, leaves of the request it is made for: one
server kept at most, all others that were tried released, and an error page if
it gives up.
-/

namespace PWebServer

open Function

/-- What the balancer writes, stored in the request `base`. -/
def HttpRequest.withServer (base r : HttpRequest) : HttpRequest :=
  { base with
    upstreamTries := r.upstreamTries
    curUpstream := r.curUpstream
    curServerDomain := r.curServerDomain }

/-- The server of a `try_connect`. -/
def Act.tried : Act → Option ServerId
  | .tryConnect us _ => some us
  | _ => none

/-- The server of a release. -/
def Act.freed : Act → Option ServerId
  | .free us => some us
  | _ => none

/-- The servers that were tried, in order. -/
def triedServers (acts : List Act) : List ServerId := acts.filterMap Act.tried

/-- The servers that were released, in order. -/
def freedServers (acts : List Act) : List ServerId := acts.filterMap Act.freed

@[simp] theorem triedServers_append (xs ys : List Act) :
    triedServers (xs ++ ys) = triedServers xs ++ triedServers ys := List.filterMap_append

@[simp] theorem freedServers_append (xs ys : List Act) :
    freedServers (xs ++ ys) = freedServers xs ++ freedServers ys := List.filterMap_append

/-- A failed `try_connect` and the release after it. -/
theorem triedServers_fail (us : ServerId) (ret : Ret) (acts : List Act) :
    triedServers (.tryConnect us ret :: .free us :: acts) = us :: triedServers acts := rfl

theorem freedServers_fail (us : ServerId) (ret : Ret) (acts : List Act) :
    freedServers (.tryConnect us ret :: .free us :: acts) = us :: freedServers acts := rfl

/-- A selection for `r`, which has no server, ends with `r'`: the servers tried
are those released and the one that is kept. -/
structure Selects (r r' : HttpRequest) (acts : List Act) : Prop where
  frame : r' = r.withServer r'
  kept : triedServers acts = freedServers acts ++ r'.curUpstream.toList
  quiet : ∀ status, .constructErr status ∉ acts

/-- How a selection ends; one that gives up sends an error page last. -/
def Chooses (r r' : HttpRequest) (acts : List Act) : Prop :=
  Selects r r' acts ∨
    ∃ r₁ acts₁, Selects r r₁ acts₁ ∧ r' = r₁.constructErr 502 ∧ acts = acts₁ ++ [.constructErr 502]

theorem Selects.nil {r r' : HttpRequest} (hframe : r' = r.withServer r') (hcur : r'.curUpstream = none) :
    Selects r r' [] where
  frame := hframe
  kept := by rw [hcur]; rfl
  quiet := fun _ h => nomatch h

theorem Selects.after {r r₁ r' : HttpRequest} {acts : List Act} (h : Selects r₁ r' acts)
    (hframe : r₁ = r.withServer r₁) : Selects r r' acts where
  frame := by
    calc
      r' = r₁.withServer r' := h.frame
      _ = (r.withServer r₁).withServer r' := by rw [← hframe]
      _ = r.withServer r' := rfl
  kept := h.kept
  quiet := h.quiet

theorem Chooses.after {r r₁ r' : HttpRequest} {acts : List Act} (h : Chooses r₁ r' acts)
    (hframe : r₁ = r.withServer r₁) : Chooses r r' acts := by
  cases h with
  | inl hkept => exact .inl (hkept.after hframe)
  | inr hgives =>
      obtain ⟨r₂, acts₁, hkept, hr', hacts⟩ := hgives
      exact .inr ⟨r₂, acts₁, hkept.after hframe, hr', hacts⟩

theorem tryConnect_quiet (us : ServerId) (ret : Ret) : ∀ status, .constructErr status ∉ [Act.tryConnect us ret] := by
  intro status h
  simp at h

/-- A failed `try_connect` comes before a selection. -/
theorem Selects.fail {r r₁ r' : HttpRequest} {acts : List Act} (h : Selects r₁ r' acts)
    (hframe : r₁ = r.withServer r₁) (us : ServerId) (ret : Ret) :
    Selects r r' (.tryConnect us ret :: .free us :: acts) where
  frame := (h.after hframe).frame
  kept := by rw [triedServers_fail, freedServers_fail, h.kept, List.cons_append]
  quiet := by
    intro status hmem
    simp only [List.mem_cons, reduceCtorEq, false_or] at hmem
    exact h.quiet status hmem

theorem Chooses.fail {r r₁ r' : HttpRequest} {acts : List Act} (h : Chooses r₁ r' acts)
    (hframe : r₁ = r.withServer r₁) (us : ServerId) (ret : Ret) :
    Chooses r r' (.tryConnect us ret :: .free us :: acts) := by
  cases h with
  | inl hkept => exact .inl (hkept.fail hframe us ret)
  | inr hgives =>
      obtain ⟨r₂, acts₁, hkept, hr', hacts⟩ := hgives
      refine .inr ⟨r₂, _, hkept.fail hframe us ret, hr', ?_⟩
      rw [hacts, List.cons_append, List.cons_append]

/-- The loop of `get_server_by_round`. -/
theorem retryLoop_selects (now : BitVec 32) (conn : Nat → Ret) (domain k : Nat) (r : HttpRequest)
    (d : ServerArr) (hcur : r.curUpstream = none) :
    Selects r (retryLoop now conn domain k r d).r (retryLoop now conn domain k r d).acts := by
  induction k generalizing r d with
  | zero => exact .nil rfl hcur
  | succ k ih =>
      have hframe : ∀ n, ({ r with upstreamTries := n } : HttpRequest) =
          r.withServer { r with upstreamTries := n } := fun _ => rfl
      rw [retryLoop]
      cases hsel : getServerByRoundOnce now d with
      | mk us d' =>
          cases us with
          | none =>
              have hrest := ih { r with upstreamTries := r.upstreamTries + 1 } d' hcur
              exact ⟨hrest.frame, hrest.kept, hrest.quiet⟩
          | some i =>
              cases hret : conn (r.upstreamTries + 1) with
              | ok =>
                  simp only [hret]
                  exact ⟨rfl, rfl, tryConnect_quiet _ _⟩
              | again =>
                  simp only [hret]
                  exact ⟨rfl, rfl, tryConnect_quiet _ _⟩
              | error =>
                  simp only [hret]
                  exact (ih { r with upstreamTries := r.upstreamTries + 1 } _ hcur).fail (hframe _) _ _
              | invalidRequest =>
                  simp only [hret]
                  exact (ih { r with upstreamTries := r.upstreamTries + 1 } _ hcur).fail (hframe _) _ _

theorem initBeforeRound_frame {now : BitVec 32} {block : Option (Nat → BitVec 64)} {servers servers₁ : Servers}
    {r r₁ : HttpRequest} {target : Option (List UInt8)} {ret : Ret}
    (h : initBeforeRound now block servers r target = .ok (ret, r₁, servers₁)) :
    r₁ = r.withServer r₁ ∧ r₁.curUpstream = r.curUpstream := by
  unfold initBeforeRound at h
  by_cases hd : r.curServerDomain = none
  · cases target with
    | none => simp [hd, bind, Except.bind] at h
    | some name =>
        simp only [hd, bind, Except.bind, deref_some, pure, Except.pure, if_true] at h
        split at h
        · contradiction
        · split at h
          · cases h
            exact ⟨rfl, rfl⟩
          · cases h
            exact ⟨rfl, rfl⟩
  · simp only [hd, bind, Except.bind, pure, Except.pure, if_false] at h
    split at h
    · contradiction
    · split at h
      · cases h
        exact ⟨rfl, rfl⟩
      · cases h
        exact ⟨rfl, rfl⟩

theorem getServerByRound_chooses {now : BitVec 32} {conn : Nat → Ret} {block : Option (Nat → BitVec 64)}
    {servers servers' : Servers} {r r' : HttpRequest} {target : Option (List UInt8)} {acts : List Act}
    (hcur : r.curUpstream = none)
    (h : getServerByRound now conn block servers r target = .ok (r', servers', acts)) :
    Chooses r r' acts := by
  unfold getServerByRound at h
  cases hinit : initBeforeRound now block servers r target with
  | error f =>
      rw [hinit] at h
      contradiction
  | ok v =>
      obtain ⟨ret, r₁, servers₁⟩ := v
      obtain ⟨hframe, hcur₁⟩ := initBeforeRound_frame hinit
      rw [hcur] at hcur₁
      simp only [hinit, bind, Except.bind, pure, Except.pure] at h
      split at h
      · cases h
        exact .inl (.nil hframe hcur₁)
      · cases hdomain : r₁.curServerDomain with
        | none =>
            rw [hdomain] at h
            contradiction
        | some domain =>
            simp only [hdomain, deref_some] at h
            have hloop := retryLoop_selects now conn domain
              ((servers₁.serverIpArr domain).nelts - r₁.upstreamTries) r₁ (servers₁.serverIpArr domain) hcur₁
            have hselects := hloop.after hframe
            split at h
            · cases h
              exact .inl hselects
            · split at h
              · cases h
                exact .inr ⟨_, _, hselects, rfl, rfl⟩
              · cases h
                exact .inl hselects

theorem selectByRound_chooses {o : Outside} {block : Option (Nat → BitVec 64)} {servers : Servers}
    {rings : Nat → Option Ring} {r : HttpRequest} {target : Option (List UInt8)} {sel : Selection}
    (hcur : r.curUpstream = none) (h : selectByRound o block servers rings r target = .ok sel) :
    Chooses r sel.r sel.acts := by
  rw [selectByRound] at h
  cases hget : getServerByRound o.now o.conn block servers r target with
  | error f =>
      rw [hget] at h
      contradiction
  | ok v =>
      rw [hget] at h
      cases h
      exact getServerByRound_chooses hcur hget

theorem hashLookup_frame {o : Outside} {servers servers₁ : Servers} {rings rings₁ : Nat → Option Ring}
    {r r₁ : HttpRequest} {target : Option (List UInt8)} {domain : Nat} {us : Option Nat}
    (h : hashLookup o servers rings r target = .ok (r₁, servers₁, rings₁, domain, us)) :
    r₁ = r.withServer r₁ ∧ r₁.curUpstream = r.curUpstream := by
  simp only [hashLookup, initBeforeConsistentHashGet, bind, Except.bind] at h
  split at h
  · contradiction
  · next v hget =>
      split at hget
      · contradiction
      · next w hinit =>
          obtain ⟨ret, r₂, servers₂⟩ := w
          have hframe := initBeforeRound_frame hinit
          have hr₂ : v.1 = r₂ := by
            split at hget
            · contradiction
            · split at hget
              · cases hget
                rfl
              · split at hget
                · contradiction
                · cases hget
                  rfl
          split at h
          · contradiction
          · split at h
            · contradiction
            · cases h
              rw [hr₂]
              exact hframe

/-- **Selections**: in both modes a request that has no server is left with one
at most, and every other one that was tried has been released. -/
theorem tryConnectUpstream_chooses {lb : LoadBalance} {o : Outside} {servers : Servers}
    {rings : Nat → Option Ring} {r : HttpRequest} {target : Option (List UInt8)} {sel : Selection}
    (hcur : r.curUpstream = none) (h : tryConnectUpstream lb o servers rings r target = .ok sel) :
    Chooses r sel.r sel.acts := by
  have hself : ({ r with curUpstream := none } : HttpRequest) = r := by rw [← hcur]
  cases lb with
  | roundMode => exact selectByRound_chooses hcur h
  | consistentHash =>
      rw [tryConnectUpstream, getServerByConsistentHash] at h
      split at h
      · rw [hashFailed, hself] at h
        exact selectByRound_chooses hcur h
      · simp only [bind, Except.bind] at h
        split at h
        · contradiction
        · next v hlookup =>
          obtain ⟨r₁, servers₁, rings₁, domain, us⟩ := v
          obtain ⟨hframe, hcur₁⟩ := hashLookup_frame hlookup
          have hnone : ({ r₁ with curUpstream := none } : HttpRequest) = r.withServer { r₁ with curUpstream := none } := by
            rw [hframe]
            rfl
          split at h
          · exact (selectByRound_chooses rfl h).after hnone
          · next i hi =>
            split at h
            · cases h
              refine .inl ⟨?_, rfl, tryConnect_quiet _ _⟩
              dsimp only at hframe ⊢
              rw [hframe]
              rfl
            · split at h
              · contradiction
              · next sel₁ hround =>
                have hrest := selectByRound_chooses rfl hround
                cases h
                exact hrest.fail hnone _ _

end PWebServer
