import PWebServer.Base.Hash
import PWebServer.Module.Proxy

/-!
# Module.ConsistentHash

The second balancer: a server is looked up on a ring of virtual nodes by the
address of the client, and the rotation is fallen back on when it does not
answer.

In both modes `try_connect` may return `AGAIN`, the connect being in progress.
`again_returns_iff` says that the selection then returns with that server and
nothing changed, unless it was the server of the ring.
-/

namespace PWebServer

open Function

/-! ## the ring -/

/-- `consistent_hash_vnode_t` -/
structure Vnode where
  hashcode : BitVec 32 := 0
  rnode : Option Nat := none
  deriving DecidableEq, Repr

/-- `consistent_hash_t`: an array of virtual nodes and how many of it are used. -/
structure Ring where
  cycle : Nat → Vnode
  vnodes : Int

/-- What a selection takes from outside the balancer.  `conn` is what the
connect of the given try returns, `pCeil a b` what `p_ceil` makes of the
floating quotient of `a` and `b`; `qsort` orders the nodes by their codes, equal
ones as it likes.  The blocks come from `pMalloc`. -/
structure Outside where
  now : BitVec 32
  conn : Nat → Ret
  ip : BitVec 32
  pCeil : Int → Int → Int
  qsort : List Vnode → List Vnode
  block : Option (Nat → BitVec 64)
  retryBlock : Option (Nat → BitVec 64)
  cycle : Option (Nat → Vnode)

/-- The servers that are up. -/
def runningServers (now : BitVec 32) (d : ServerArr) : List Nat :=
  (List.range d.nelts).filter fun i => !isServerDown now (d.upstreamServer i)

/-- The nodes of the servers that are up; all those of one server have one
code. -/
def ringNodes (o : Outside) (d : ServerArr) (tempVnum totalW : Int) : List Vnode :=
  (runningServers o.now d).flatMap fun i =>
    let server := d.upstreamServer i
    List.replicate (o.pCeil (tempVnum * server.weight) totalW).toNat
      { hashcode := hashCodeOfIpInteger (hashKeyFunction server.location.host + BitVec.ofNat 32 i)
        rnode := some i }

/-- The first elements of an array, overwritten. -/
def overwrite (xs : List Vnode) (old : Nat → Vnode) : Nat → Vnode := fun k => xs.getD k (old k)

/-- The ring of a domain, built in the block `old`. -/
def buildRing (o : Outside) (d : ServerArr) (old : Nat → Vnode) : Ring :=
  let up := runningServers o.now d
  let totalW := (up.map fun i => (d.upstreamServer i).weight).sum
  let tempVnum : Int := 8 * up.length
  let totalVnum := (up.map fun i => o.pCeil (tempVnum * (d.upstreamServer i).weight) totalW).sum
  let cycle := overwrite (ringNodes o d tempVnum totalW) old
  { cycle := overwrite (o.qsort ((List.range totalVnum.toNat).map cycle)) cycle
    vnodes := totalVnum }

/-- The block a ring is built in: a new one at first, later that of the ring. -/
def ringBlock (o : Outside) (initState : ChashState) (ring : Option Ring) :
    Except Fault (Nat → Vnode) :=
  match initState with
  | .idle =>
      match o.cycle with
      | none => .error .abort
      | some old => .ok old
  | _ => do
      let ring ← deref ring
      pure ring.cycle

/-- `init_before_consistent_hash_get`.  The result of `init_before_round` is
only logged, and it is always `OK` that is returned. -/
def initBeforeConsistentHashGet (o : Outside) (servers : Servers) (rings : Nat → Option Ring)
    (r : HttpRequest) (target : Option (List UInt8)) :
    Except Fault (HttpRequest × Servers × (Nat → Option Ring)) := do
  let (_, r, servers) ← initBeforeRound o.now o.block servers r target
  let domain ← deref r.curServerDomain
  let d := servers.serverIpArr domain
  if d.initState = .initDone then pure (r, servers, rings)
  else
    let old ← ringBlock o d.initState (rings domain)
    pure (r,
      { servers with serverIpArr := update servers.serverIpArr domain { d with initState := .initDone } },
      update rings domain (some (buildRing o d old)))

/-- The loop of `get_server_by_consistent_hash_once`. -/
def hashSearch (cycle : Nat → Vnode) (hashcode : BitVec 32) (left right : Nat) (target : Option Nat) :
    Option Nat :=
  if left < right then
    let mid := (left + right) / 2
    let ch := cycle mid
    if ch.hashcode < hashcode then hashSearch cycle hashcode (mid + 1) right target
    else if hashcode < ch.hashcode then hashSearch cycle hashcode left mid ch.rnode
    else ch.rnode
  else target
termination_by right - left

/-- `get_server_by_consistent_hash_once`: `none` for `NULL`. -/
def getServerByConsistentHashOnce (now : BitVec 32) (d : ServerArr) (ring : Option Ring)
    (hashcode : BitVec 32) : Except Fault (Option Nat) := do
  let ring ← deref ring
  let found := hashSearch ring.cycle hashcode 0 ring.vnodes.toNat none
  let target ← deref (if found = none then (ring.cycle 0).rnode else found)
  pure (if isServerDown now (d.upstreamServer target) then none else some target)

/-! ## selections -/

/-- One result of `try_connect`, with the servers as they were then. -/
structure Attempt where
  us : ServerId
  ret : Ret
  servers : Servers

/-- What a selection leaves behind. -/
structure Selection where
  r : HttpRequest
  servers : Servers
  rings : Nat → Option Ring
  acts : List Act
  attempts : List Attempt

/-- The results of `try_connect` in the loop of `get_server_by_round`. -/
def retryAttempts (now : BitVec 32) (conn : Nat → Ret) (servers : Servers) (domain : Nat) :
    Nat → HttpRequest → ServerArr → List Attempt
  | 0, _, _ => []
  | k + 1, r, d =>
      let (us, d) := getServerByRoundOnce now d
      let r := { r with upstreamTries := r.upstreamTries + 1 }
      match us with
      | none => retryAttempts now conn servers domain k r d
      | some i =>
          let current := { servers with serverIpArr := update servers.serverIpArr domain d }
          match conn r.upstreamTries with
          | .ok => [⟨(domain, i), .ok, current⟩]
          | .again => [⟨(domain, i), .again, current⟩]
          | ret =>
              ⟨(domain, i), ret, current⟩ :: retryAttempts now conn servers domain k r { d with
                upstreamServer := update d.upstreamServer i (failServer now (d.upstreamServer i)) }

/-- The results of `try_connect` in `get_server_by_round`. -/
def roundAttempts (now : BitVec 32) (conn : Nat → Ret) (block : Option (Nat → BitVec 64))
    (servers : Servers) (r : HttpRequest) (target : Option (List UInt8)) : List Attempt :=
  match initBeforeRound now block servers r target with
  | .ok (.ok, r, servers) =>
      match r.curServerDomain with
      | none => []
      | some domain =>
          let d := servers.serverIpArr domain
          retryAttempts now conn servers domain (d.nelts - r.upstreamTries) r d
  | _ => []

/-- `get_server_by_round`, with the results of its connects. -/
def selectByRound (o : Outside) (block : Option (Nat → BitVec 64)) (servers : Servers)
    (rings : Nat → Option Ring) (r : HttpRequest) (target : Option (List UInt8)) :
    Except Fault Selection := do
  let (r', servers', acts) ← getServerByRound o.now o.conn block servers r target
  pure ⟨r', servers', rings, acts, roundAttempts o.now o.conn block servers r target⟩

/-- The ring and the server `get_server_by_consistent_hash` finds on it. -/
def hashLookup (o : Outside) (servers : Servers) (rings : Nat → Option Ring) (r : HttpRequest)
    (target : Option (List UInt8)) :
    Except Fault (HttpRequest × Servers × (Nat → Option Ring) × Nat × Option Nat) := do
  let (r, servers, rings) ← initBeforeConsistentHashGet o servers rings r target
  let hashcode := hashCodeOfIpInteger o.ip
  let domain ← deref r.curServerDomain
  let us ← getServerByConsistentHashOnce o.now (servers.serverIpArr domain) (rings domain) hashcode
  pure (r, servers, rings, domain, us)

/-- The label `failed` of `get_server_by_consistent_hash`. -/
def hashFailed (o : Outside) (block : Option (Nat → BitVec 64)) (servers : Servers)
    (rings : Nat → Option Ring) (r : HttpRequest) (target : Option (List UInt8)) :
    Except Fault Selection :=
  selectByRound o block servers rings { r with curUpstream := none } target

/-- `get_server_by_consistent_hash`.  Any result of `try_connect` but `OK` is a
failure to it. -/
def getServerByConsistentHash (o : Outside) (servers : Servers) (rings : Nat → Option Ring)
    (r : HttpRequest) (target : Option (List UInt8)) : Except Fault Selection :=
  if 0 < r.upstreamTries then hashFailed o o.block servers rings r target
  else do
    let r := { r with upstreamTries := r.upstreamTries + 1 }
    let (r, servers, rings, domain, us) ← hashLookup o servers rings r target
    match us with
    | none => hashFailed o o.retryBlock servers rings r target
    | some i =>
        let ret := o.conn r.upstreamTries
        if ret = .ok then
          pure ⟨{ r with curUpstream := some (domain, i) }, servers, rings,
            [.tryConnect (domain, i) .ok], [⟨(domain, i), .ok, servers⟩]⟩
        else do
          let d := { servers.serverIpArr domain with initState := .modified }
          let d := { d with
            upstreamServer := update d.upstreamServer i (failServer o.now (d.upstreamServer i)) }
          let sel ← hashFailed o o.retryBlock
            { servers with serverIpArr := update servers.serverIpArr domain d } rings r target
          pure { sel with
            acts := .tryConnect (domain, i) ret ::
              .free (domain, i) :: sel.acts
            attempts := ⟨(domain, i), ret, servers⟩ :: sel.attempts }

/-- `try_connect_upstream(r, domain)`: the selection of the mode. -/
def tryConnectUpstream (lb : LoadBalance) (o : Outside) (servers : Servers)
    (rings : Nat → Option Ring) (r : HttpRequest) (target : Option (List UInt8)) :
    Except Fault Selection :=
  match lb with
  | .roundMode => selectByRound o o.block servers rings r target
  | .consistentHash => getServerByConsistentHash o servers rings r target

/-! ## the attempts are the acts -/

/-- A call of `try_connect`. -/
def Act.isTry : Act → Bool
  | .tryConnect _ _ => true
  | _ => false

theorem Act.isTry_tryConnect {us : ServerId} {ret : Ret} : (Act.tryConnect us ret).isTry = true := rfl

theorem Act.not_isTry_free {us : ServerId} : ¬ (Act.free us).isTry = true := by simp [Act.isTry]

/-- An attempt as an act. -/
def Attempt.act (a : Attempt) : Act := .tryConnect a.us a.ret

/-- The loop with its attempts. -/
theorem retryAttempts_act (now : BitVec 32) (conn : Nat → Ret) (servers : Servers) (domain k : Nat)
    (r : HttpRequest) (d : ServerArr) :
    (retryAttempts now conn servers domain k r d).map Attempt.act =
      (retryLoop now conn domain k r d).acts.filter Act.isTry := by
  induction k generalizing r d with
  | zero => rfl
  | succ k ih =>
      rw [retryAttempts, retryLoop]
      cases hsel : getServerByRoundOnce now d with
      | mk us d' =>
          cases us with
          | none => exact ih _ _
          | some i =>
              cases hret : conn (r.upstreamTries + 1) with
              | ok =>
                  simp only [hret]
                  rfl
              | again =>
                  simp only [hret]
                  rfl
              | error | invalidRequest =>
                  simp only [hret, List.map_cons, ih, List.filter_cons_of_pos Act.isTry_tryConnect,
                    List.filter_cons_of_neg Act.not_isTry_free, Attempt.act]

/-- The attempts of a selection are the calls of `try_connect` among its acts. -/
def Selection.Faithful (sel : Selection) : Prop :=
  sel.attempts.map Attempt.act = sel.acts.filter Act.isTry

/-- How a call of `get_server_by_round` goes. -/
theorem selectByRound_cases {o : Outside} {block : Option (Nat → BitVec 64)} {servers : Servers}
    {rings : Nat → Option Ring} {r : HttpRequest} {target : Option (List UInt8)} {sel : Selection}
    (h : selectByRound o block servers rings r target = .ok sel) :
    ∃ ret r₁ servers₁, initBeforeRound o.now block servers r target = .ok (ret, r₁, servers₁) ∧
      (ret ≠ .ok ∧ sel = ⟨r₁, servers₁, rings, [], []⟩ ∨
        ∃ domain, r₁.curServerDomain = some domain ∧
          let d := servers₁.serverIpArr domain
          let run := retryLoop o.now o.conn domain (d.nelts - r₁.upstreamTries) r₁ d
          ∃ r₂ acts, (run.returned = true → r₂ = run.r) ∧
            acts.filter Act.isTry = run.acts.filter Act.isTry ∧
            sel = ⟨r₂, { servers₁ with serverIpArr := update servers₁.serverIpArr domain run.d }, rings,
              acts, retryAttempts o.now o.conn servers₁ domain (d.nelts - r₁.upstreamTries) r₁ d⟩) := by
  rw [selectByRound] at h
  cases hinit : initBeforeRound o.now block servers r target with
  | error f =>
      rw [getServerByRound, hinit] at h
      contradiction
  | ok v =>
      obtain ⟨ret, r₁, servers₁⟩ := v
      refine ⟨ret, r₁, servers₁, rfl, ?_⟩
      by_cases hret : ret = .ok
      · subst hret
        obtain ⟨-, domain, hdomain⟩ := initBeforeRound_request hinit
        refine .inr ⟨domain, hdomain, ?_⟩
        simp only [getServerByRound, roundAttempts, hinit, hdomain, bind, Except.bind, deref_some,
          pure, Except.pure, ne_eq, not_true_eq_false, if_false] at h
        dsimp only
        generalize retryLoop o.now o.conn domain _ _ _ = run at h ⊢
        by_cases hreturned : run.returned = true
        · rw [if_pos hreturned] at h
          cases h
          exact ⟨_, _, fun _ => rfl, rfl, rfl⟩
        · have hnever : ∀ r₂, run.returned = true → r₂ = run.r := fun _ htrue => absurd htrue hreturned
          rw [if_neg hreturned] at h
          by_cases htries : (servers₁.serverIpArr domain).nelts ≤ run.r.upstreamTries
          · rw [if_pos htries] at h
            cases h
            refine ⟨_, _, hnever _, ?_, rfl⟩
            rw [List.filter_append]
            exact List.append_nil _
          · rw [if_neg htries] at h
            cases h
            exact ⟨_, _, hnever _, rfl, rfl⟩
      · refine .inl ⟨hret, ?_⟩
        rw [getServerByRound_error o.conn hret hinit] at h
        have hnone : roundAttempts o.now o.conn block servers r target = [] := by
          rw [roundAttempts, hinit]
          cases ret with
          | ok => contradiction
          | error => rfl
          | again => rfl
          | invalidRequest => rfl
        cases h
        rw [hnone]

theorem selectByRound_faithful {o : Outside} {block : Option (Nat → BitVec 64)} {servers : Servers}
    {rings : Nat → Option Ring} {r : HttpRequest} {target : Option (List UInt8)} {sel : Selection}
    (h : selectByRound o block servers rings r target = .ok sel) : sel.Faithful := by
  obtain ⟨ret, r₁, servers₁, -, hcases⟩ := selectByRound_cases h
  cases hcases with
  | inl hfails =>
      rw [hfails.2]
      rfl
  | inr hruns =>
      obtain ⟨domain, -, r₂, acts, -, hacts, hsel⟩ := hruns
      rw [hsel, Selection.Faithful, hacts]
      exact retryAttempts_act ..

/-- In both modes the attempts are what the acts say. -/
theorem tryConnectUpstream_faithful {lb : LoadBalance} {o : Outside} {servers : Servers}
    {rings : Nat → Option Ring} {r : HttpRequest} {target : Option (List UInt8)} {sel : Selection}
    (h : tryConnectUpstream lb o servers rings r target = .ok sel) : sel.Faithful := by
  cases lb with
  | roundMode => exact selectByRound_faithful h
  | consistentHash =>
      rw [tryConnectUpstream, getServerByConsistentHash] at h
      split at h
      · exact selectByRound_faithful h
      · simp only [bind, Except.bind] at h
        split at h
        · contradiction
        · next v hlookup =>
          split at h
          · exact selectByRound_faithful h
          · next i hi =>
            split at h
            · cases h
              rfl
            · split at h
              · contradiction
              · next sel₁ hround =>
                have hrest := selectByRound_faithful hround
                cases h
                rw [Selection.Faithful] at hrest ⊢
                rw [List.map_cons, hrest, List.filter_cons_of_pos Act.isTry_tryConnect,
                  List.filter_cons_of_neg Act.not_isTry_free, Attempt.act]

/-! ## the law -/

/-- The bookkeeping about a server, which a pending connect is to leave alone. -/
structure Untouched (us : ServerId) (servers servers' : Servers) : Prop where
  fails : (servers'.get us).fails = (servers.get us).fails
  lastFailed : (servers'.get us).lastFailed = (servers.get us).lastFailed
  state : (servers'.get us).state = (servers.get us).state
  effectiveWeight : (servers'.get us).effectiveWeight = (servers.get us).effectiveWeight
  initState : (servers'.serverIpArr us.1).initState = (servers.serverIpArr us.1).initState

theorem Untouched.refl (us : ServerId) (servers : Servers) : Untouched us servers servers :=
  ⟨rfl, rfl, rfl, rfl, rfl⟩

/-- A selection returns as soon as `try_connect` returns `AGAIN`, with that
server and nothing changed. -/
def AgainReturns (sel : Selection) : Prop :=
  ∀ k a, sel.attempts[k]? = some a → a.ret = .again →
    k + 1 = sel.attempts.length ∧ sel.r.curUpstream = some a.us ∧ Untouched a.us a.servers sel.servers

/-- The connect to the server of the ring is in progress. -/
def RingAgain (lb : LoadBalance) (o : Outside) (servers : Servers) (rings : Nat → Option Ring)
    (r : HttpRequest) (target : Option (List UInt8)) : Prop :=
  lb = .consistentHash ∧ r.upstreamTries = 0 ∧ o.conn 1 = .again ∧
    ∃ r' servers' rings' domain i, hashLookup o servers rings { r with upstreamTries := 1 } target =
      .ok (r', servers', rings', domain, some i)

/-- The loop ends with an `AGAIN`. -/
theorem retryAttempts_again {now : BitVec 32} {conn : Nat → Ret} {servers : Servers} {domain k : Nat}
    {r : HttpRequest} {d : ServerArr} {j : Nat} {a : Attempt}
    (hj : (retryAttempts now conn servers domain k r d)[j]? = some a) (hagain : a.ret = .again) :
    j + 1 = (retryAttempts now conn servers domain k r d).length ∧
      (retryLoop now conn domain k r d).returned = true ∧
      (retryLoop now conn domain k r d).r.curUpstream = some a.us ∧
      a.servers = { servers with
        serverIpArr := update servers.serverIpArr domain (retryLoop now conn domain k r d).d } := by
  induction k generalizing r d j with
  | zero => contradiction
  | succ k ih =>
      rw [retryAttempts] at hj ⊢
      rw [retryLoop]
      cases hsel : getServerByRoundOnce now d with
      | mk us d' =>
          rw [hsel] at hj
          cases us with
          | none => exact ih hj
          | some i =>
              cases hret : conn (r.upstreamTries + 1) with
              | ok =>
                  simp only [hret] at hj ⊢
                  rw [List.getElem?_singleton] at hj
                  split at hj
                  · cases hj
                    contradiction
                  · contradiction
              | again =>
                  simp only [hret] at hj ⊢
                  rw [List.getElem?_singleton] at hj
                  split at hj
                  · next hzero =>
                      cases hj
                      exact ⟨by rw [hzero]; rfl, trivial, rfl, rfl⟩
                  · contradiction
              | error =>
                  simp only [hret] at hj ⊢
                  cases j with
                  | zero =>
                      cases hj
                      contradiction
                  | succ j =>
                      rw [List.getElem?_cons_succ] at hj
                      obtain ⟨hlast, hrest⟩ := ih hj
                      exact ⟨by rw [List.length_cons, ← hlast], hrest⟩
              | invalidRequest =>
                  simp only [hret] at hj ⊢
                  cases j with
                  | zero =>
                      cases hj
                      contradiction
                  | succ j =>
                      rw [List.getElem?_cons_succ] at hj
                      obtain ⟨hlast, hrest⟩ := ih hj
                      exact ⟨by rw [List.length_cons, ← hlast], hrest⟩

/-- The rotation leaves a pending connect to its callback. -/
theorem selectByRound_again {o : Outside} {block : Option (Nat → BitVec 64)} {servers : Servers}
    {rings : Nat → Option Ring} {r : HttpRequest} {target : Option (List UInt8)} {sel : Selection}
    (h : selectByRound o block servers rings r target = .ok sel) : AgainReturns sel := by
  obtain ⟨ret, r₁, servers₁, -, hcases⟩ := selectByRound_cases h
  intro k a hk hagain
  cases hcases with
  | inl hfails =>
      rw [hfails.2] at hk
      contradiction
  | inr hruns =>
      obtain ⟨domain, -, r₂, acts, hr₂, -, hsel⟩ := hruns
      rw [hsel] at hk ⊢
      obtain ⟨hlast, hreturned, hcur, hservers⟩ := retryAttempts_again hk hagain
      refine ⟨hlast, ?_, ?_⟩
      · rw [hr₂ hreturned]
        exact hcur
      · rw [hservers]
        exact Untouched.refl _ _

/-! ## the state of the ring -/

/-- A domain made ready for a selection. -/
theorem resetTried_initState {now : BitVec 32} {block : Option (Nat → BitVec 64)} {servers : Servers}
    {domain : Nat} {d : ServerArr} (h : resetTried block (servers.serverIpArr domain) = some d) (j : Nat) :
    (update servers.serverIpArr domain (resetServers now d) j).initState =
        (servers.serverIpArr j).initState ∨
      (update servers.serverIpArr domain (resetServers now d) j).initState = .modified := by
  have hsame : d.initState = (servers.serverIpArr domain).initState := by
    rw [resetTried] at h
    split at h
    · cases h
      rfl
    · obtain ⟨words, -, hd⟩ := Option.map_eq_some_iff.mp h
      rw [← hd]
  by_cases hj : j = domain
  · subst hj
    rw [update_self, resetServers, ← hsame]
    split
    · exact .inr rfl
    · exact .inl rfl
  · rw [update_of_ne hj]
    exact .inl rfl

theorem initBeforeRound_initState {now : BitVec 32} {block : Option (Nat → BitVec 64)}
    {servers servers₁ : Servers} {r r₁ : HttpRequest} {target : Option (List UInt8)} {ret : Ret}
    (h : initBeforeRound now block servers r target = .ok (ret, r₁, servers₁)) (j : Nat) :
    (servers₁.serverIpArr j).initState = (servers.serverIpArr j).initState ∨
      (servers₁.serverIpArr j).initState = .modified := by
  obtain ⟨k, -, -, ⟨-, rfl, -⟩ | ⟨d, -, htried, rfl⟩⟩ := initBeforeRound_cases h
  · exact .inl rfl
  · exact resetTried_initState htried j

theorem getServerByRoundOnce_initState (now : BitVec 32) (d : ServerArr) :
    (getServerByRoundOnce now d).2.initState = d.initState := by
  rw [getServerByRoundOnce]
  cases (roundLoop d.tried now d.upstreamServer d.nelts).best <;> rfl

theorem retryLoop_initState (now : BitVec 32) (conn : Nat → Ret) (domain k : Nat) (r : HttpRequest)
    (d : ServerArr) : (retryLoop now conn domain k r d).d.initState = d.initState := by
  induction k generalizing r d with
  | zero => rfl
  | succ k ih =>
      have hsame := getServerByRoundOnce_initState now d
      rw [retryLoop]
      cases hsel : getServerByRoundOnce now d with
      | mk us d' =>
          rw [hsel] at hsame
          cases us with
          | none => exact (ih _ _).trans hsame
          | some i =>
              cases hret : conn (r.upstreamTries + 1) with
              | ok =>
                  simp only [hret]
                  exact hsame
              | again =>
                  simp only [hret]
                  exact hsame
              | error =>
                  simp only [hret]
                  exact (ih _ _).trans hsame
              | invalidRequest =>
                  simp only [hret]
                  exact (ih _ _).trans hsame

/-- The rotation does not make a ring valid. -/
theorem selectByRound_initState {o : Outside} {block : Option (Nat → BitVec 64)} {servers : Servers}
    {rings : Nat → Option Ring} {r : HttpRequest} {target : Option (List UInt8)} {sel : Selection}
    (h : selectByRound o block servers rings r target = .ok sel) (j : Nat) :
    (sel.servers.serverIpArr j).initState = (servers.serverIpArr j).initState ∨
      (sel.servers.serverIpArr j).initState = .modified := by
  obtain ⟨ret, r₁, servers₁, hinit, hcases⟩ := selectByRound_cases h
  have hbefore := initBeforeRound_initState hinit j
  cases hcases with
  | inl hfails =>
      rw [hfails.2]
      exact hbefore
  | inr hruns =>
      obtain ⟨domain, -, r₂, acts, -, -, hsel⟩ := hruns
      rw [hsel]
      by_cases hj : j = domain
      · subst hj
        simp only [update_self, retryLoop_initState]
        exact hbefore
      · simp only [update_of_ne hj]
        exact hbefore

/-- The ring a server is looked up on is valid. -/
theorem initBeforeConsistentHashGet_initDone {o : Outside} {servers servers' : Servers}
    {rings rings' : Nat → Option Ring} {r r' : HttpRequest} {target : Option (List UInt8)}
    (h : initBeforeConsistentHashGet o servers rings r target = .ok (r', servers', rings')) :
    r'.upstreamTries = r.upstreamTries ∧ ∃ domain, r'.curServerDomain = some domain ∧
      (servers'.serverIpArr domain).initState = .initDone := by
  rw [initBeforeConsistentHashGet] at h
  cases hround : initBeforeRound o.now o.block servers r target with
  | error f =>
      rw [hround] at h
      contradiction
  | ok v =>
      obtain ⟨ret, r₁, servers₁⟩ := v
      obtain ⟨htries, domain, hdomain⟩ := initBeforeRound_request hround
      simp only [hround, bind, Except.bind, hdomain, deref_some] at h
      split at h
      · next hvalid =>
          cases h
          exact ⟨htries, domain, hdomain, hvalid⟩
      · split at h
        · contradiction
        · cases h
          exact ⟨htries, domain, hdomain, by simp only [update_self]⟩

/-- The lookup leaves the tries of the request alone and the ring valid. -/
theorem hashLookup_initDone {o : Outside} {servers servers' : Servers} {rings rings' : Nat → Option Ring}
    {r r' : HttpRequest} {target : Option (List UInt8)} {domain : Nat} {us : Option Nat}
    (h : hashLookup o servers rings r target = .ok (r', servers', rings', domain, us)) :
    r'.upstreamTries = r.upstreamTries ∧ (servers'.serverIpArr domain).initState = .initDone := by
  rw [hashLookup] at h
  cases hinit : initBeforeConsistentHashGet o servers rings r target with
  | error f =>
      rw [hinit] at h
      contradiction
  | ok v =>
      obtain ⟨r₁, servers₁, rings₁⟩ := v
      obtain ⟨htries, d, hdomain, hvalid⟩ := initBeforeConsistentHashGet_initDone hinit
      simp only [hinit, bind, Except.bind, hdomain, deref_some] at h
      split at h
      · contradiction
      · cases h
        exact ⟨htries, hvalid⟩

/-! ## both modes -/

/-- What the server of the ring answered, the connect not having gone through:
`AGAIN` is treated as a failure, and any other answer is one. -/
theorem hashAgain_iff {o : Outside} {servers : Servers} {rings : Nat → Option Ring} {r : HttpRequest}
    {target : Option (List UInt8)} {domain i : Nat} {ret : Ret} {sel : Selection}
    (hvalid : (servers.serverIpArr domain).initState = .initDone)
    (h : (do
      let d := { servers.serverIpArr domain with initState := .modified }
      let d := { d with
        upstreamServer := update d.upstreamServer i (failServer o.now (d.upstreamServer i)) }
      let sel ← hashFailed o o.retryBlock
        { servers with serverIpArr := update servers.serverIpArr domain d } rings r target
      pure { sel with
        acts := .tryConnect (domain, i) ret :: .free (domain, i) :: sel.acts
        attempts := ⟨(domain, i), ret, servers⟩ :: sel.attempts } : Except Fault Selection) = .ok sel) :
    AgainReturns sel ↔ ¬ ret = .again := by
  simp only [bind, Except.bind] at h
  split at h
  · contradiction
  · next sel₁ hround =>
    cases h
    have hstate := selectByRound_initState hround domain
    simp only [update_self] at hstate
    constructor
    · intro hreturns hagain
      have huntouched := (hreturns 0 _ rfl hagain).2.2.initState
      rw [hvalid] at huntouched
      cases hstate with
      | inl hsame =>
          rw [huntouched] at hsame
          contradiction
      | inr hmodified =>
          rw [huntouched] at hmodified
          contradiction
    · intro hne k a hk hagain
      cases k with
      | zero =>
          cases hk
          exact absurd hagain hne
      | succ k =>
          rw [List.getElem?_cons_succ] at hk
          obtain ⟨hlast, hrest⟩ := selectByRound_again hround k a hk hagain
          exact ⟨by rw [List.length_cons, ← hlast], hrest⟩

/-- **A connect in progress**: in either mode a selection that has seen
`try_connect` return `AGAIN` returns with that server, tries no other and leaves
its bookkeeping alone, if and only if it was not the server of the ring that
answered so. -/
theorem again_returns_iff (lb : LoadBalance) (o : Outside) (servers : Servers)
    (rings : Nat → Option Ring) (r : HttpRequest) (target : Option (List UInt8)) (sel : Selection)
    (h : tryConnectUpstream lb o servers rings r target = .ok sel) :
    AgainReturns sel ↔ ¬ RingAgain lb o servers rings r target := by
  cases lb with
  | roundMode => exact iff_of_true (selectByRound_again h) (fun hring => absurd hring.1 (by decide))
  | consistentHash =>
      rw [tryConnectUpstream, getServerByConsistentHash] at h
      by_cases htries : 0 < r.upstreamTries
      · rw [if_pos htries] at h
        exact iff_of_true (selectByRound_again h) (fun hring => by have := hring.2.1; omega)
      · have hzero : r.upstreamTries = 0 := by omega
        rw [if_neg htries, hzero] at h
        simp only [Nat.zero_add] at h
        cases hlookup : hashLookup o servers rings { r with upstreamTries := 1 } target with
        | error f =>
            rw [hlookup] at h
            contradiction
        | ok v =>
            obtain ⟨r₁, servers₁, rings₁, domain, us⟩ := v
            simp only [hlookup, bind, Except.bind] at h
            cases us with
            | none =>
                refine iff_of_true (selectByRound_again h) (fun hring => ?_)
                obtain ⟨-, -, -, r', servers', rings', domain', i, hsome⟩ := hring
                rw [hlookup] at hsome
                cases hsome
            | some i =>
                have hring : RingAgain .consistentHash o servers rings r target ↔ o.conn 1 = .again :=
                  ⟨fun hring => hring.2.2.1, fun hagain =>
                    ⟨rfl, hzero, hagain, r₁, servers₁, rings₁, domain, i, hlookup⟩⟩
                obtain ⟨htries₁, hvalid⟩ := hashLookup_initDone hlookup
                rw [hring]
                simp only [htries₁] at h
                by_cases hok : o.conn 1 = .ok
                · rw [if_pos hok] at h
                  cases h
                  refine iff_of_true (fun k a hk hagain => ?_) (by rw [hok]; exact Ret.noConfusion)
                  rw [List.getElem?_singleton] at hk
                  split at hk
                  · cases hk
                    contradiction
                  · contradiction
                · rw [if_neg hok] at h
                  exact hashAgain_iff hvalid h


/-! ## one server -/

/-- One domain with one server, `127.0.0.1:8080`, as `upstream_process_init`
leaves it in hash mode. -/
def localServers : Servers where
  serverIpArr := fun _ => upstreamProcessInit .consistentHash [98] 1
    (fun _ => { host := [49, 50, 55, 46, 48, 46, 48, 46, 49], port := 8080 }) .zeros
  nelts := 1

/-- A client on the same machine, while every connect is in progress. -/
def localClient : Outside where
  now := 0
  conn := fun _ => .again
  ip := 0x0100007f
  pCeil := fun a b => if b = 0 then 0 else (a + b - 1) / b
  qsort := fun nodes => nodes
  block := none
  retryBlock := none
  cycle := some fun _ => {}

/-- The ring of that domain. -/
def localRing : Ring := buildRing localClient (resetServers 0 (localServers.serverIpArr 0)) fun _ => {}

/-- The client is behind all eight nodes, and so led to the first one. -/
theorem localRing_lookup :
    getServerByConsistentHashOnce 0 (resetServers 0 (localServers.serverIpArr 0)) (some localRing)
      (hashCodeOfIpInteger localClient.ip) = .ok (some 0) := by
  have hnodes : localRing.vnodes.toNat = 8 := by decide +kernel
  have hsearch : hashSearch localRing.cycle (hashCodeOfIpInteger localClient.ip) 0 8 none = none := by
    rw [hashSearch, if_pos (by decide), if_pos (by decide +kernel), hashSearch, if_pos (by decide),
      if_pos (by decide +kernel), hashSearch, if_pos (by decide), if_pos (by decide +kernel), hashSearch,
      if_neg (by decide)]
  have hfirst : (localRing.cycle 0).rnode = some 0 := by decide +kernel
  simp only [getServerByConsistentHashOnce, deref_some, bind, Except.bind, hnodes, hsearch, if_true, hfirst]
  rfl

/-- The rotation returns with the only server. -/
theorem again_returns_round :
    ∃ sel, tryConnectUpstream .roundMode localClient localServers (fun _ => none) {} (some [98]) = .ok sel ∧
      sel.acts = [.tryConnect (0, 0) .again] ∧ sel.r.curUpstream = some (0, 0) ∧
      (AgainReturns sel ↔ ¬ RingAgain .roundMode localClient localServers (fun _ => none) {} (some [98])) :=
  ⟨_, rfl, by decide +kernel, by decide +kernel,
    again_returns_iff .roundMode localClient localServers (fun _ => none) {} (some [98]) _ rfl⟩

/-- The domain once its ring has been built. -/
def localLooked : Servers where
  serverIpArr := update (update localServers.serverIpArr 0 (resetServers 0 (localServers.serverIpArr 0))) 0
    { resetServers 0 (localServers.serverIpArr 0) with initState := .initDone }
  nelts := 1

theorem hashLookup_local :
    hashLookup localClient localServers (fun _ => none) { upstreamTries := 1 } (some [98]) =
      .ok ({ upstreamTries := 1, curServerDomain := some 0 }, localLooked,
        update (fun _ => none) 0 (some localRing), 0, some 0) := by
  have hinit : initBeforeConsistentHashGet localClient localServers (fun _ => none)
      { upstreamTries := 1 } (some [98]) = .ok ({ upstreamTries := 1, curServerDomain := some 0 },
        localLooked, update (fun _ => none) 0 (some localRing)) := rfl
  have hsame : ∀ ring hashcode, getServerByConsistentHashOnce 0 (localLooked.serverIpArr 0) ring hashcode =
      getServerByConsistentHashOnce 0 (resetServers 0 (localServers.serverIpArr 0)) ring hashcode :=
    fun _ _ => rfl
  have hnow : localClient.now = 0 := rfl
  simp only [hashLookup, hinit, bind, Except.bind, deref_some, hnow, hsame, update_self, localRing_lookup]
  rfl

/-- The server of the ring is counted as failed while its connect is in
progress. -/
theorem again_fails_ring :
    ∃ sel, tryConnectUpstream .consistentHash localClient localServers (fun _ => none) {} (some [98]) =
      .ok sel ∧ ¬ AgainReturns sel := by
  have hselect : ∃ sel, tryConnectUpstream .consistentHash localClient localServers (fun _ => none) {}
      (some [98]) = .ok sel ∧ (AgainReturns sel ↔ ¬ localClient.conn 1 = .again) := by
    rw [tryConnectUpstream, getServerByConsistentHash, if_neg (Nat.lt_irrefl 0)]
    simp only [Nat.zero_add, hashLookup_local, bind, Except.bind]
    exact ⟨_, rfl, @hashAgain_iff localClient localLooked (update (fun _ => none) 0 (some localRing))
      { upstreamTries := 1, curServerDomain := some 0 } (some [98]) 0 0 .again _
      (hashLookup_initDone hashLookup_local).2 rfl⟩
  obtain ⟨sel, hsel, hreturns⟩ := hselect
  exact ⟨sel, hsel, fun hagain => hreturns.mp hagain rfl⟩

end PWebServer
