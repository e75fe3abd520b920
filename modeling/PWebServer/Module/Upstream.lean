import Mathlib.Logic.Function.Basic
import PWebServer.Http.Types

/-!
# Module.Upstream

The balancer of `upstream_server_module.c`: the servers of a domain with their
weights and failures, the selection of one server by smooth weighted rotation,
its release, and the retry loop around `try_connect`.

An array is its address: a function from indices to elements beside the number
of elements.  The clock is the 32-bit `current_msec`.

`int`s are exact.  With a total weight below 2^25 those of the source agree as
long as no server fails (`selections_within`).  Otherwise a selection moves a
current weight by at most the total weight `W`, so they agree for the first
`2^31 / W - 1` selections.
-/

namespace PWebServer

open Function

/-- `state` of a server: how the last connect to it went. -/
inductive ConnState where
  | connFail
  | connSuc
  deriving DecidableEq, Repr

/-- `location_t`, what the configuration says about one server. -/
structure Location where
  host : List UInt8 := []
  weight : Int := 1
  failTimedout : BitVec 32 := 10000
  port : BitVec 16 := 0
  deriving DecidableEq, Repr

/-- `upsream_server_t`. -/
structure UpstreamServer where
  weight : Int
  effectiveWeight : Int
  currentWeight : Int
  statusChanged : Bool
  fails : Int
  maxFails : Int
  state : ConnState
  lastFailed : BitVec 32
  failTimeout : BitVec 32
  location : Location
  deriving DecidableEq, Repr

/-- `chash_state_type`. -/
inductive ChashState where
  | idle
  | modified
  | initDone
  deriving DecidableEq, Repr

/-- `upsream_server_arr_t`: the servers of one domain.  `tried` is the bitmap
the pointer of that name points to, `data` or a block of a request's pool. -/
structure ServerArr where
  domainName : List UInt8
  upstreamServer : Nat → UpstreamServer
  nelts : Nat
  tried : Nat → BitVec 64
  initState : ChashState

/-- `server_cfg.load_balance`. -/
inductive LoadBalance where
  | roundMode
  | consistentHash
  deriving DecidableEq, Repr

/-! ## initialisation -/

/-- The loop body of `upstream_process_init`: what it stores in one server.
The two fields it leaves alone keep what `malloc` returned, `s`. -/
def upstreamServerInit (lb : LoadBalance) (loc : Location) (s : UpstreamServer) :
    UpstreamServer :=
  { s with
    effectiveWeight := loc.weight
    weight := loc.weight
    location := loc
    currentWeight := 0
    statusChanged := false
    maxFails := if lb = .roundMode then 1 else 3
    fails := 0
    failTimeout := loc.failTimedout }

/-- `upstream_process_init` for one domain: `nelts` servers from the array of
locations `loc`, in the block `garbage` that `malloc` returned. -/
def upstreamProcessInit (lb : LoadBalance) (name : List UInt8) (nelts : Nat)
    (loc : Nat → Location) (garbage : ServerArr) : ServerArr :=
  { garbage with
    domainName := name
    nelts := nelts
    initState := .idle
    upstreamServer := fun j => upstreamServerInit lb (loc j) (garbage.upstreamServer j) }

/-- A block of zeros, as `malloc` may return it. -/
def ServerArr.zeros : ServerArr where
  domainName := []
  upstreamServer := fun _ =>
    { weight := 0, effectiveWeight := 0, currentWeight := 0, statusChanged := false, fails := 0,
      maxFails := 0, state := .connFail, lastFailed := 0, failTimeout := 0, location := {} }
  nelts := 0
  tried := fun _ => 0
  initState := .idle

/-! ## down servers -/

/-- `in_fail_time_duration`, both sides cast to `int`. -/
def inFailTimeDuration (now : BitVec 32) (s : UpstreamServer) : Bool :=
  decide ((now - s.lastFailed).toInt ≤ s.failTimeout.toInt)

/-- `is_server_down`. -/
def isServerDown (now : BitVec 32) (s : UpstreamServer) : Bool :=
  decide (s.maxFails ≠ 0) && decide (s.maxFails ≤ s.fails) && inFailTimeDuration now s

/-! ## one round -/

/-- The last loop of `init_before_round`, on one server: a server whose
failures have timed out starts afresh. -/
def resetServer (now : BitVec 32) (s : UpstreamServer) : UpstreamServer :=
  { s with
    fails := if s.maxFails ≤ s.fails ∧ ¬ inFailTimeDuration now s then 0 else s.fails
    state := .connSuc }

/-- Whether that loop finds a server whose failures have timed out. -/
def anyTimedOut (now : BitVec 32) (d : ServerArr) : Bool :=
  (List.range d.nelts).any fun j =>
    let s := d.upstreamServer j
    decide (s.maxFails ≤ s.fails) && !inFailTimeDuration now s

/-- The last loop of `init_before_round`. -/
def resetServers (now : BitVec 32) (d : ServerArr) : ServerArr :=
  { d with
    initState := if anyTimedOut now d then .modified else d.initState
    upstreamServer := fun j =>
      if j < d.nelts then resetServer now (d.upstreamServer j) else d.upstreamServer j }

/-- How `init_before_round` obtains the bitmap: the word inside the record,
zeroed, for up to 64 servers, else a block of the request's pool as `pMalloc`
returns it, `none` for `NULL`. -/
def resetTried (block : Option (Nat → BitVec 64)) (d : ServerArr) : Option ServerArr :=
  if d.nelts ≤ 64 then some { d with tried := fun _ => 0 }
  else block.map fun words => { d with tried := words }

/-- The mask of server `i` in its bitmap word, `(uintptr_t) (1 << i % 64)`.
The shift is one of `int`s: it takes its count modulo 32, as the machines the
server runs on do, and the sign bit is extended. -/
def bitMask (i : Nat) : BitVec 64 := ((1#32) <<< (i % 64 % 32)).signExtend 64

/-- The locals of the loop of `get_server_by_round_once`, and the servers it
walks over. -/
structure RoundScan where
  servers : Nat → UpstreamServer
  n : Nat := 0
  m : BitVec 64 := 0
  total : Int := 0
  best : Option Nat := none

/-- A server the loop adds up: credited with its effective weight, and
recovering by one if a failure has lowered that. -/
def UpstreamServer.credit (s : UpstreamServer) : UpstreamServer :=
  { s with
    currentWeight := s.currentWeight + s.effectiveWeight
    effectiveWeight :=
      if s.effectiveWeight < s.weight then s.effectiveWeight + 1 else s.effectiveWeight }

/-- The body of the loop of `get_server_by_round_once`. -/
def roundBody (tried : Nat → BitVec 64) (now : BitVec 32) (st : RoundScan) (i : Nat) :
    RoundScan :=
  let st := { st with n := i / 64, m := bitMask i }
  if tried st.n &&& st.m ≠ 0#64 then st
  else if isServerDown now (st.servers i) then st
  else
    let server := (st.servers i).credit
    { st with
      servers := update st.servers i server
      total := st.total + (st.servers i).effectiveWeight
      best := match st.best with
        | none => some i
        | some b =>
            if (st.servers b).currentWeight < server.currentWeight then some i else some b }

/-- The loop of `get_server_by_round_once` over the first `k` servers. -/
def roundLoop (tried : Nat → BitVec 64) (now : BitVec 32) (servers : Nat → UpstreamServer)
    (k : Nat) : RoundScan :=
  (List.range k).foldl (roundBody tried now) { servers := servers }

/-- `get_server_by_round_once`: the index of the selected server, `none` for
`NULL`.  The mark goes to the word and mask the loop ended with. -/
def getServerByRoundOnce (now : BitVec 32) (d : ServerArr) : Option Nat × ServerArr :=
  let st := roundLoop d.tried now d.upstreamServer d.nelts
  match st.best with
  | none => (none, { d with upstreamServer := st.servers })
  | some best =>
      let server := st.servers best
      (some best, { d with
        upstreamServer := update st.servers best
          { server with currentWeight := server.currentWeight - st.total }
        tried := update d.tried st.n (d.tried st.n ||| st.m) })

/-! ## release -/

/-- `free_server_after_round_select`.  The division is that of C, truncated. -/
def freeServerAfterRoundSelect (now : BitVec 32) (s : UpstreamServer) : UpstreamServer :=
  if s.state = .connFail then
    let effective :=
      if s.maxFails ≠ 0 then s.effectiveWeight - s.weight.tdiv s.maxFails
      else s.effectiveWeight
    { s with
      fails := s.fails + 1
      lastFailed := now
      effectiveWeight := if effective < 0 then 0 else effective }
  else if ¬ inFailTimeDuration now s then { s with fails := 0 }
  else s

/-! ## requests -/

/-- `domain_upstream_server_arr_t`, the global `servers`. -/
structure Servers where
  serverIpArr : Nat → ServerArr
  nelts : Nat

/-- A server of all the domains: the index of its domain and its own. -/
abbrev ServerId := Nat × Nat

/-- What the balancer does that its bookkeeping is about. -/
inductive Act where
  /-- `try_connect` was called and returned -/
  | tryConnect (us : ServerId) (ret : Ret)
  /-- a pending connect ended with an error in `SO_ERROR` -/
  | connectFailed (us : ServerId)
  /-- a pending connect timed out -/
  | connectTimedout (us : ServerId)
  /-- the server was released -/
  | free (us : ServerId)
  /-- `construct_err` with that status -/
  | constructErr (status : Nat)
  deriving DecidableEq, Repr

/-- The search of `init_before_round` for a domain: the index of the first one
of that name, the number of domains if there is none. -/
def findDomain (servers : Servers) (target : List UInt8) : Nat :=
  ((List.range servers.nelts).find? fun i =>
    (servers.serverIpArr i).domainName == target).getD servers.nelts

/-- `init_before_round`.  The domain is searched for on the first selection
only, and it is the first domain that a retry resets. -/
def initBeforeRound (now : BitVec 32) (block : Option (Nat → BitVec 64)) (servers : Servers)
    (r : HttpRequest) (target : Option (List UInt8)) :
    Except Fault (Ret × HttpRequest × Servers) := do
  let (domain, r) ←
    if r.curServerDomain = none then do
      let target ← deref target
      let domain := findDomain servers target
      pure (domain, { r with curServerDomain := some domain })
    else pure (0, r)
  if servers.nelts ≤ domain then throw .bounds
  match resetTried block (servers.serverIpArr domain) with
  | none => pure (.error, r, servers)
  | some d =>
      pure (.ok, r, { servers with
        serverIpArr := update servers.serverIpArr domain (resetServers now d) })

/-- `us->state = UPSTREAM_CONN_FAIL` followed by a release. -/
def failServer (now : BitVec 32) (s : UpstreamServer) : UpstreamServer :=
  freeServerAfterRoundSelect now { s with state := .connFail }

/-- The outcome of a run of the retry loop: `returned` if a connect went
through or is in progress. -/
structure RetryRun where
  r : HttpRequest
  d : ServerArr
  acts : List Act
  returned : Bool

/-- The loop of `get_server_by_round`, for the `k` tries that are left.  The
connect of a try returns what `conn` says about that try; unless it fails, the
server becomes the request's. -/
def retryLoop (now : BitVec 32) (conn : Nat → Ret) (domain : Nat) :
    Nat → HttpRequest → ServerArr → RetryRun
  | 0, r, d => ⟨r, d, [], false⟩
  | k + 1, r, d =>
      let (us, d) := getServerByRoundOnce now d
      let r := { r with upstreamTries := r.upstreamTries + 1 }
      match us with
      | none => retryLoop now conn domain k r d
      | some i =>
          match conn r.upstreamTries with
          | .ok => ⟨{ r with curUpstream := some (domain, i) }, d,
              [.tryConnect (domain, i) .ok], true⟩
          | .again => ⟨{ r with curUpstream := some (domain, i) }, d,
              [.tryConnect (domain, i) .again], true⟩
          | ret =>
              let run := retryLoop now conn domain k r { d with
                upstreamServer := update d.upstreamServer i (failServer now (d.upstreamServer i)) }
              { run with
                acts := .tryConnect (domain, i) ret ::
                  .free (domain, i) :: run.acts }

/-- `get_server_by_round`: the request, the servers and what was done. -/
def getServerByRound (now : BitVec 32) (conn : Nat → Ret) (block : Option (Nat → BitVec 64))
    (servers : Servers) (r : HttpRequest) (target : Option (List UInt8)) :
    Except Fault (HttpRequest × Servers × List Act) := do
  let (err, r, servers) ← initBeforeRound now block servers r target
  if err ≠ .ok then pure (r, servers, [])
  else
    let domain ← deref r.curServerDomain
    let d := servers.serverIpArr domain
    let run := retryLoop now conn domain (d.nelts - r.upstreamTries) r d
    let servers := { servers with serverIpArr := update servers.serverIpArr domain run.d }
    if run.returned then pure (run.r, servers, run.acts)
    else if d.nelts ≤ run.r.upstreamTries then
      pure (run.r.constructErr 502, servers, run.acts ++ [.constructErr 502])
    else pure (run.r, servers, run.acts)

end PWebServer
