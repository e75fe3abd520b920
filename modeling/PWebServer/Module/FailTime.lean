import PWebServer.Lib.Machine
import PWebServer.Module.Proxy

/-!
# Module.FailTime

How long a server is held down.  `current_msec` and `last_failed` are the low 32
bits of a count of milliseconds that goes on for ever, and the time since the last
failure is their difference, read as an `int`: it is that of the clock until
2^31 - 1 milliseconds have passed, and wraps for ever after.
-/

namespace PWebServer

open Function

/-- The servers, the milliseconds that `current_msec` counts, and when the last
failure of each server was recorded, which is no part of the program. -/
structure Clocked where
  time : Nat
  servers : Servers
  failedAt : ServerId → Nat

/-- `current_msec` -/
def Clocked.currentMsec (st : Clocked) : BitVec 32 := BitVec.ofNat 32 st.time

/-- What is done with the servers, and time that passes. -/
inductive ClockOp where
  | idle (msec : Nat)
  /-- `init_before_round` -/
  | init (block : Option (Nat → BitVec 64)) (r : HttpRequest) (target : Option (List UInt8))
  /-- `get_server_by_round_once` for a domain -/
  | select (domain : Nat)
  /-- `us->state = UPSTREAM_CONN_FAIL` -/
  | connFail (us : ServerId)
  /-- `free_server_after_round_select` -/
  | release (us : ServerId)

/-- One operation. -/
def clockStep (st : Clocked) : ClockOp → Option Clocked
  | .idle msec => some { st with time := st.time + msec }
  | .init block r target =>
      (initBeforeRound st.currentMsec block st.servers r target).toOption.map fun ret =>
        { st with servers := ret.2.2 }
  | .select domain =>
      some { st with servers := { st.servers with
        serverIpArr := update st.servers.serverIpArr domain
          (getServerByRoundOnce st.currentMsec (st.servers.serverIpArr domain)).2 } }
  | .connFail us => some { st with servers := st.servers.set us { st.servers.get us with state := .connFail } }
  | .release us =>
      some { st with
        servers := st.servers.set us (freeServerAfterRoundSelect st.currentMsec (st.servers.get us))
        failedAt :=
          if (st.servers.get us).state = .connFail then update st.failedAt us st.time else st.failedAt }

/-- The domains as `upstream_process_init` leaves them. -/
structure Clocked.Init (st : Clocked) : Prop where
  servers : ∃ lb, ∀ k, ∃ name nelts loc garbage,
    st.servers.serverIpArr k = upstreamProcessInit lb name nelts loc garbage

/-- Selections and failures in any order, with any time between them. -/
def clocked : Machine Clocked ClockOp where
  init := Clocked.Init
  allows _ _ := True
  step := clockStep

/-- A server that has failed too often is held down: `get_server_by_round_once`
skips it, or `init_before_round` leaves it its failures. -/
def HeldDown (now : BitVec 32) (s : UpstreamServer) : Prop :=
  isServerDown now s = true ∨ s.maxFails ≤ s.fails ∧ (resetServer now s).fails = s.fails

/-- `last_failed` is the low half of when the last failure was recorded. -/
structure Recorded (time failedAt : Nat) (s : UpstreamServer) : Prop where
  maxFails : 0 < s.maxFails
  past : 0 < s.fails → failedAt ≤ time
  lastFailed : 0 < s.fails → s.lastFailed = BitVec.ofNat 32 failedAt

section Recorded

variable {time failedAt : Nat} {s s' : UpstreamServer} {st st' : Clocked} {servers : Servers} {us : ServerId}

theorem Recorded.congr (h : Recorded time failedAt s) (hmax : s'.maxFails = s.maxFails)
    (hlast : s'.lastFailed = s.lastFailed) (hfails : s'.fails = s.fails ∨ s'.fails = 0) : Recorded time failedAt s' := by
  have hpos : 0 < s'.fails → 0 < s.fails := fun hpos => by omega
  exact ⟨hmax ▸ h.maxFails, fun hs' => h.past (hpos hs'), fun hs' => hlast.trans (h.lastFailed (hpos hs'))⟩

theorem Recorded.sameFailures (h : Recorded time failedAt s) (hsame : SameFailures s' s) : Recorded time failedAt s' :=
  h.congr hsame.maxFails hsame.lastFailed (.inl hsame.fails)

theorem Recorded.later (h : Recorded time failedAt s) (msec : Nat) : Recorded (time + msec) failedAt s :=
  ⟨h.maxFails, fun hs => Nat.le_add_right_of_le (h.past hs), h.lastFailed⟩

theorem Recorded.resetServer (h : Recorded time failedAt s) (now : BitVec 32) :
    Recorded time failedAt (resetServer now s) := by
  refine h.congr rfl rfl ?_
  unfold PWebServer.resetServer
  dsimp only
  split
  · exact .inr rfl
  · exact .inl rfl

/-- A release records a failure now, or none. -/
theorem Recorded.release (h : Recorded time failedAt s) :
    Recorded time (if s.state = .connFail then time else failedAt)
      (freeServerAfterRoundSelect (BitVec.ofNat 32 time) s) := by
  unfold freeServerAfterRoundSelect
  by_cases hfail : s.state = .connFail
  · rw [if_pos hfail, if_pos hfail]
    exact ⟨h.maxFails, fun _ => Nat.le_refl time, fun _ => rfl⟩
  · rw [if_neg hfail, if_neg hfail]
    split
    · exact h.congr rfl rfl (.inr rfl)
    · exact h

/-- What one operation keeps. -/
theorem recorded_step {op : ClockOp} (h : ∀ us, Recorded st.time (st.failedAt us) (st.servers.get us))
    (hstep : clockStep st op = some st') : ∀ us, Recorded st'.time (st'.failedAt us) (st'.servers.get us) := by
  intro us
  cases op with
  | idle msec =>
      cases hstep
      exact (h us).later msec
  | init block r target =>
      obtain ⟨⟨ret, r₁, servers₁⟩, hinit, rfl⟩ := Option.map_eq_some_iff.mp hstep
      have hok : initBeforeRound st.currentMsec block st.servers r target = .ok (ret, r₁, servers₁) := by
        cases hrun : initBeforeRound st.currentMsec block st.servers r target with
        | error err => simp [hrun, Except.toOption] at hinit
        | ok v =>
            rw [hrun] at hinit
            exact congrArg Except.ok (Option.some.inj hinit)
      change Recorded st.time (st.failedAt us) (servers₁.get us)
      obtain hsame | hreset := initBeforeRound_get hok us
      · rw [hsame]
        exact h us
      · rw [hreset]
        exact (h us).resetServer st.currentMsec
  | select domain =>
      cases hstep
      refine (h us).sameFailures ?_
      unfold Servers.get
      by_cases hk : us.1 = domain
      · subst hk
        simp only [update_self]
        exact getServerByRoundOnce_sameFailures _ _ _
      · simp only [update_of_ne hk]
        exact .refl _
  | connFail us' =>
      cases hstep
      change Recorded st.time (st.failedAt us) ((st.servers.set us' _).get us)
      rw [Servers.get_set]
      split
      · next heq =>
        subst heq
        exact (h us).congr rfl rfl (.inl rfl)
      · exact h us
  | release us' =>
      cases hstep
      change Recorded st.time
        ((if (st.servers.get us').state = .connFail then update st.failedAt us' st.time else st.failedAt) us)
        ((st.servers.set us' _).get us)
      rw [Servers.get_set]
      by_cases heq : us = us'
      · subst heq
        rw [if_pos rfl, ite_apply, update_self]
        exact (h us).release
      · rw [if_neg heq, ite_apply, update_of_ne heq, ite_self]
        exact h us

theorem recorded_of_reaches (h : clocked.Reaches st) (us : ServerId) :
    Recorded st.time (st.failedAt us) (st.servers.get us) := by
  refine h.invariant (I := fun st => ∀ us, Recorded st.time (st.failedAt us) (st.servers.get us)) ?_ ?_ us
  · intro st hinit us
    obtain ⟨lb, hservers⟩ := hinit.servers
    obtain ⟨name, nelts, loc, garbage, hdomain⟩ := hservers us.1
    have hget : st.servers.get us = upstreamServerInit lb (loc us.2) (garbage.upstreamServer us.2) := by
      unfold Servers.get
      rw [hdomain]
      rfl
    have hfails : ¬0 < (st.servers.get us).fails := by
      rw [hget]
      exact lt_irrefl 0
    refine ⟨?_, fun hpos => absurd hpos hfails, fun hpos => absurd hpos hfails⟩
    have hmax : (st.servers.get us).maxFails = if lb = .roundMode then 1 else 3 := by rw [hget]; rfl
    rw [hmax]
    cases lb <;> decide
  · exact fun st op st' h _ hstep => recorded_step h hstep

theorem heldDown_iff (hmax : 0 < s.maxFails) (now : BitVec 32) :
    HeldDown now s ↔ s.maxFails ≤ s.fails ∧ inFailTimeDuration now s = true := by
  unfold HeldDown isServerDown PWebServer.resetServer
  by_cases hfails : s.maxFails ≤ s.fails
  · have hne : s.maxFails ≠ 0 := by omega
    have hne' : (0 : Int) ≠ s.fails := by omega
    cases inFailTimeDuration now s <;> simp [hfails, hne, hne']
  · simp [hfails]

end Recorded

/-- A server that has failed too often is held down for its timeout at most, unless
more time has passed and its low half, read as an `int`, does not exceed the
timeout. -/
theorem heldDown_elapsed_iff {st : Clocked} (h : clocked.Reaches st) (us : ServerId) :
    (HeldDown st.currentMsec (st.servers.get us) →
        st.time - st.failedAt us ≤ (st.servers.get us).failTimeout.toNat) ↔
      ((st.servers.get us).maxFails ≤ (st.servers.get us).fails →
        st.time - st.failedAt us ≤ (st.servers.get us).failTimeout.toNat ∨
          (st.servers.get us).failTimeout.toInt < (BitVec.ofNat 32 (st.time - st.failedAt us)).toInt) := by
  have hrecorded := recorded_of_reaches h us
  rw [heldDown_iff hrecorded.maxFails]
  by_cases hfails : (st.servers.get us).maxFails ≤ (st.servers.get us).fails
  · have hpos : 0 < (st.servers.get us).fails := lt_of_lt_of_le hrecorded.maxFails hfails
    have hlow : st.currentMsec - (st.servers.get us).lastFailed = BitVec.ofNat 32 (st.time - st.failedAt us) := by
      have hpast := hrecorded.past hpos
      rw [hrecorded.lastFailed hpos, Clocked.currentMsec]
      refine BitVec.eq_of_toNat_eq ?_
      rw [BitVec.ofNat_sub_ofNat, BitVec.toNat_ofNat, BitVec.toNat_ofNat]
      omega
    rw [inFailTimeDuration, hlow, decide_eq_true_eq, and_iff_right hfails]
    constructor
    · exact fun himp _ => (Int.lt_or_le _ _).symm.imp_left himp
    · exact fun hcond hle => (hcond hfails).resolve_right (Int.not_lt.mpr hle)
  · exact iff_of_true (fun hheld => absurd hheld.1 hfails) fun hle => absurd hle hfails

/-- One domain with one server, at time 0. -/
def clockedServer : Clocked where
  time := 0
  servers := equalServers 1
  failedAt _ := 0

theorem clockedServer_init : clockedServer.Init := ⟨.roundMode, fun _ => ⟨[98], 1, fun _ => {}, .zeros, rfl⟩⟩

instance clockedAllowsDecidable (st : Clocked) (op : ClockOp) : Decidable (clocked.allows st op) := .isTrue trivial

/-- A server that failed a minute ago. -/
theorem heldDown_elapsed_minute : ∃ st, clocked.Reaches st ∧ st.time - st.failedAt (0, 0) = 60000 ∧
    ((HeldDown st.currentMsec (st.servers.get (0, 0)) →
        st.time - st.failedAt (0, 0) ≤ (st.servers.get (0, 0)).failTimeout.toNat) ↔
      ((st.servers.get (0, 0)).maxFails ≤ (st.servers.get (0, 0)).fails →
        st.time - st.failedAt (0, 0) ≤ (st.servers.get (0, 0)).failTimeout.toNat ∨
          (st.servers.get (0, 0)).failTimeout.toInt < (BitVec.ofNat 32 (st.time - st.failedAt (0, 0))).toInt)) := by
  have hinit : clocked.Reaches clockedServer := .init clockedServer_init
  obtain ⟨st, hst, htest⟩ := hinit.exists_of_runTest (fun st => st.time - st.failedAt (0, 0) == 60000)
    [.select 0, .connFail (0, 0), .release (0, 0), .idle 60000] (by decide +kernel)
  exact ⟨st, hst, beq_iff_eq.mp htest, heldDown_elapsed_iff hst (0, 0)⟩

/-- The first server is down, and has not failed for longer than its timeout. -/
def downTooLong (st : Clocked) : Bool :=
  isServerDown st.currentMsec (st.servers.get (0, 0)) &&
    decide ((st.servers.get (0, 0)).failTimeout.toNat < st.time - st.failedAt (0, 0))

/-- After 2^31 milliseconds without a request a server is down that may fail for 10
seconds. -/
theorem heldDown_wrap : ¬∀ st, clocked.Reaches st → ∀ us, HeldDown st.currentMsec (st.servers.get us) →
    st.time - st.failedAt us ≤ (st.servers.get us).failTimeout.toNat := by
  intro hall
  have hinit : clocked.Reaches clockedServer := .init clockedServer_init
  obtain ⟨st, hst, htest⟩ := hinit.exists_of_runTest downTooLong
    [.select 0, .connFail (0, 0), .release (0, 0), .idle 2147483648] (by decide +kernel)
  rw [downTooLong, Bool.and_eq_true, decide_eq_true_eq] at htest
  exact absurd (hall st hst (0, 0) (.inl htest.1)) (Nat.not_le.mpr htest.2)

end PWebServer
