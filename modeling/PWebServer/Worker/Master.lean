import Mathlib.Logic.Function.Basic
import PWebServer.Lib.Machine

/-!
# Worker.Master

`master.c` and `signal_worker_processes`: the master forks the workers, is told
by `SIGCHLD` that some of them have exited, forks others for them and passes on
the signals that end them.

The master takes one step for each of its statements.  A signal handler may run
between any two of them, and workers exit at any time.  `process_get_status`
runs in the handler of `SIGCHLD`: it collects the workers that have exited and
marks their entries in the table.
-/

namespace PWebServer

/-- `worker_t` -/
structure WorkerT where
  pid : Int := 0
  respawn : Bool := false
  exiting : Bool := false
  exited : Bool := false
  deriving DecidableEq, Repr

/-- The signals the master sends. -/
inductive Signo where
  | sigint
  | sigquit
  | sigkill
  deriving DecidableEq, Repr

/-- What `kill` returns: success, `ESRCH` or another error. -/
inductive KillResult where
  | ok
  | esrch
  | failed
  deriving DecidableEq, Repr

/-- The statement the master comes to next.  `i` is an entry of the table, `pid`
what `fork` has returned, `live` the local variable of `reap_children`. -/
inductive MasterPc where
  -- `create_worker_process`
  | createTest
  | createFork
  | createPush (pid : Int)
  | createPid (i : Nat) (pid : Int)
  | createExited (i : Nat) (pid : Int)
  | createExiting (i : Nat)
  | createRespawn (i : Nat)
  -- `master_cycle_process`
  | cycle
  | cycleAlarm
  | suspend
  | reapTest
  | reapClear
  | exitTest
  | termTest
  | quitTest
  -- `reap_children`
  | reapEntry (i : Nat) (live : Bool)
  | reapExitedTest (i : Nat) (live : Bool)
  | reapRespawnTest (i : Nat) (live : Bool)
  | reapFork (i : Nat)
  | reapPid (i : Nat) (pid : Int)
  | reapExited (i : Nat) (pid : Int)
  | reapExiting (i : Nat)
  -- `signal_worker_processes`
  | killEntry (i : Nat) (signo : Signo)
  | killCall (i : Nat) (signo : Signo)
  | killExiting (i : Nat) (signo : Signo)
  | goneExited (i : Nat) (signo : Signo)
  | goneExiting (i : Nat) (signo : Signo)
  | goneReap (i : Nat) (signo : Signo)
  -- `fork` has failed in `spawn_process`: the master itself runs `worker_cycle_process`
  | workerCycle
  | exit
  deriving DecidableEq, Repr

/-- The master: `server_cfg.workers` with the entries behind the last one zeroed
by `vectorInit`, the flags its handlers set, `delay` and the local variable
`live`.  No more entries are pushed than it has from the start, so it is never
resized.  Of the kernel: the children that run, those that have exited with a
status and wait to be collected, and the ones that were collected.  `kills` is no
part of the program: the pids `kill` was called with, and whether they had been
collected by then. -/
structure Master where
  pc : MasterPc := .createTest
  workers : Nat → WorkerT := fun _ => {}
  used : Nat := 0
  workerNum : Nat
  pReap : Bool := false
  pQuit : Bool := false
  pTerminate : Bool := false
  pSigalarm : Bool := false
  delay : Nat := 0
  live : Bool := true
  children : List Int := []
  zombies : List (Int × Nat) := []
  collected : List Int := []
  kills : List (Int × Bool) := []

namespace Master

variable (s : Master)

/-- `server_cfg.workers.capacity` -/
def capacity : Nat := 2 * s.workerNum

/-- On to another statement. -/
def goto (pc : MasterPc) : Master := { s with pc := pc }

/-- An assignment to an entry of the table. -/
def setWorker (i : Nat) (f : WorkerT → WorkerT) : Master :=
  { s with workers := Function.update s.workers i (f (s.workers i)) }

/-- `fork` has returned `pid` to the master; the new worker may have the pid of
one that was collected. -/
def forked (pid : Int) : Master :=
  if 0 < pid then
    { s with children := pid :: s.children, collected := s.collected.filter (· ≠ pid) }
  else s

/-- `kill` is called with `pid`. -/
def killed (pid : Int) : Master := { s with kills := s.kills ++ [(pid, decide (pid ∈ s.collected))] }

/-- One statement of the master; `fork` and `kill` are what these calls return
if it calls them. -/
def step (fork : Int) (kill : KillResult) : Option Master :=
  match s.pc with
  | .createTest => some (s.goto (if s.used < s.workerNum then .createFork else .cycle))
  | .createFork => some ((s.forked fork).goto (.createPush fork))
  | .createPush pid => some ({ s with used := s.used + 1 }.goto (.createPid s.used pid))
  | .createPid i pid => some ((s.setWorker i ({ · with pid := pid })).goto (.createExited i pid))
  | .createExited i _ => some ((s.setWorker i ({ · with exited := false })).goto (.createExiting i))
  | .createExiting i => some ((s.setWorker i ({ · with exiting := false })).goto (.createRespawn i))
  | .createRespawn i => some ((s.setWorker i ({ · with respawn := true })).goto .createTest)
  | .cycle =>
      -- an alarm means that the master has waited for `delay`
      if s.delay ≠ 0 ∧ s.pSigalarm then some ({ s with delay := 2 * s.delay }.goto .cycleAlarm)
      else some (s.goto .suspend)
  | .cycleAlarm => some ({ s with pSigalarm := false }.goto .suspend)
  | .suspend => none
  | .reapTest => some (s.goto (if s.pReap then .reapClear else .exitTest))
  | .reapClear => some ({ s with pReap := false }.goto (.reapEntry 0 false))
  | .reapEntry i live =>
      if i < s.capacity then
        some (s.goto (if (s.workers i).pid ≤ 0 then .reapEntry (i + 1) live else .reapExitedTest i live))
      else some ({ s with live := live }.goto .exitTest)
  | .reapExitedTest i live =>
      some (s.goto (if (s.workers i).exited then .reapRespawnTest i live else .reapEntry (i + 1) true))
  | .reapRespawnTest i live =>
      let w := s.workers i
      some (s.goto (if w.respawn && !w.exiting && !s.pQuit && !s.pTerminate then .reapFork i
        else .reapEntry (i + 1) live))
  | .reapFork i => some ((s.forked fork).goto (if 0 < fork then .reapPid i fork else .workerCycle))
  | .reapPid i pid => some ((s.setWorker i ({ · with pid := pid })).goto (.reapExited i pid))
  | .reapExited i _ => some ((s.setWorker i ({ · with exited := false })).goto (.reapExiting i))
  | .reapExiting i => some ((s.setWorker i ({ · with exiting := false })).goto (.reapEntry (i + 1) true))
  | .exitTest => some (s.goto (if !s.live && (s.pQuit || s.pTerminate) then .exit else .termTest))
  | .termTest =>
      if s.pTerminate then
        let delay := if s.delay = 0 then 50 else s.delay
        some ({ s with delay := delay }.goto (.killEntry 0 (if 1000 ≤ delay then .sigkill else .sigint)))
      else some (s.goto .quitTest)
  | .quitTest => some (s.goto (if s.pQuit then .killEntry 0 .sigquit else .cycle))
  | .killEntry i signo =>
      let w := s.workers i
      if i < s.used then
        some (s.goto (if w.pid = -1 ∨ w.exiting ∧ signo = .sigquit then .killEntry (i + 1) signo
          else .killCall i signo))
      else some (s.goto (if signo = .sigkill then .killEntry 0 .sigint else .cycle))
  | .killCall i signo =>
      some ((s.killed (s.workers i).pid).goto (match kill with
        | .ok => .killExiting i signo
        | .esrch => .goneExited i signo
        | .failed => .killEntry (i + 1) signo))
  | .killExiting i signo => some ((s.setWorker i ({ · with exiting := true })).goto (.killEntry (i + 1) signo))
  | .goneExited i signo => some ((s.setWorker i ({ · with exited := true })).goto (.goneExiting i signo))
  | .goneExiting i signo => some ((s.setWorker i ({ · with exiting := false })).goto (.goneReap i signo))
  | .goneReap i signo => some ({ s with pReap := true }.goto (.killEntry (i + 1) signo))
  | .workerCycle => none
  | .exit => none

/-! ## signals -/

/-- One turn of the loop of `process_get_status`: a worker is collected, and the
first entry with its pid is marked. -/
def collect (z : Int × Nat) : Master :=
  let s := { s with collected := z.1 :: s.collected }
  match (List.range s.used).find? fun i => (s.workers i).pid = z.1 with
  | some i => s.setWorker i fun w => { w with exited := true, respawn := w.respawn && z.2 ≠ 2 }
  | none => s

/-- `process_get_status` -/
def processGetStatus : Master := { s.zombies.foldl collect s with zombies := [] }

/-- A handler has returned; `sigsuspend` returns then. -/
def woken : Master := if s.pc = .suspend then s.goto .reapTest else s

end Master

/-- What happens: a step of the master, the exit of a worker, a signal. -/
inductive MasterInput where
  | step (fork : Int) (kill : KillResult)
  | exited (pid : Int) (status : Nat)
  | sigchld
  | sigalrm
  | sigint
  | sigquit
  deriving DecidableEq, Repr

/-- `fork` returns -1 or a pid no other child has; a worker that runs may exit. -/
def Master.Allows (s : Master) : MasterInput → Prop
  | .step fork _ => fork = -1 ∨ 0 < fork ∧ fork ∉ s.children ∧ ∀ z ∈ s.zombies, z.1 ≠ fork
  | .exited pid _ => pid ∈ s.children
  | _ => s.pc ≠ .exit

/-- What one input does; `singal_handler` is the handler of every signal. -/
def Master.next (s : Master) : MasterInput → Option Master
  | .step fork kill => s.step fork kill
  | .exited pid status =>
      some { s with children := s.children.erase pid, zombies := s.zombies ++ [(pid, status)] }
  | .sigchld => some { s with pReap := true }.processGetStatus.woken
  | .sigalrm => some { s with pSigalarm := true }.woken
  | .sigint => some { s with pTerminate := true }.woken
  | .sigquit => some { s with pQuit := true }.woken

/-- The master with any number of workers. -/
def master : Machine Master MasterInput where
  init s := ∃ n, s = { workerNum := n }
  allows := Master.Allows
  step := Master.next

instance masterAllowsDecidable (s : Master) (i : MasterInput) : Decidable (master.allows s i) :=
  match i with
  | .step _ _ => inferInstanceAs (Decidable (_ ∨ _))
  | .exited pid _ => inferInstanceAs (Decidable (pid ∈ s.children))
  | .sigchld | .sigalrm | .sigint | .sigquit => inferInstanceAs (Decidable (s.pc ≠ .exit))

/-! ## the entries that are not marked -/

/-- The pid of a worker that has been forked and whose entry is not complete. -/
def MasterPc.pending : MasterPc → Option Int
  | .createPush pid | .createPid _ pid | .createExited _ pid | .reapPid _ pid | .reapExited _ pid => some pid
  | _ => none

/-- The entry that holds that pid already. -/
def MasterPc.stored : MasterPc → Option (Nat × Int)
  | .createExited i pid | .reapExited i pid => some (i, pid)
  | _ => none

/-- The entry the master is at. -/
def MasterPc.entry : MasterPc → Option Nat
  | .createPid i _ | .createExited i _ | .createExiting i | .createRespawn i | .reapExitedTest i _
  | .reapRespawnTest i _ | .reapFork i | .reapPid i _ | .reapExited i _ | .reapExiting i => some i
  | _ => none

/-- No exit is lost: an entry that is not marked does not hold the pid of a
worker that was collected. -/
structure MasterInv (s : Master) : Prop where
  kept : ∀ i, (s.workers i).exited = false → (s.workers i).pid ∉ s.collected
  pending : ∀ pid ∈ s.pc.pending, pid ∉ s.collected
  stored : ∀ e ∈ s.pc.stored, (s.workers e.1).pid = e.2
  entry : ∀ i ∈ s.pc.entry, i < s.used
  unused : ∀ i, s.used ≤ i → (s.workers i).pid = 0
  positive : (∀ pid ∈ s.children, 0 < pid) ∧ (∀ z ∈ s.zombies, 0 < z.1) ∧ ∀ pid ∈ s.collected, 0 < pid

/-- What keeps the exits from getting lost: when the handler of `SIGCHLD`
collects, it does not find a worker whose entry is not complete, and no entry
that is not marked stands behind another one with the pid of a worker it finds. -/
def Sheltered (s : Master) : MasterInput → Prop
  | .sigchld => ∀ z ∈ s.zombies, z.1 ∉ s.pc.pending ∧ ∀ j < s.used, (s.workers j).pid = z.1 →
      (s.workers j).exited = false → ∀ i < j, (s.workers i).pid ≠ z.1
  | _ => True

section Invariant

variable {s s' : Master} {fork : Int} {kill : KillResult} {pc : MasterPc} {i : Nat} {f : WorkerT → WorkerT}

theorem MasterInv.goto (h : MasterInv s) (hpending : ∀ pid ∈ pc.pending, pid ∉ s.collected)
    (hstored : ∀ e ∈ pc.stored, (s.workers e.1).pid = e.2) (hentry : ∀ i ∈ pc.entry, i < s.used) :
    MasterInv (s.goto pc) :=
  ⟨h.kept, hpending, hstored, hentry, h.unused, h.positive⟩

/-- A statement that is about flags, or that marks an entry. -/
theorem MasterInv.setWorker (h : MasterInv s) (hpid : ∀ w, (f w).pid = w.pid)
    (hexited : ∀ w, (f w).exited = false → w.exited = false) : MasterInv (s.setWorker i f) := by
  have hp : ∀ j, ((s.setWorker i f).workers j).pid = (s.workers j).pid := fun j => by
    by_cases hj : j = i
    · simp [Master.setWorker, hj, hpid]
    · simp [Master.setWorker, hj]
  refine ⟨fun j hj => ?_, h.pending, fun e he => (hp e.1).trans (h.stored e he), h.entry,
    fun j hj => (hp j).trans (h.unused j hj), h.positive⟩
  rw [hp]
  refine h.kept j ?_
  by_cases hji : j = i
  · subst hji
    exact hexited _ (by simpa [Master.setWorker] using hj)
  · simpa [Master.setWorker, hji] using hj

/-- A statement that is about neither the table nor the children. -/
theorem MasterInv.plain (h : MasterInv s) (hworkers : s'.workers = s.workers) (hused : s'.used = s.used)
    (hkernel : s'.children = s.children ∧ s'.zombies = s.zombies ∧ s'.collected = s.collected)
    (hp : s'.pc.pending = none) (hs : s'.pc.stored = none) (he : s'.pc.entry = none) : MasterInv s' := by
  obtain ⟨hchildren, hzombies, hcollected⟩ := hkernel
  refine ⟨?_, by simp [hp], by simp [hs], by simp [he], ?_, ?_⟩
  · rw [hworkers, hcollected]
    exact h.kept
  · rw [hworkers, hused]
    exact h.unused
  · rw [hchildren, hzombies, hcollected]
    exact h.positive

/-- On to the flags of an entry. -/
theorem MasterInv.at (h : MasterInv s) (hp : pc.pending = none) (hs : pc.stored = none)
    (he : pc.entry = some i) (hi : i < s.used) : MasterInv (s.goto pc) :=
  h.goto (by simp [hp]) (by simp [hs]) (by simpa [he] using hi)

/-- A flag of an entry, and on to another one. -/
theorem MasterInv.flagAt (h : MasterInv s) (hpid : ∀ w, (f w).pid = w.pid)
    (hexited : ∀ w, (f w).exited = false → w.exited = false) (hp : pc.pending = none)
    (hs : pc.stored = none) (he : pc.entry = some i) (hi : i < s.used) :
    MasterInv ((s.setWorker i f).goto pc) :=
  (h.setWorker hpid hexited).at hp hs he hi

/-- A flag of an entry, and on to a statement that is not about an entry. -/
theorem MasterInv.flagPlain (h : MasterInv s) (hpid : ∀ w, (f w).pid = w.pid)
    (hexited : ∀ w, (f w).exited = false → w.exited = false) (hp : pc.pending = none)
    (hs : pc.stored = none) (he : pc.entry = none) : MasterInv ((s.setWorker i f).goto pc) :=
  (h.setWorker hpid hexited).plain rfl rfl ⟨rfl, rfl, rfl⟩ hp hs he

/-- `pid` is a worker of its own from now on. -/
theorem MasterInv.forked (h : MasterInv s) (hfork : fork = -1 ∨ 0 < fork) :
    MasterInv (s.forked fork) ∧ fork ∉ (s.forked fork).collected ∧ (s.forked fork).used = s.used := by
  unfold Master.forked
  split
  next hpos =>
    have hsub : ∀ pid, pid ∈ s.collected.filter (· ≠ fork) → pid ∈ s.collected := fun pid hp =>
      (List.mem_filter.mp hp).1
    refine ⟨⟨fun i hi hmem => h.kept i hi (hsub _ hmem), fun pid hp hmem => h.pending pid hp (hsub _ hmem),
      h.stored, h.entry, h.unused, ?_, h.positive.2.1, fun pid hp => h.positive.2.2 pid (hsub pid hp)⟩,
      by simp, rfl⟩
    intro pid hp
    rcases List.mem_cons.mp hp with rfl | hp
    · exact hpos
    · exact h.positive.1 pid hp
  next hneg => exact ⟨h, fun hmem => hneg (h.positive.2.2 _ hmem), rfl⟩

/-- The pid of a new worker is stored. -/
theorem MasterInv.storePid {pid : Int} (h : MasterInv s) (hi : i < s.used) (hpid : pid ∉ s.collected)
    (hp : pc.pending = some pid) (hs : pc.stored = some (i, pid)) (he : pc.entry = some i) :
    MasterInv ((s.setWorker i ({ · with pid := pid })).goto pc) := by
  refine ⟨fun j hj => ?_, ?_, ?_, ?_, fun j hj => ?_, h.positive⟩
  · by_cases hji : j = i
    · simpa [Master.goto, Master.setWorker, hji] using hpid
    · have hkept := h.kept j
      simp only [Master.goto, Master.setWorker, Function.update_of_ne hji] at hj ⊢
      exact hkept hj
  · simpa [Master.goto, Master.setWorker, hp] using hpid
  · simp [Master.goto, Master.setWorker, hs]
  · simpa [Master.goto, Master.setWorker, he] using hi
  · have hused : s.used ≤ j := hj
    have hji : j ≠ i := by omega
    simpa [Master.goto, Master.setWorker, hji] using h.unused j hused

/-- The entry of a new worker is not marked any more. -/
theorem MasterInv.clearExited {pid : Int} (h : MasterInv s) (hi : i < s.used) (hpid : pid ∉ s.collected)
    (hstored : (s.workers i).pid = pid) (hp : pc.pending = none) (hs : pc.stored = none)
    (he : pc.entry = some i) : MasterInv ((s.setWorker i ({ · with exited := false })).goto pc) := by
  refine ⟨fun j hj => ?_, ?_, ?_, ?_, fun j hj => ?_, h.positive⟩
  · by_cases hji : j = i
    · simpa [Master.goto, Master.setWorker, hji, hstored] using hpid
    · have hkept := h.kept j
      simp only [Master.goto, Master.setWorker, Function.update_of_ne hji] at hj ⊢
      exact hkept hj
  · simp [Master.goto, hp]
  · simp [Master.goto, hs]
  · simpa [Master.goto, Master.setWorker, he] using hi
  · have hused : s.used ≤ j := hj
    have hji : j ≠ i := by omega
    simpa [Master.goto, Master.setWorker, hji] using h.unused j hused

theorem MasterInv.step (h : MasterInv s) (hfork : fork = -1 ∨ 0 < fork)
    (hstep : s.step fork kill = some s') : MasterInv s' := by
  have hpending := h.pending
  have hstored := h.stored
  have hentry := h.entry
  cases hpc : s.pc <;> simp only [Master.step, hpc, reduceCtorEq, Option.some.injEq] at hstep <;>
    simp only [hpc, MasterPc.pending, MasterPc.stored, MasterPc.entry, Option.mem_def, Option.some.injEq,
      forall_eq', reduceCtorEq, false_imp_iff, implies_true] at hpending hstored hentry
  case createTest =>
    subst hstep
    split <;> exact h.plain rfl rfl ⟨rfl, rfl, rfl⟩ rfl rfl rfl
  case createFork =>
    subst hstep
    obtain ⟨hforked, hnew, -⟩ := h.forked hfork
    exact hforked.goto (by simpa [MasterPc.pending] using hnew) (by simp [MasterPc.stored])
      (by simp [MasterPc.entry])
  case createPush pid =>
    subst hstep
    refine ⟨h.kept, by simpa [Master.goto, MasterPc.pending] using hpending,
      by simp [Master.goto, MasterPc.stored], by simp [Master.goto, MasterPc.entry], fun i hi => ?_, h.positive⟩
    exact h.unused i (Nat.le_of_succ_le hi)
  case createPid i pid =>
    subst hstep
    exact h.storePid hentry hpending rfl rfl rfl
  case createExited i pid =>
    subst hstep
    exact h.clearExited hentry hpending hstored rfl rfl rfl
  case createExiting i =>
    subst hstep
    exact h.flagAt (fun _ => rfl) (fun _ h => h) rfl rfl rfl hentry
  case createRespawn i =>
    subst hstep
    exact h.flagPlain (fun _ => rfl) (fun _ h => h) rfl rfl rfl
  case cycle => split at hstep <;> cases hstep <;> exact h.plain rfl rfl ⟨rfl, rfl, rfl⟩ rfl rfl rfl
  case cycleAlarm =>
    subst hstep
    exact h.plain rfl rfl ⟨rfl, rfl, rfl⟩ rfl rfl rfl
  case reapTest =>
    subst hstep
    split <;> exact h.plain rfl rfl ⟨rfl, rfl, rfl⟩ rfl rfl rfl
  case reapClear =>
    subst hstep
    exact h.plain rfl rfl ⟨rfl, rfl, rfl⟩ rfl rfl rfl
  case reapEntry i live =>
    split at hstep
    · cases hstep
      split
      · exact h.plain rfl rfl ⟨rfl, rfl, rfl⟩ rfl rfl rfl
      next hpid =>
        refine h.at rfl rfl rfl ?_
        by_contra hused
        exact hpid (Int.le_of_eq (h.unused i (Nat.le_of_not_lt hused)))
    · cases hstep
      exact h.plain rfl rfl ⟨rfl, rfl, rfl⟩ rfl rfl rfl
  case reapExitedTest i live =>
    subst hstep
    split
    · exact h.at rfl rfl rfl hentry
    · exact h.plain rfl rfl ⟨rfl, rfl, rfl⟩ rfl rfl rfl
  case reapRespawnTest i live =>
    subst hstep
    split
    · exact h.at rfl rfl rfl hentry
    · exact h.plain rfl rfl ⟨rfl, rfl, rfl⟩ rfl rfl rfl
  case reapFork i =>
    subst hstep
    obtain ⟨hforked, hnew, hused⟩ := h.forked hfork
    split
    · exact hforked.goto (by simpa [MasterPc.pending] using hnew) (by simp [MasterPc.stored])
        (by simpa [MasterPc.entry, hused] using hentry)
    · exact hforked.plain rfl rfl ⟨rfl, rfl, rfl⟩ rfl rfl rfl
  case reapPid i pid =>
    subst hstep
    exact h.storePid hentry hpending rfl rfl rfl
  case reapExited i pid =>
    subst hstep
    exact h.clearExited hentry hpending hstored rfl rfl rfl
  case reapExiting i =>
    subst hstep
    exact h.flagPlain (fun _ => rfl) (fun _ h => h) rfl rfl rfl
  case exitTest =>
    subst hstep
    split <;> exact h.plain rfl rfl ⟨rfl, rfl, rfl⟩ rfl rfl rfl
  case termTest =>
    split at hstep <;> cases hstep <;> exact h.plain rfl rfl ⟨rfl, rfl, rfl⟩ rfl rfl rfl
  case quitTest =>
    subst hstep
    split <;> exact h.plain rfl rfl ⟨rfl, rfl, rfl⟩ rfl rfl rfl
  case killEntry i signo =>
    split at hstep <;> cases hstep <;> split <;> exact h.plain rfl rfl ⟨rfl, rfl, rfl⟩ rfl rfl rfl
  case killCall i signo =>
    subst hstep
    cases kill <;> exact h.plain rfl rfl ⟨rfl, rfl, rfl⟩ rfl rfl rfl
  case killExiting i signo =>
    subst hstep
    exact h.flagPlain (fun _ => rfl) (fun _ h => h) rfl rfl rfl
  case goneExited i signo =>
    subst hstep
    exact h.flagPlain (fun _ => rfl) (fun _ h => nomatch h) rfl rfl rfl
  case goneExiting i signo =>
    subst hstep
    exact h.flagPlain (fun _ => rfl) (fun _ h => h) rfl rfl rfl
  case goneReap i signo =>
    subst hstep
    exact h.plain rfl rfl ⟨rfl, rfl, rfl⟩ rfl rfl rfl

/-- What the handler does for one worker. -/
structure Collected (s : Master) (z : Int × Nat) (s' : Master) : Prop where
  pc : s'.pc = s.pc
  used : s'.used = s.used
  children : s'.children = s.children
  zombies : s'.zombies = s.zombies
  collected : s'.collected = z.1 :: s.collected
  kills : s'.kills = s.kills
  pid : ∀ i, (s'.workers i).pid = (s.workers i).pid
  exited : ∀ i, (s'.workers i).exited = false → (s.workers i).exited = false
  marked : ∀ j < s.used, (s.workers j).pid = z.1 → (∀ i < j, (s.workers i).pid ≠ z.1) →
    (s'.workers j).exited = true

theorem collect_collected (s : Master) (z : Int × Nat) : Collected s z (s.collect z) := by
  simp only [Master.collect]
  split
  next i hfind =>
    obtain ⟨hpid, -, hfirst⟩ := List.find?_range_eq_some.mp hfind
    simp only [decide_eq_true_eq] at hpid
    refine ⟨rfl, rfl, rfl, rfl, rfl, rfl, fun j => ?_, fun j hj => ?_, fun j hj hjpid hjfirst => ?_⟩
    · by_cases hji : j = i <;> simp [Master.setWorker, hji]
    · by_cases hji : j = i
      · simp [Master.setWorker, hji] at hj
      · simpa [Master.setWorker, hji] using hj
    · -- the entry that was found is the first one
      obtain rfl : j = i := by
        rcases Nat.lt_trichotomy i j with hlt | heq | hlt
        · exact absurd hpid (hjfirst i hlt)
        · exact heq.symm
        · simpa [hjpid] using hfirst j hlt
      simp [Master.setWorker]
  next hfind =>
    refine ⟨rfl, rfl, rfl, rfl, rfl, rfl, fun _ => rfl, fun _ h => h, fun j hj hjpid _ => ?_⟩
    have hnone := List.find?_range_eq_none.mp hfind j hj
    simp [hjpid] at hnone

theorem MasterInv.collect {z : Int × Nat} (h : MasterInv s) (hz : 0 < z.1) (hpending : z.1 ∉ s.pc.pending)
    (hfirst : ∀ j < s.used, (s.workers j).pid = z.1 → (s.workers j).exited = false →
      ∀ i < j, (s.workers i).pid ≠ z.1) (hcol : Collected s z s') : MasterInv s' := by
  refine ⟨fun j hj => ?_, fun pid hp => ?_, ?_, ?_, fun j hj => ?_, ?_⟩
  · have hold := hcol.exited j hj
    rw [hcol.pid, hcol.collected, List.mem_cons, not_or]
    refine ⟨fun hpid => ?_, h.kept j hold⟩
    by_cases hused : j < s.used
    · have hmarked := hcol.marked j hused hpid (hfirst j hused hpid hold)
      rw [hj] at hmarked
      cases hmarked
    · have hunused := h.unused j (Nat.le_of_not_lt hused)
      omega
  · rw [hcol.pc] at hp
    rw [hcol.collected, List.mem_cons, not_or]
    exact ⟨fun heq => hpending (heq ▸ hp), h.pending pid hp⟩
  · rw [hcol.pc]
    exact fun e he => (hcol.pid e.1).trans (h.stored e he)
  · rw [hcol.pc, hcol.used]
    exact h.entry
  · rw [hcol.used] at hj
    rw [hcol.pid, h.unused j hj]
  · rw [hcol.children, hcol.zombies, hcol.collected]
    refine ⟨h.positive.1, h.positive.2.1, fun pid hp => ?_⟩
    rcases List.mem_cons.mp hp with rfl | hp
    · exact hz
    · exact h.positive.2.2 pid hp

/-- The loop of `process_get_status`. -/
theorem MasterInv.collectAll (zs : List (Int × Nat)) (h : MasterInv s) (hzs : ∀ z ∈ zs, 0 < z.1 ∧
    z.1 ∉ s.pc.pending ∧ ∀ j < s.used, (s.workers j).pid = z.1 → (s.workers j).exited = false →
      ∀ i < j, (s.workers i).pid ≠ z.1) : MasterInv (zs.foldl Master.collect s) := by
  induction zs generalizing s with
  | nil => exact h
  | cons z zs ih =>
      obtain ⟨hz, hpending, hfirst⟩ := hzs z (List.mem_cons_self ..)
      have hcol := collect_collected s z
      refine ih (h.collect hz hpending hfirst hcol) fun z' hz' => ?_
      obtain ⟨hpos, hpending', hfirst'⟩ := hzs z' (List.mem_cons_of_mem _ hz')
      rw [hcol.pc, hcol.used]
      refine ⟨hpos, hpending', fun j hj hpid hexited i hi => ?_⟩
      rw [hcol.pid] at hpid ⊢
      exact hfirst' j hj hpid (hcol.exited j hexited) i hi

theorem MasterInv.woken (h : MasterInv s) : MasterInv s.woken := by
  unfold Master.woken
  split
  · exact h.plain rfl rfl ⟨rfl, rfl, rfl⟩ rfl rfl rfl
  · exact h

/-- A flag of the master. -/
theorem MasterInv.flag (h : MasterInv s) (hpc : s'.pc = s.pc) (hworkers : s'.workers = s.workers)
    (hused : s'.used = s.used) (hchildren : s'.children = s.children)
    (hzombies : s'.zombies = s.zombies ∨ s'.zombies = []) (hcollected : s'.collected = s.collected) :
    MasterInv s' := by
  refine ⟨?_, ?_, ?_, ?_, ?_, hchildren ▸ h.positive.1, ?_, hcollected ▸ h.positive.2.2⟩
  · rw [hworkers, hcollected]
    exact h.kept
  · rw [hpc, hcollected]
    exact h.pending
  · rw [hpc, hworkers]
    exact h.stored
  · rw [hpc, hused]
    exact h.entry
  · rw [hworkers, hused]
    exact h.unused
  · rcases hzombies with heq | heq
    · rw [heq]
      exact h.positive.2.1
    · simp [heq]

theorem MasterInv.next {i : MasterInput} (h : MasterInv s) (hallows : s.Allows i) (hsheltered : Sheltered s i)
    (hnext : s.next i = some s') : MasterInv s' := by
  cases i with
  | step fork kill => exact h.step (hallows.imp_right (·.1)) hnext
  | exited pid status =>
      cases hnext
      have hpos := h.positive
      refine ⟨h.kept, h.pending, h.stored, h.entry, h.unused, fun p hp => ?_, fun z hz => ?_, hpos.2.2⟩
      · exact hpos.1 p (List.mem_of_mem_erase hp)
      · rcases List.mem_append.mp hz with hz | hz
        · exact hpos.2.1 z hz
        · rw [List.mem_singleton.mp hz]
          exact hpos.1 pid hallows
  | sigchld =>
      cases hnext
      have hreap : MasterInv { s with pReap := true } := h.flag rfl rfl rfl rfl (.inl rfl) rfl
      have hall := hreap.collectAll s.zombies fun z hz => ⟨h.positive.2.1 z hz, hsheltered z hz⟩
      exact MasterInv.woken (hall.flag rfl rfl rfl rfl (.inr rfl) rfl)
  | sigalrm =>
      cases hnext
      exact MasterInv.woken (h.flag rfl rfl rfl rfl (.inl rfl) rfl)
  | sigint =>
      cases hnext
      exact MasterInv.woken (h.flag rfl rfl rfl rfl (.inl rfl) rfl)
  | sigquit =>
      cases hnext
      exact MasterInv.woken (h.flag rfl rfl rfl rfl (.inl rfl) rfl)

theorem MasterInv.init (n : Nat) : MasterInv { workerNum := n } :=
  ⟨by simp, by simp [MasterPc.pending], by simp [MasterPc.stored], by simp [MasterPc.entry], by simp, by simp⟩

end Invariant

theorem master_inv {s : Master} (h : (master.restrict Sheltered).Reaches s) : MasterInv s := by
  refine h.invariant ?_ fun s i s' hinv hallows hstep => hinv.next hallows.1 hallows.2 hstep
  rintro s ⟨n, rfl⟩
  exact MasterInv.init n

/-- No exit is lost where the handler never collects a worker too early. -/
theorem master_marks_exits {s : Master} (h : (master.restrict Sheltered).Reaches s) :
    ∀ i, (s.workers i).exited = false → (s.workers i).pid ∉ s.collected :=
  (master_inv h).kept

instance shelteredDecidable (s : Master) (i : MasterInput) : Decidable (Sheltered s i) :=
  match i with
  | .sigchld => inferInstanceAs (Decidable (∀ z ∈ s.zombies, _ ∧ ∀ j < s.used, _ → _ → ∀ i < j, _))
  | .step _ _ | .exited _ _ | .sigalrm | .sigint | .sigquit => .isTrue trivial

instance shelteredAllowsDecidable (s : Master) (i : MasterInput) :
    Decidable ((master.restrict Sheltered).allows s i) :=
  inferInstanceAs (Decidable (master.allows s i ∧ Sheltered s i))

/-- The master takes `n` steps; `fork` returns `fork` and `kill` succeeds. -/
def stepsOf (n : Nat) (fork : Int) : List MasterInput := List.replicate n (.step fork .ok)

/-- A worker exits while the master waits, and is forked anew. -/
theorem master_marks_exits_respawned : ∃ s, (master.restrict Sheltered).Reaches s ∧
    (s.pc = .suspend ∧ s.collected = [100] ∧ (s.workers 0).pid = 102) ∧
    ∀ i, (s.workers i).exited = false → (s.workers i).pid ∉ s.collected := by
  have hinit : (master.restrict Sheltered).Reaches { workerNum := 1 } := .init ⟨1, rfl⟩
  obtain ⟨s, hs, htest⟩ := hinit.exists_of_runTest
    (fun s : Master => decide (s.pc = .suspend ∧ s.collected = [100] ∧ (s.workers 0).pid = 102))
    (stepsOf 2 100 ++ stepsOf 7 (-1) ++ [.exited 100 0, .sigchld] ++ stepsOf 6 102 ++ stepsOf 9 (-1)) (by decide +kernel)
  exact ⟨s, hs, of_decide_eq_true htest, master_marks_exits hs⟩

/-- The worker exits and is collected before its pid is in the table. -/
theorem master_loses_exit : ¬∀ s, master.Reaches s → s.pc = .suspend →
    ∀ i, (s.workers i).exited = false → (s.workers i).pid ∉ s.collected := by
  intro hall
  have hinit : master.Reaches { workerNum := 1 } := .init ⟨1, rfl⟩
  obtain ⟨s, hs, htest⟩ := hinit.exists_of_runTest
    (fun s : Master => decide (s.pc = .suspend ∧ (s.workers 0).exited = false ∧ (s.workers 0).pid ∈ s.collected))
    (stepsOf 2 100 ++ [.exited 100 0, .sigchld] ++ stepsOf 7 (-1)) (by decide +kernel)
  obtain ⟨hpc, hexited, hmem⟩ := of_decide_eq_true htest
  exact hall s hs hpc 0 hexited hmem

/-! ## the pids that are signalled -/

/-- The entry `kill` is about to be called for. -/
def MasterPc.signalled : MasterPc → Option Nat
  | .killCall i _ => some i
  | _ => none

/-- The entry that `signal_worker_processes` is about to signal is not marked. -/
def SignalsUnmarked (s : Master) : MasterInput → Prop
  | .step _ _ => ∀ i ∈ s.pc.signalled, (s.workers i).exited = false
  | _ => True

/-- No exit is lost, and no marked entry is signalled. -/
def Careful (s : Master) (i : MasterInput) : Prop := Sheltered s i ∧ SignalsUnmarked s i

/-- `kill` is called from one statement only. -/
theorem step_kills {s s' : Master} {fork : Int} {kill : KillResult} (h : s.step fork kill = some s') :
    s'.kills = s.kills ∨ ∃ i signo, s.pc = .killCall i signo ∧
      s'.kills = s.kills ++ [((s.workers i).pid, decide ((s.workers i).pid ∈ s.collected))] := by
  cases hpc : s.pc <;> simp only [Master.step, hpc, reduceCtorEq, Option.some.injEq] at h
  case killCall i signo =>
    subst h
    exact .inr ⟨i, signo, rfl, rfl⟩
  case createFork | reapFork =>
    subst h
    left
    unfold Master.forked
    split <;> rfl
  case cycle | reapEntry | termTest | killEntry => split at h <;> cases h <;> exact .inl rfl
  all_goals
    subst h
    exact .inl rfl

theorem next_kills {s s' : Master} {i : MasterInput} (hinv : MasterInv s) (hi : SignalsUnmarked s i)
    (h : s.next i = some s') (hkills : ∀ k ∈ s.kills, k.2 = false) : ∀ k ∈ s'.kills, k.2 = false := by
  have hwoken : ∀ s : Master, s.woken.kills = s.kills := fun s => by
    unfold Master.woken
    split <;> rfl
  have hcollect : ∀ (zs : List (Int × Nat)) (s : Master), (zs.foldl Master.collect s).kills = s.kills := by
    intro zs
    induction zs with
    | nil => exact fun _ => rfl
    | cons z zs ih => exact fun s => (ih _).trans (collect_collected s z).kills
  cases i with
  | step fork kill =>
      rcases step_kills h with heq | ⟨i, signo, hpc, heq⟩
      · rwa [heq]
      · rw [heq]
        intro k hk
        rcases List.mem_append.mp hk with hk | hk
        · exact hkills k hk
        · have hexited : (s.workers i).exited = false := hi i (by rw [hpc]; rfl)
          rw [List.mem_singleton.mp hk]
          exact decide_eq_false (hinv.kept i hexited)
  | exited pid status =>
      cases h
      exact hkills
  | sigchld =>
      cases h
      rw [hwoken, Master.processGetStatus, hcollect]
      exact hkills
  | sigalrm | sigint | sigquit =>
      cases h
      rw [hwoken]
      exact hkills

/-- No pid is signalled that was collected. -/
theorem master_signals {s : Master} (h : (master.restrict Careful).Reaches s) :
    ∀ k ∈ s.kills, k.2 = false := by
  have hboth : MasterInv s ∧ ∀ k ∈ s.kills, k.2 = false := by
    refine h.invariant (I := fun s => MasterInv s ∧ ∀ k ∈ s.kills, k.2 = false) ?_ ?_
    · rintro s ⟨n, rfl⟩
      exact ⟨MasterInv.init n, nofun⟩
    · rintro s i s' ⟨hinv, hkills⟩ ⟨hallows, hsheltered, hsignals⟩ hstep
      exact ⟨hinv.next hallows hsheltered hstep, next_kills hinv hsignals hstep hkills⟩
  exact hboth.2

instance signalsUnmarkedDecidable (s : Master) (i : MasterInput) : Decidable (SignalsUnmarked s i) :=
  match i with
  | .step _ _ => inferInstanceAs (Decidable (∀ i ∈ s.pc.signalled, (s.workers i).exited = false))
  | .exited _ _ | .sigchld | .sigalrm | .sigint | .sigquit => .isTrue trivial

instance carefulAllowsDecidable (s : Master) (i : MasterInput) :
    Decidable ((master.restrict Careful).allows s i) :=
  inferInstanceAs (Decidable (master.allows s i ∧ Sheltered s i ∧ SignalsUnmarked s i))

/-- Two workers are told to quit. -/
theorem master_signals_two : ∃ s, (master.restrict Careful).Reaches s ∧
    s.kills = [(100, false), (101, false)] ∧ ∀ k ∈ s.kills, k.2 = false := by
  have hinit : (master.restrict Careful).Reaches { workerNum := 2 } := .init ⟨2, rfl⟩
  obtain ⟨s, hs, htest⟩ := hinit.exists_of_runTest
    (fun s : Master => decide (s.kills = [(100, false), (101, false)]))
    (stepsOf 2 100 ++ stepsOf 5 (-1) ++ stepsOf 2 101 ++ stepsOf 7 (-1) ++ [.sigquit] ++ stepsOf 9 (-1))
    (by decide +kernel)
  exact ⟨s, hs, of_decide_eq_true htest, master_signals hs⟩

/-- A worker exits while the master is told to quit: it is not forked anew, and
its entry keeps the pid. -/
theorem master_signals_collected : ¬∀ s, master.Reaches s → ∀ k ∈ s.kills, k.2 = false := by
  intro hall
  have hinit : master.Reaches { workerNum := 2 } := .init ⟨2, rfl⟩
  obtain ⟨s, hs, htest⟩ := hinit.exists_of_runTest (fun s : Master => decide ((100, true) ∈ s.kills))
    (stepsOf 2 100 ++ stepsOf 5 (-1) ++ stepsOf 2 101 ++ stepsOf 7 (-1) ++
      [.exited 100 0, .sigquit, .sigchld] ++ stepsOf 15 (-1)) (by decide +kernel)
  exact absurd (hall s hs _ (of_decide_eq_true htest)) (by decide)

end PWebServer
