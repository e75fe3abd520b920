import Mathlib.Data.Finset.Card
import Mathlib.Data.Finset.Range
import Mathlib.Data.List.Nodup
import PWebServer.Worker.Master

/-!
# Worker.Ledger

The table of workers against the processes the kernel has.  A worker that runs,
or has exited and was not collected yet, has an entry that is not marked, or is
about to get one (`master_knows`); so there are never more workers than
`worker_num`, and the master exits only when none is left
(`master_exits_last`).

None of this depends on when the signals come: an exit that the handler of
`SIGCHLD` loses leaves an entry behind that is never marked, but no worker
without an entry.
-/

namespace PWebServer

namespace Master

variable (s : Master)

/-- The process runs, or has exited and waits to be collected. -/
def Alive (pid : Int) : Prop := pid ∈ s.children ∨ ∃ z ∈ s.zombies, z.1 = pid

/-- The pids the kernel has. -/
def pids : List Int := s.children ++ s.zombies.map Prod.fst

theorem mem_pids {pid : Int} : pid ∈ s.pids ↔ s.Alive pid := by
  simp only [pids, Alive, List.mem_append, List.mem_map]

end Master

/-- The entry that is being made for a new worker. -/
def MasterPc.fills : MasterPc → Option Nat
  | .createPid i _ | .createExited i _ | .reapPid i _ | .reapExited i _ => some i
  | _ => none

/-- The entry of a worker that has exited, which another one may get. -/
def MasterPc.reuses : MasterPc → Option Nat
  | .reapRespawnTest i _ | .reapFork i => some i
  | _ => none

/-- The table is about to get another entry. -/
def MasterPc.pushes : MasterPc → Bool
  | .createFork | .createPush _ => true
  | _ => false

/-- The entry of a worker that `kill` has not found. -/
def MasterPc.goes : MasterPc → Option Nat
  | .goneExited i _ => some i
  | _ => none

/-- The statement is about no entry. -/
def MasterPc.settled (pc : MasterPc) : Bool :=
  pc.fills.isNone && pc.stored.isNone && pc.entry.isNone && pc.reuses.isNone && !pc.pushes && pc.goes.isNone

/-- `kill` says that there is no such process only if there is none. -/
def Honest (s : Master) : MasterInput → Prop
  | .step _ kill => kill = .esrch → ∀ i ∈ s.pc.signalled, ¬ s.Alive (s.workers i).pid
  | _ => True

/-- Every worker is in the table, or about to be. -/
structure Tracked (s : Master) : Prop where
  tracked : ∀ pid, s.Alive pid → pid ∈ s.pc.pending ∨
    ∃ i < s.used, i ∉ s.pc.fills ∧ (s.workers i).pid = pid ∧ (s.workers i).exited = false
  nodup : s.pids.Nodup
  positive : ∀ pid, s.Alive pid → 0 < pid
  stored : ∀ e ∈ s.pc.stored, (s.workers e.1).pid = e.2
  entry : ∀ i ∈ s.pc.entry, i < s.used
  unused : ∀ i, s.used ≤ i → (s.workers i).pid = 0
  vacated : ∀ i ∈ s.pc.reuses, (s.workers i).exited = true
  room : s.used ≤ s.workerNum ∧ (s.pc.pushes = true → s.used < s.workerNum)
  gone : ∀ i ∈ s.pc.goes, ¬ s.Alive (s.workers i).pid

section Tracking

theorem forall_of_none {α : Type*} {o : Option α} {P : α → Prop} (h : o = none) : ∀ a ∈ o, P a := by
  rw [h]
  exact fun a ha => absurd ha (Option.not_mem_none a)

theorem of_not_pushes {pc : MasterPc} {p : Prop} (h : pc.pushes = false) (hpushes : pc.pushes = true) : p :=
  absurd (h.symm.trans hpushes) Bool.false_ne_true

variable {s s' : Master} {fork : Int} {kill : KillResult} {pc : MasterPc} {i : Nat} {f : WorkerT → WorkerT}

/-- On to a statement that is not about a new worker. -/
theorem Tracked.goto (h : Tracked s) (hp : s.pc.pending = none) (hf : pc.fills = none)
    (hs : pc.stored = none) (he : ∀ i ∈ pc.entry, i < s.used) (hr : ∀ i ∈ pc.reuses, (s.workers i).exited = true)
    (hroom : pc.pushes = true → s.used < s.workerNum) (hg : ∀ i ∈ pc.goes, ¬ s.Alive (s.workers i).pid) :
    Tracked (s.goto pc) := by
  refine ⟨fun pid halive => .inr ?_, h.nodup, h.positive, ?_, he, h.unused, hr, ⟨h.room.1, hroom⟩, hg⟩
  · have htracked := h.tracked pid halive
    rw [hp] at htracked
    obtain ⟨i, hi, -, hentry⟩ := htracked.resolve_left (Option.not_mem_none pid)
    refine ⟨i, hi, ?_, hentry⟩
    change i ∉ pc.fills
    rw [hf]
    exact Option.not_mem_none i
  · exact forall_of_none hs

/-- On to a statement that is about no entry. -/
theorem Tracked.settle (h : Tracked s) (hp : s.pc.pending = none) (hpc : pc.settled = true) :
    Tracked (s.goto pc) := by
  simp only [MasterPc.settled, Bool.and_eq_true, Option.isNone_iff_eq_none, Bool.not_eq_true'] at hpc
  obtain ⟨⟨⟨⟨⟨hfills, hstored⟩, hentry⟩, hreuses⟩, hpushes⟩, hgoes⟩ := hpc
  exact h.goto hp hfills hstored (forall_of_none hentry) (forall_of_none hreuses)
    (of_not_pushes hpushes) (forall_of_none hgoes)

/-- Something that is about neither the table nor which processes there are. -/
theorem Tracked.plain (h : Tracked s) (hworkers : s'.workers = s.workers) (hused : s'.used = s.used)
    (hnum : s'.workerNum = s.workerNum) (hpids : s'.pids.Perm s.pids) (hpc : s'.pc = s.pc) : Tracked s' := by
  have halive : ∀ pid, s'.Alive pid ↔ s.Alive pid := fun pid => by
    rw [← Master.mem_pids, ← Master.mem_pids, hpids.mem_iff]
  refine ⟨fun pid hp => ?_, hpids.nodup_iff.mpr h.nodup, fun pid hp => h.positive pid ((halive pid).mp hp), ?_, ?_, ?_,
    ?_, ?_, fun i hi hp => ?_⟩
  · rw [hpc, hworkers, hused]
    exact h.tracked pid ((halive pid).mp hp)
  · rw [hpc, hworkers]
    exact h.stored
  · rw [hpc, hused]
    exact h.entry
  · rw [hworkers, hused]
    exact h.unused
  · rw [hpc, hworkers]
    exact h.vacated
  · rw [hpc, hused, hnum]
    exact h.room
  · rw [hpc] at hi
    rw [hworkers] at hp
    exact h.gone i hi ((halive _).mp hp)

/-- Such a statement, and on to one that is about no entry. -/
theorem Tracked.other (h : Tracked s) (hp : s.pc.pending = none) (hworkers : s'.workers = s.workers)
    (hused : s'.used = s.used) (hnum : s'.workerNum = s.workerNum)
    (hpids : s'.pids.Perm s.pids) (hpc : s'.pc.settled = true) : Tracked s' := by
  have hplain : Tracked (s'.goto s.pc) := h.plain hworkers hused hnum hpids rfl
  exact hplain.settle hp hpc

/-- A flag of an entry that is not about its exit. -/
theorem Tracked.setFlag (h : Tracked s) (hpid : ∀ w, (f w).pid = w.pid) (hexited : ∀ w, (f w).exited = w.exited) :
    Tracked (s.setWorker i f) := by
  have hp : ∀ j, ((s.setWorker i f).workers j).pid = (s.workers j).pid := fun j => by
    by_cases hj : j = i <;> simp [Master.setWorker, hj, hpid]
  have he : ∀ j, ((s.setWorker i f).workers j).exited = (s.workers j).exited := fun j => by
    by_cases hj : j = i <;> simp [Master.setWorker, hj, hexited]
  refine ⟨fun pid halive => ?_, h.nodup, h.positive, fun e hmem => (hp e.1).trans (h.stored e hmem), h.entry,
    fun j hj => (hp j).trans (h.unused j hj), fun j hj => (he j).trans (h.vacated j hj), h.room, fun j hj => ?_⟩
  · refine (h.tracked pid halive).imp_right ?_
    rintro ⟨j, hj, hfills, hjpid, hjexited⟩
    exact ⟨j, hj, hfills, (hp j).trans hjpid, (he j).trans hjexited⟩
  · rw [hp]
    exact h.gone j hj

/-- The entry of a process that is gone is marked. -/
theorem Tracked.markGone {signo : Signo} (h : Tracked s) (hpc : s.pc = .goneExited i signo) :
    Tracked ((s.setWorker i ({ · with exited := true })).goto (.goneExiting i signo)) := by
  have hgone : ¬ s.Alive (s.workers i).pid := h.gone i (by rw [hpc]; rfl)
  refine ⟨fun pid halive => .inr ?_, h.nodup, h.positive, ?_, ?_, fun j hj => ?_, ?_, ⟨h.room.1, ?_⟩, ?_⟩
  · have htracked := h.tracked pid halive
    rw [hpc] at htracked
    obtain ⟨j, hj, -, hjpid, hjexited⟩ := htracked.resolve_left (Option.not_mem_none pid)
    have hji : j ≠ i := by
      rintro rfl
      rw [hjpid] at hgone
      exact hgone halive
    exact ⟨j, hj, Option.not_mem_none j, by simpa [Master.goto, Master.setWorker, hji] using ⟨hjpid, hjexited⟩⟩
  · exact forall_of_none rfl
  · exact forall_of_none rfl
  · have hunused := h.unused j hj
    by_cases hji : j = i
    · rw [hji] at hunused
      simpa [Master.goto, Master.setWorker, hji] using hunused
    · simpa [Master.goto, Master.setWorker, hji] using hunused
  · exact forall_of_none rfl
  · exact of_not_pushes rfl
  · exact forall_of_none rfl

/-- A worker is forked, and has the pid of no other process. -/
theorem Tracked.forked (h : Tracked s) (hp : s.pc.pending = none)
    (hfork : fork = -1 ∨ 0 < fork ∧ fork ∉ s.children ∧ ∀ z ∈ s.zombies, z.1 ≠ fork)
    (hpending : 0 < fork → pc.pending = some fork) (hstored : pc.stored = none)
    (hentry : ∀ i ∈ pc.entry, i < s.used)
    (hfills : ∀ i ∈ pc.fills, (s.workers i).exited = true) (hreuses : pc.reuses = none)
    (hroom : pc.pushes = true → s.used < s.workerNum) (hgoes : pc.goes = none) :
    Tracked ((s.forked fork).goto pc) := by
  have hold : ∀ pid, s.Alive pid →
      ∃ i < s.used, i ∉ pc.fills ∧ (s.workers i).pid = pid ∧ (s.workers i).exited = false := by
    intro pid halive
    have htracked := h.tracked pid halive
    rw [hp] at htracked
    obtain ⟨i, hi, -, hipid, hexited⟩ := htracked.resolve_left (Option.not_mem_none pid)
    refine ⟨i, hi, fun hmem => ?_, hipid, hexited⟩
    exact absurd (hexited.symm.trans (hfills i hmem)) (by simp)
  by_cases hpos : 0 < fork
  · obtain ⟨-, hchildren, hzombies⟩ := hfork.resolve_left (by omega)
    have hforked : s.forked fork =
        { s with children := fork :: s.children, collected := s.collected.filter (· ≠ fork) } := if_pos hpos
    have hnew : ∀ pid, (s.forked fork).Alive pid ↔ pid = fork ∨ s.Alive pid := fun pid => by
      rw [hforked]
      simp only [Master.Alive, List.mem_cons, or_assoc]
    have hworkers : (s.forked fork).workers = s.workers := by rw [hforked]
    have hused : (s.forked fork).used = s.used := by rw [hforked]
    have hnum : (s.forked fork).workerNum = s.workerNum := by rw [hforked]
    refine ⟨fun pid halive => ?_, ?_, fun pid halive => ?_, ?_, ?_, ?_, ?_, ⟨?_, ?_⟩, ?_⟩
    · rcases (hnew pid).mp halive with rfl | halive
      · exact .inl (hpending hpos)
      · refine .inr ?_
        change ∃ i < (s.forked fork).used, i ∉ pc.fills ∧ ((s.forked fork).workers i).pid = pid ∧
          ((s.forked fork).workers i).exited = false
        rw [hused, hworkers]
        exact hold pid halive
    · have hnot : fork ∉ s.pids := by
        rw [Master.mem_pids]
        rintro (hmem | ⟨z, hz, hzpid⟩)
        · exact hchildren hmem
        · exact hzombies z hz hzpid
      have hpids : ((s.forked fork).goto pc).pids = fork :: s.pids := by
        rw [hforked]
        rfl
      rw [hpids]
      exact List.nodup_cons.mpr ⟨hnot, h.nodup⟩
    · rcases (hnew pid).mp halive with rfl | halive
      · exact hpos
      · exact h.positive pid halive
    · exact forall_of_none hstored
    · change ∀ i ∈ pc.entry, i < (s.forked fork).used
      rwa [hused]
    · change ∀ i, (s.forked fork).used ≤ i → ((s.forked fork).workers i).pid = 0
      rw [hused, hworkers]
      exact h.unused
    · exact forall_of_none hreuses
    · change (s.forked fork).used ≤ (s.forked fork).workerNum
      rw [hused, hnum]
      exact h.room.1
    · change pc.pushes = true → (s.forked fork).used < (s.forked fork).workerNum
      rwa [hused, hnum]
    · exact forall_of_none hgoes
  · have hforked : s.forked fork = s := if_neg hpos
    rw [hforked]
    refine ⟨fun pid halive => .inr (hold pid halive), h.nodup, h.positive, ?_, hentry, h.unused, ?_, ⟨h.room.1, hroom⟩, ?_⟩
    · exact forall_of_none hstored
    · exact forall_of_none hreuses
    · exact forall_of_none hgoes

/-- A new entry, for a worker that was forked. -/
theorem Tracked.push {pid : Int} (h : Tracked s) (hpc : s.pc = .createPush pid) :
    Tracked ({ s with used := s.used + 1 }.goto (.createPid s.used pid)) := by
  have hroom := h.room.2 (by rw [hpc]; rfl)
  refine ⟨fun p halive => ?_, h.nodup, h.positive, ?_, ?_, fun i hi => ?_, ?_, ⟨hroom, ?_⟩, ?_⟩
  · have htracked := h.tracked p halive
    rw [hpc] at htracked
    refine htracked.imp_right ?_
    rintro ⟨i, hi, -, hentry⟩
    refine ⟨i, Nat.lt_succ_of_lt hi, fun hmem => ?_, hentry⟩
    exact absurd (Option.mem_some.mp hmem) (Nat.ne_of_gt hi)
  · exact forall_of_none rfl
  · exact fun i hi => Option.mem_some.mp hi ▸ Nat.lt_succ_self s.used
  · exact h.unused i (Nat.le_of_succ_le hi)
  · exact forall_of_none rfl
  · exact of_not_pushes rfl
  · exact forall_of_none rfl

/-- The pid of a new worker is stored. -/
theorem Tracked.storePid {pid : Int} (h : Tracked s) (hp : s.pc.pending = some pid) (hf : s.pc.fills = some i)
    (hi : i < s.used) (hpending : pc.pending = some pid) (hfills : pc.fills = some i)
    (hstored : pc.stored = some (i, pid)) (hentry : pc.entry = some i) (hreuses : pc.reuses = none)
    (hpushes : pc.pushes = false) (hgoes : pc.goes = none) :
    Tracked ((s.setWorker i ({ · with pid := pid })).goto pc) := by
  have hother : ∀ j, j ≠ i → ((s.setWorker i ({ · with pid := pid })).goto pc).workers j = s.workers j :=
    fun j hj => by simp [Master.goto, Master.setWorker, hj]
  refine ⟨fun p halive => ?_, h.nodup, h.positive, ?_, ?_, fun j hj => ?_, ?_, ⟨h.room.1, ?_⟩, ?_⟩
  · have htracked := h.tracked p halive
    rw [hp, hf] at htracked
    rcases htracked with hmem | ⟨j, hj, hnot, hjpid, hjexited⟩
    · left
      change p ∈ pc.pending
      rwa [hpending]
    · have hji : j ≠ i := fun heq => hnot (heq ▸ Option.mem_some_self i)
      refine .inr ⟨j, hj, fun hmem => ?_, ?_⟩
      · change j ∈ pc.fills at hmem
        rw [hfills] at hmem
        exact hji (Option.mem_some.mp hmem).symm
      · rw [hother j hji]
        exact ⟨hjpid, hjexited⟩
  · change ∀ e ∈ pc.stored, _
    rw [hstored]
    intro e he
    rw [← Option.mem_some.mp he]
    simp [Master.goto, Master.setWorker]
  · change ∀ j ∈ pc.entry, j < s.used
    rw [hentry]
    exact fun j hj => Option.mem_some.mp hj ▸ hi
  · have hused : s.used ≤ j := hj
    rw [hother j (by omega)]
    exact h.unused j hused
  · exact forall_of_none hreuses
  · exact of_not_pushes hpushes
  · exact forall_of_none hgoes

/-- The entry of a new worker is not marked any more: the worker is in the
table. -/
theorem Tracked.clearExited {pid : Int} (h : Tracked s) (hp : s.pc.pending = some pid) (hf : s.pc.fills = some i)
    (hi : i < s.used) (hstored : (s.workers i).pid = pid) (hfills : pc.fills = none) (hs : pc.stored = none)
    (hentry : pc.entry = some i) (hreuses : pc.reuses = none) (hpushes : pc.pushes = false)
    (hgoes : pc.goes = none) : Tracked ((s.setWorker i ({ · with exited := false })).goto pc) := by
  have hother : ∀ j, j ≠ i → ((s.setWorker i ({ · with exited := false })).goto pc).workers j = s.workers j :=
    fun j hj => by simp [Master.goto, Master.setWorker, hj]
  refine ⟨fun p halive => .inr ?_, h.nodup, h.positive, ?_, ?_, fun j hj => ?_, ?_, ⟨h.room.1, ?_⟩, ?_⟩
  · have hnot : ∀ j, j ∉ pc.fills := fun j => by
      rw [hfills]
      exact Option.not_mem_none j
    have htracked := h.tracked p halive
    rw [hp, hf] at htracked
    rcases htracked with hmem | ⟨j, hj, hji, hjpid, hjexited⟩
    · refine ⟨i, hi, hnot i, ?_⟩
      rw [← Option.mem_some.mp hmem, ← hstored]
      simp [Master.goto, Master.setWorker]
    · refine ⟨j, hj, hnot j, ?_⟩
      rw [hother j fun heq => hji (heq ▸ Option.mem_some_self i)]
      exact ⟨hjpid, hjexited⟩
  · exact forall_of_none hs
  · change ∀ j ∈ pc.entry, j < s.used
    rw [hentry]
    exact fun j hj => Option.mem_some.mp hj ▸ hi
  · have hused : s.used ≤ j := hj
    rw [hother j (by omega)]
    exact h.unused j hused
  · exact forall_of_none hreuses
  · exact of_not_pushes hpushes
  · exact forall_of_none hgoes

/-- A statement of the master. -/
theorem Tracked.step (h : Tracked s)
    (hfork : fork = -1 ∨ 0 < fork ∧ fork ∉ s.children ∧ ∀ z ∈ s.zombies, z.1 ≠ fork)
    (hkill : kill = .esrch → ∀ i ∈ s.pc.signalled, ¬ s.Alive (s.workers i).pid)
    (hstep : s.step fork kill = some s') : Tracked s' := by
  have hstored := h.stored
  have hentry := h.entry
  have hvacated := h.vacated
  have hroom := h.room.2
  have hgone := h.gone
  cases hpc : s.pc <;> simp only [Master.step, hpc, reduceCtorEq, Option.some.injEq] at hstep <;>
    simp only [hpc, MasterPc.stored, MasterPc.entry, MasterPc.reuses, MasterPc.pushes, MasterPc.goes,
      MasterPc.signalled, Option.mem_def, Option.some.injEq, forall_eq', reduceCtorEq, false_imp_iff, implies_true,
      Bool.false_eq_true, forall_const] at hstored hentry hvacated hroom hgone hkill <;>
    have hp := congrArg MasterPc.pending hpc <;> have hf := congrArg MasterPc.fills hpc
  case createTest =>
    subst hstep
    split
    next hless => exact h.goto hp rfl rfl (forall_of_none rfl) (forall_of_none rfl) (fun _ => hless) (forall_of_none rfl)
    · exact h.settle hp rfl
  case createFork =>
    subst hstep
    exact h.forked hp hfork (fun _ => rfl) rfl (forall_of_none rfl) (forall_of_none rfl) rfl
      (fun _ => hroom) rfl
  case createPush pid =>
    subst hstep
    exact h.push hpc
  case createPid i pid =>
    subst hstep
    exact h.storePid hp hf hentry rfl rfl rfl rfl rfl rfl rfl
  case createExited i pid =>
    subst hstep
    exact h.clearExited hp hf hentry hstored rfl rfl rfl rfl rfl rfl
  case createExiting i =>
    subst hstep
    refine Tracked.goto ?_ hp rfl rfl (fun j hj => Option.mem_some.mp hj ▸ hentry) (forall_of_none rfl)
      (of_not_pushes rfl) (forall_of_none rfl)
    exact h.setFlag (fun _ => rfl) fun _ => rfl
  case createRespawn i | killExiting i signo | goneExiting i signo =>
    subst hstep
    refine Tracked.settle ?_ hp rfl
    exact h.setFlag (fun _ => rfl) fun _ => rfl
  case cycle =>
    split at hstep <;> cases hstep
    · exact h.other hp rfl rfl rfl (.refl _) rfl
    · exact h.settle hp rfl
  case cycleAlarm | reapClear | goneReap i signo =>
    subst hstep
    exact h.other hp rfl rfl rfl (.refl _) rfl
  case reapTest | exitTest | quitTest =>
    subst hstep
    split <;> exact h.settle hp rfl
  case reapEntry i live =>
    split at hstep <;> cases hstep
    · split
      · exact h.settle hp rfl
      next hpid =>
        have hi : i < s.used := by
          by_contra hused
          exact hpid (Int.le_of_eq (h.unused i (Nat.le_of_not_lt hused)))
        exact h.goto hp rfl rfl (fun j hj => Option.mem_some.mp hj ▸ hi) (forall_of_none rfl)
          (of_not_pushes rfl) (forall_of_none rfl)
    · exact h.other hp rfl rfl rfl (.refl _) rfl
  case reapExitedTest i live =>
    subst hstep
    split
    next hexited =>
      exact h.goto hp rfl rfl (fun j hj => Option.mem_some.mp hj ▸ hentry) (fun j hj => Option.mem_some.mp hj ▸ hexited)
        (of_not_pushes rfl) (forall_of_none rfl)
    · exact h.settle hp rfl
  case reapRespawnTest i live =>
    subst hstep
    split
    · exact h.goto hp rfl rfl (fun j hj => Option.mem_some.mp hj ▸ hentry)
        (fun j hj => Option.mem_some.mp hj ▸ hvacated) (of_not_pushes rfl) (forall_of_none rfl)
    · exact h.settle hp rfl
  case reapFork i =>
    subst hstep
    split
    · exact h.forked hp hfork (fun _ => rfl) rfl (fun j hj => Option.mem_some.mp hj ▸ hentry)
        (fun j hj => Option.mem_some.mp hj ▸ hvacated) rfl (of_not_pushes rfl) rfl
    next hneg =>
      exact h.forked hp hfork (fun hpos => absurd hpos hneg) rfl (forall_of_none rfl)
        (forall_of_none rfl) rfl (of_not_pushes rfl) rfl
  case reapPid i pid =>
    subst hstep
    exact h.storePid hp hf hentry rfl rfl rfl rfl rfl rfl rfl
  case reapExited i pid =>
    subst hstep
    exact h.clearExited hp hf hentry hstored rfl rfl rfl rfl rfl rfl
  case reapExiting i =>
    subst hstep
    refine Tracked.settle ?_ hp rfl
    exact h.setFlag (fun _ => rfl) fun _ => rfl
  case termTest =>
    split at hstep <;> cases hstep
    · exact h.other hp rfl rfl rfl (.refl _) rfl
    · exact h.settle hp rfl
  case killEntry i signo =>
    split at hstep <;> cases hstep <;> split <;> exact h.settle hp rfl
  case killCall i signo =>
    subst hstep
    have hkilled : Tracked (s.killed (s.workers i).pid) := h.plain rfl rfl rfl (.refl _) rfl
    cases kill with
    | ok => exact hkilled.settle hp rfl
    | failed => exact hkilled.settle hp rfl
    | esrch =>
        exact hkilled.goto hp rfl rfl (forall_of_none rfl) (forall_of_none rfl) (of_not_pushes rfl)
          fun j hj => Option.mem_some.mp hj ▸ hkill rfl
  case goneExited i signo =>
    subst hstep
    exact h.markGone hpc

/-- The handler marks no entry with another pid. -/
theorem collect_other {z : Int × Nat} {j : Nat} (hj : (s.workers j).pid ≠ z.1) :
    (s.collect z).workers j = s.workers j := by
  simp only [Master.collect]
  split
  next i hfind =>
    have hpid := (List.find?_range_eq_some.mp hfind).1
    simp only [decide_eq_true_eq] at hpid
    have hji : j ≠ i := by
      rintro rfl
      exact hj hpid
    simp [Master.setWorker, hji]
  · rfl

theorem collect_workerNum (z : Int × Nat) : (s.collect z).workerNum = s.workerNum := by
  simp only [Master.collect]
  split <;> rfl

/-- A worker that has exited is collected. -/
theorem Tracked.collect {z : Int × Nat} {zs : List (Int × Nat)} (h : Tracked { s with zombies := z :: zs }) :
    Tracked { s.collect z with zombies := zs } := by
  have hcol := collect_collected s z
  have halive : ∀ pid, Master.Alive { s.collect z with zombies := zs } pid →
      Master.Alive { s with zombies := z :: zs } pid ∧ pid ≠ z.1 := by
    have hnodup := h.nodup
    simp only [Master.pids, List.map_cons, List.nodup_append, List.nodup_cons, List.mem_cons] at hnodup
    obtain ⟨-, ⟨hnot, -⟩, hdisjoint⟩ := hnodup
    rintro pid (hmem | ⟨z', hz', hpid⟩)
    · change pid ∈ (s.collect z).children at hmem
      rw [hcol.children] at hmem
      exact ⟨.inl hmem, hdisjoint pid hmem z.1 (.inl rfl)⟩
    · refine ⟨.inr ⟨z', List.mem_cons_of_mem z hz', hpid⟩, fun heq => hnot ?_⟩
      rw [← heq, ← hpid]
      exact List.mem_map_of_mem hz'
  refine ⟨fun pid hp => ?_, ?_, fun pid hp => h.positive pid (halive pid hp).1, ?_, ?_, ?_, ?_, ?_, ?_⟩
  · obtain ⟨hold, hne⟩ := halive pid hp
    change pid ∈ (s.collect z).pc.pending ∨ ∃ i < (s.collect z).used, i ∉ (s.collect z).pc.fills ∧
      ((s.collect z).workers i).pid = pid ∧ ((s.collect z).workers i).exited = false
    rw [hcol.pc, hcol.used]
    refine (h.tracked pid hold).imp_right ?_
    rintro ⟨i, hi, hfills, hpid, hexited⟩
    refine ⟨i, hi, hfills, ?_⟩
    have hpid' : (s.workers i).pid = pid := hpid
    rw [collect_other (hpid'.trans_ne hne)]
    exact ⟨hpid, hexited⟩
  · have hnodup := h.nodup
    unfold Master.pids at hnodup ⊢
    dsimp only at hnodup ⊢
    rw [hcol.children]
    exact hnodup.sublist (List.Sublist.append_left (List.sublist_cons_self _ _) _)
  · intro e he
    change e ∈ (s.collect z).pc.stored at he
    rw [hcol.pc] at he
    exact (hcol.pid e.1).trans (h.stored e he)
  · intro i hi
    change i ∈ (s.collect z).pc.entry at hi
    change i < (s.collect z).used
    rw [hcol.pc] at hi
    rw [hcol.used]
    exact h.entry i hi
  · intro i hi
    change (s.collect z).used ≤ i at hi
    rw [hcol.used] at hi
    exact (hcol.pid i).trans (h.unused i hi)
  · intro i hi
    change i ∈ (s.collect z).pc.reuses at hi
    rw [hcol.pc] at hi
    have hold : (s.workers i).exited = true := h.vacated i hi
    by_contra hnew
    exact absurd (hold.symm.trans (hcol.exited i (Bool.eq_false_iff.mpr hnew))) (by simp)
  · have hroom := h.room
    change (s.collect z).used ≤ (s.collect z).workerNum ∧
      ((s.collect z).pc.pushes = true → (s.collect z).used < (s.collect z).workerNum)
    rwa [hcol.pc, hcol.used, collect_workerNum]
  · intro i hi hp
    change i ∈ (s.collect z).pc.goes at hi
    rw [hcol.pc] at hi
    have hold := (halive _ hp).1
    change Master.Alive _ ((s.collect z).workers i).pid at hold
    rw [hcol.pid] at hold
    exact h.gone i hi hold

/-- The loop of `process_get_status`. -/
theorem Tracked.collectAll {zs : List (Int × Nat)} (h : Tracked { s with zombies := zs }) :
    Tracked { zs.foldl Master.collect s with zombies := [] } := by
  induction zs generalizing s with
  | nil => exact h
  | cons z zs ih => exact ih h.collect

theorem Tracked.woken (h : Tracked s) : Tracked s.woken := by
  unfold Master.woken
  split
  next hpc =>
    refine h.settle ?_ rfl
    rw [hpc]
    rfl
  · exact h

/-- Every step keeps the table. -/
theorem Tracked.next {i : MasterInput} (h : Tracked s) (hallows : s.Allows i) (hhonest : Honest s i)
    (hnext : s.next i = some s') : Tracked s' := by
  cases i with
  | step fork kill => exact h.step hallows hhonest hnext
  | exited pid status =>
      cases hnext
      refine h.plain rfl rfl rfl ?_ rfl
      unfold Master.pids
      have hout : s.children.Perm (pid :: s.children.erase pid) := List.perm_cons_erase hallows
      rw [List.map_append, ← List.append_assoc]
      exact (List.perm_append_singleton pid _).trans (hout.append_right _).symm
  | sigchld =>
      cases hnext
      have hreap : Tracked { s with pReap := true } := h.plain rfl rfl rfl (.refl _) rfl
      have hall : Tracked { s with pReap := true }.processGetStatus := hreap.collectAll
      exact hall.woken
  | sigalrm =>
      cases hnext
      have hflag : Tracked { s with pSigalarm := true } := h.plain rfl rfl rfl (.refl _) rfl
      exact hflag.woken
  | sigint =>
      cases hnext
      have hflag : Tracked { s with pTerminate := true } := h.plain rfl rfl rfl (.refl _) rfl
      exact hflag.woken
  | sigquit =>
      cases hnext
      have hflag : Tracked { s with pQuit := true } := h.plain rfl rfl rfl (.refl _) rfl
      exact hflag.woken

theorem Tracked.init (n : Nat) : Tracked { workerNum := n } := by
  refine ⟨?_, ?_, ?_, ?_, ?_, ?_, ?_, ?_, ?_⟩
  all_goals simp [Master.Alive, Master.pids, MasterPc.stored, MasterPc.entry, MasterPc.reuses, MasterPc.pushes,
    MasterPc.goes]

end Tracking

/-! ## the last worker -/

/-- The entry is of no worker, or of one that has exited. -/
def WorkerT.Marked (w : WorkerT) : Prop := w.pid ≤ 0 ∨ w.exited = true

/-- How many entries the loop of `reap_children` has found marked, as long as it
has found no worker that runs. -/
def MasterPc.passed : MasterPc → Option Nat
  | .reapEntry i live | .reapExitedTest i live => some (if live then 0 else i)
  | .reapRespawnTest i live => some (if live then 0 else i + 1)
  | .reapFork _ | .reapPid _ _ | .reapExited _ _ | .reapExiting _ | .workerCycle => some 0
  | _ => none

/-- How many entries are known to be marked; from the end of the loop on, what
`live` says. -/
def Master.passed (s : Master) : Nat := s.pc.passed.getD (if s.live then 0 else s.capacity)

/-- The workers are forked for the first time. -/
def MasterPc.creates : MasterPc → Bool
  | .createTest | .createFork | .createPush _ | .createPid _ _ | .createExited _ _ | .createExiting _
  | .createRespawn _ => true
  | _ => false

/-- What `live` says. -/
structure Reaped (s : Master) : Prop where
  passed : ∀ i < s.passed, (s.workers i).Marked
  creates : s.pc.creates = true → s.live = true
  exit : s.pc = .exit → s.live = false

section Reaping

variable {s s' : Master} {fork : Int} {kill : KillResult} {f : WorkerT → WorkerT} {i : Nat}

/-- The loop of `reap_children` has passed `n` entries. -/
theorem reaped_of_passed {n : Nat} (hpc : s'.pc.passed = some n) (hpassed : ∀ i < n, (s'.workers i).Marked)
    (hcreates : s'.pc.creates = false) (hexit : s'.pc ≠ .exit) : Reaped s' := by
  refine ⟨?_, fun heq => absurd (hcreates.symm.trans heq) Bool.false_ne_true, fun heq => absurd heq hexit⟩
  rw [Master.passed, hpc]
  exact hpassed

/-- A worker has been forked. -/
theorem reaped_of_live (hpc : s'.pc.passed = none) (hlive : s'.live = true) (hexit : s'.pc ≠ .exit) : Reaped s' := by
  refine ⟨fun i hi => ?_, fun _ => hlive, fun heq => absurd heq hexit⟩
  rw [Master.passed, hpc, Option.getD_none, if_pos hlive] at hi
  exact absurd hi (Nat.not_lt_zero i)

/-- A statement that is not in the loop of `reap_children`. -/
theorem Reaped.aside (h : Reaped s) (hpc : s.pc.passed = none) (hpc' : s'.pc.passed = none)
    (hlive : s'.live = s.live) (hnum : s'.workerNum = s.workerNum)
    (hworkers : ∀ i, (s.workers i).Marked → (s'.workers i).Marked) (hcreates : s'.pc.creates = false)
    (hexit : s'.pc = .exit → s'.live = false) : Reaped s' := by
  refine ⟨fun i hi => hworkers i (h.passed i ?_), fun heq => absurd (hcreates.symm.trans heq) Bool.false_ne_true, hexit⟩
  rw [Master.passed, hpc', Option.getD_none, hlive, Master.capacity, hnum] at hi
  rw [Master.passed, hpc]
  exact hi

theorem forked_live (s : Master) (fork : Int) : (s.forked fork).live = s.live := by
  unfold Master.forked
  split <;> rfl

theorem marked_setWorker (pc : MasterPc) (hf : ∀ w, w.Marked → (f w).Marked) (j : Nat)
    (hj : (s.workers j).Marked) : (((s.setWorker i f).goto pc).workers j).Marked := by
  by_cases hji : j = i
  · subst hji
    simpa [Master.goto, Master.setWorker] using hf _ hj
  · simpa [Master.goto, Master.setWorker, hji] using hj

/-- One more entry is marked. -/
theorem marked_succ {live : Bool} (hpassed : ∀ j < if live then 0 else i, (s.workers j).Marked)
    (hi : (s.workers i).Marked) : ∀ j < if live then 0 else i + 1, (s.workers j).Marked := by
  intro j hj
  cases live with
  | true => exact absurd hj (Nat.not_lt_zero j)
  | false =>
      rcases Nat.lt_succ_iff_lt_or_eq.mp hj with hlt | rfl
      · exact hpassed j hlt
      · exact hi

/-- A statement of the master. -/
theorem Reaped.step (h : Reaped s) (hstep : s.step fork kill = some s') : Reaped s' := by
  have hpassed := h.passed
  have hcreates := h.creates
  cases hpc : s.pc <;> simp only [Master.step, hpc, reduceCtorEq, Option.some.injEq] at hstep <;>
    simp only [Master.passed, hpc] at hpassed <;> simp only [hpc, MasterPc.creates, forall_const] at hcreates <;>
    have hp := congrArg MasterPc.passed hpc
  case createTest =>
    subst hstep
    split <;> exact reaped_of_live rfl hcreates fun heq => by cases heq
  case createFork =>
    subst hstep
    exact reaped_of_live rfl ((forked_live s fork).trans hcreates) fun heq => by cases heq
  case createPush pid | createPid i pid | createExited i pid | createExiting i | createRespawn i =>
    subst hstep
    exact reaped_of_live rfl hcreates fun heq => by cases heq
  case cycle | termTest =>
    split at hstep <;> cases hstep <;>
      exact h.aside hp rfl rfl rfl (fun _ hi => hi) rfl fun heq => by cases heq
  case cycleAlarm | goneReap i signo =>
    subst hstep
    exact h.aside hp rfl rfl rfl (fun _ hi => hi) rfl fun heq => by cases heq
  case reapTest =>
    subst hstep
    split <;> exact h.aside hp rfl rfl rfl (fun _ hi => hi) rfl fun heq => by cases heq
  case quitTest =>
    subst hstep
    split <;> exact h.aside hp rfl rfl rfl (fun _ hi => hi) rfl fun heq => by cases heq
  case reapClear =>
    subst hstep
    exact reaped_of_passed rfl (fun j hj => absurd hj (Nat.not_lt_zero j)) rfl fun heq => by cases heq
  case reapEntry i live =>
    split at hstep <;> cases hstep
    · split
      next hpid => exact reaped_of_passed rfl (marked_succ hpassed (.inl hpid)) rfl fun heq => by cases heq
      · exact reaped_of_passed rfl hpassed rfl fun heq => by cases heq
    next hi =>
      refine ⟨fun j hj => hpassed j ?_, (fun heq => by cases heq), fun heq => by cases heq⟩
      cases live with
      | true => exact hj
      | false => exact Nat.lt_of_lt_of_le hj (Nat.le_of_not_lt hi)
  case reapExitedTest i live =>
    subst hstep
    split
    next hexited => exact reaped_of_passed rfl (marked_succ hpassed (.inr hexited)) rfl fun heq => by cases heq
    · exact reaped_of_passed rfl (fun j hj => absurd hj (Nat.not_lt_zero j)) rfl fun heq => by cases heq
  case reapRespawnTest i live =>
    subst hstep
    split
    · exact reaped_of_passed rfl (fun j hj => absurd hj (Nat.not_lt_zero j)) rfl fun heq => by cases heq
    · exact reaped_of_passed rfl hpassed rfl fun heq => by cases heq
  case reapFork i =>
    subst hstep
    split <;> exact reaped_of_passed rfl (fun j hj => absurd hj (Nat.not_lt_zero j)) rfl fun heq => by cases heq
  case reapPid i pid | reapExited i pid | reapExiting i =>
    subst hstep
    exact reaped_of_passed rfl (fun j hj => absurd hj (Nat.not_lt_zero j)) rfl fun heq => by cases heq
  case exitTest =>
    subst hstep
    split
    next hexits =>
      rw [Bool.and_eq_true, Bool.not_eq_true'] at hexits
      exact h.aside hp rfl rfl rfl (fun _ hi => hi) rfl fun _ => hexits.1
    · exact h.aside hp rfl rfl rfl (fun _ hi => hi) rfl fun heq => by cases heq
  case killEntry i signo =>
    split at hstep <;> cases hstep <;> split <;>
      exact h.aside hp rfl rfl rfl (fun _ hi => hi) rfl fun heq => by cases heq
  case killCall i signo =>
    subst hstep
    cases kill <;> exact h.aside hp rfl rfl rfl (fun _ hi => hi) rfl fun heq => by cases heq
  case killExiting i signo | goneExiting i signo =>
    subst hstep
    exact h.aside hp rfl rfl rfl (marked_setWorker _ fun _ hw => hw) rfl fun heq => by cases heq
  case goneExited i signo =>
    subst hstep
    exact h.aside hp rfl rfl rfl (marked_setWorker _ fun _ _ => .inr rfl) rfl fun heq => by cases heq

/-- A handler has run, and has marked entries only. -/
theorem Reaped.handled (h : Reaped s) (hpc : s'.pc = s.pc) (hlive : s'.live = s.live)
    (hnum : s'.workerNum = s.workerNum) (hworkers : ∀ i, (s.workers i).Marked → (s'.workers i).Marked) :
    Reaped s' := by
  refine ⟨fun i hi => hworkers i (h.passed i ?_), ?_, ?_⟩
  · rw [Master.passed, hpc, hlive, Master.capacity, hnum] at hi
    exact hi
  · rw [hpc, hlive]
    exact h.creates
  · rw [hpc, hlive]
    exact h.exit

theorem Reaped.woken (h : Reaped s) : Reaped s.woken := by
  unfold Master.woken
  split
  next hpc => exact h.aside (congrArg MasterPc.passed hpc) rfl rfl rfl (fun _ hi => hi) rfl fun heq => by cases heq
  · exact h

/-- What `process_get_status` leaves alone. -/
theorem Reaped.collectAll (zs : List (Int × Nat)) (h : Reaped s) : Reaped (zs.foldl Master.collect s) := by
  induction zs generalizing s with
  | nil => exact h
  | cons z zs ih =>
      have hcol := collect_collected s z
      refine ih (h.handled hcol.pc ?_ (collect_workerNum z) fun i hi => ?_)
      · simp only [Master.collect]
        split <;> rfl
      · refine hi.imp (fun hpid => ?_) fun hexited => ?_
        · rwa [hcol.pid]
        · by_contra hnew
          exact absurd (hexited.symm.trans (hcol.exited i (Bool.eq_false_iff.mpr hnew))) (by simp)

/-- Every step keeps what `live` says. -/
theorem Reaped.next {i : MasterInput} (h : Reaped s) (hnext : s.next i = some s') : Reaped s' := by
  cases i with
  | step fork kill => exact h.step hnext
  | exited pid status =>
      cases hnext
      exact h.handled rfl rfl rfl fun _ hi => hi
  | sigchld =>
      cases hnext
      have hreap : Reaped { s with pReap := true } := h.handled rfl rfl rfl fun _ hi => hi
      have hall := hreap.collectAll s.zombies
      have hstatus : Reaped { s with pReap := true }.processGetStatus := hall.handled rfl rfl rfl fun _ hi => hi
      exact hstatus.woken
  | sigalrm =>
      cases hnext
      have hflag : Reaped { s with pSigalarm := true } := h.handled rfl rfl rfl fun _ hi => hi
      exact hflag.woken
  | sigint =>
      cases hnext
      have hflag : Reaped { s with pTerminate := true } := h.handled rfl rfl rfl fun _ hi => hi
      exact hflag.woken
  | sigquit =>
      cases hnext
      have hflag : Reaped { s with pQuit := true } := h.handled rfl rfl rfl fun _ hi => hi
      exact hflag.woken

theorem Reaped.init (n : Nat) : Reaped { workerNum := n } :=
  reaped_of_live rfl rfl fun heq => by cases heq

end Reaping

/-! ## runs -/

section

variable {s : Master}

theorem master_tracked (h : (master.restrict Honest).Reaches s) : Tracked s := by
  refine h.invariant ?_ fun s i s' htracked hallows hstep => htracked.next hallows.1 hallows.2 hstep
  rintro s ⟨n, rfl⟩
  exact Tracked.init n

theorem master_reaped (h : master.Reaches s) : Reaped s := by
  refine h.invariant ?_ fun s i s' hreaped _ hstep => hreaped.next hstep
  rintro s ⟨n, rfl⟩
  exact Reaped.init n

/-- A worker whose entry is not made yet. -/
theorem MasterPc.pending_cases (pc : MasterPc) : pc.pending = none ∨
    (∃ pid, pc.pending = some pid ∧ pc.pushes = true) ∨
      ∃ i pid, pc.pending = some pid ∧ pc.fills = some i ∧ pc.entry = some i := by
  cases pc <;> simp [MasterPc.pending, MasterPc.pushes, MasterPc.fills, MasterPc.entry]

/-- There is an entry for every worker, so there are not too many. -/
theorem Tracked.bound (h : Tracked s) : s.pids.length ≤ s.workerNum := by
  let entries (is : Finset Nat) : Finset Int := is.image fun i => (s.workers i).pid
  have hentry : ∀ pid ∈ s.pids.toFinset, pid ∈ s.pc.pending ∨ ∃ i < s.used, i ∉ s.pc.fills ∧ (s.workers i).pid = pid := by
    intro pid hpid
    refine (h.tracked pid (s.mem_pids.mp (List.mem_toFinset.mp hpid))).imp_right ?_
    rintro ⟨i, hi, hfills, heq, -⟩
    exact ⟨i, hi, hfills, heq⟩
  rw [← List.toFinset_card_of_nodup h.nodup]
  rcases s.pc.pending_cases with hnone | ⟨pid, hpid, hpushes⟩ | ⟨i, pid, hpid, hfills, hi⟩
  · have hsub : s.pids.toFinset ⊆ entries (Finset.range s.used) := fun p hp => by
      have hp' := hentry p hp
      rw [hnone] at hp'
      obtain ⟨i, hi, -, heq⟩ := hp'.resolve_left (Option.not_mem_none p)
      exact Finset.mem_image.mpr ⟨i, Finset.mem_range.mpr hi, heq⟩
    calc s.pids.toFinset.card ≤ (entries (Finset.range s.used)).card := Finset.card_le_card hsub
      _ ≤ (Finset.range s.used).card := Finset.card_image_le
      _ = s.used := Finset.card_range s.used
      _ ≤ s.workerNum := h.room.1
  · have hsub : s.pids.toFinset ⊆ insert pid (entries (Finset.range s.used)) := fun p hp => by
      have hp' := hentry p hp
      rw [hpid] at hp'
      rcases hp' with heq | ⟨i, hi, -, heq⟩
      · exact Finset.mem_insert.mpr (.inl (Option.mem_some.mp heq).symm)
      · exact Finset.mem_insert_of_mem (Finset.mem_image.mpr ⟨i, Finset.mem_range.mpr hi, heq⟩)
    calc s.pids.toFinset.card ≤ (insert pid (entries (Finset.range s.used))).card := Finset.card_le_card hsub
      _ ≤ (entries (Finset.range s.used)).card + 1 := Finset.card_insert_le _ _
      _ ≤ (Finset.range s.used).card + 1 := Nat.add_le_add_right Finset.card_image_le 1
      _ = s.used + 1 := by rw [Finset.card_range]
      _ ≤ s.workerNum := h.room.2 hpushes
  · have hused : i < s.used := h.entry i (by rw [hi]; rfl)
    have hmem : i ∈ Finset.range s.used := Finset.mem_range.mpr hused
    have hsub : s.pids.toFinset ⊆ insert pid (entries ((Finset.range s.used).erase i)) := fun p hp => by
      have hp' := hentry p hp
      rw [hpid, hfills] at hp'
      rcases hp' with heq | ⟨j, hj, hji, heq⟩
      · exact Finset.mem_insert.mpr (.inl (Option.mem_some.mp heq).symm)
      · refine Finset.mem_insert_of_mem (Finset.mem_image.mpr ⟨j, Finset.mem_erase.mpr ⟨?_, ?_⟩, heq⟩)
        · exact fun heq => hji (heq ▸ Option.mem_some_self i)
        · exact Finset.mem_range.mpr hj
    calc s.pids.toFinset.card ≤ (insert pid (entries ((Finset.range s.used).erase i))).card :=
          Finset.card_le_card hsub
      _ ≤ (entries ((Finset.range s.used).erase i)).card + 1 := Finset.card_insert_le _ _
      _ ≤ ((Finset.range s.used).erase i).card + 1 := Nat.add_le_add_right Finset.card_image_le 1
      _ = s.used := by rw [Finset.card_erase_add_one hmem, Finset.card_range]
      _ ≤ s.workerNum := h.room.1

instance honestDecidable (s : Master) (i : MasterInput) : Decidable (Honest s i) :=
  match i with
  | .step _ _ => inferInstanceAs (Decidable (_ → ∀ i ∈ s.pc.signalled, ¬ (_ ∨ ∃ z ∈ s.zombies, _)))
  | .exited _ _ | .sigchld | .sigalrm | .sigint | .sigquit => .isTrue trivial

instance honestAllowsDecidable (s : Master) (i : MasterInput) :
    Decidable ((master.restrict Honest).allows s i) :=
  inferInstanceAs (Decidable (master.allows s i ∧ Honest s i))

/-- **No worker without an entry**: wherever the signals come, every worker that
runs or was not collected yet is in the table in an entry that is not marked, or
is about to be; there are never more than `worker_num` of them. -/
theorem master_knows (h : (master.restrict Honest).Reaches s) :
    (∀ pid, s.Alive pid → pid ∈ s.pc.pending ∨
      ∃ i < s.used, (s.workers i).pid = pid ∧ (s.workers i).exited = false) ∧
    s.children.length + s.zombies.length ≤ s.workerNum := by
  have htracked := master_tracked h
  refine ⟨fun pid halive => (htracked.tracked pid halive).imp_right ?_, ?_⟩
  · rintro ⟨i, hi, -, hentry⟩
    exact ⟨i, hi, hentry⟩
  · have hbound := htracked.bound
    rwa [Master.pids, List.length_append, List.length_map] at hbound

/-- Two workers, of which one has exited. -/
theorem master_knows_two : ∃ s, (master.restrict Honest).Reaches s ∧
    (s.children = [101] ∧ s.zombies = [(100, 0)]) ∧
    (∀ pid, s.Alive pid → pid ∈ s.pc.pending ∨
      ∃ i < s.used, (s.workers i).pid = pid ∧ (s.workers i).exited = false) ∧
    s.children.length + s.zombies.length ≤ s.workerNum := by
  have hinit : (master.restrict Honest).Reaches { workerNum := 2 } := .init ⟨2, rfl⟩
  obtain ⟨s, hs, htest⟩ := hinit.exists_of_runTest
    (fun s : Master => decide (s.children = [101] ∧ s.zombies = [(100, 0)]))
    (stepsOf 2 100 ++ stepsOf 5 (-1) ++ stepsOf 2 101 ++ stepsOf 7 (-1) ++ [.exited 100 0]) (by decide +kernel)
  exact ⟨s, hs, of_decide_eq_true htest, master_knows hs⟩

/-- **The last to leave**: the master exits only when no worker runs, and none
waits to be collected. -/
theorem master_exits_last (h : (master.restrict Honest).Reaches s) (hexit : s.pc = .exit) :
    s.children = [] ∧ s.zombies = [] := by
  have htracked := master_tracked h
  have hreaped := master_reaped h.of_restrict
  have hnone : ∀ pid, ¬ s.Alive pid := by
    intro pid halive
    have hentry := htracked.tracked pid halive
    rw [hexit] at hentry
    obtain ⟨i, hi, -, hpid, hexited⟩ := hentry.resolve_left (Option.not_mem_none pid)
    have hpassed : s.passed = s.capacity := by
      rw [Master.passed, hexit]
      change (if s.live then 0 else s.capacity) = _
      rw [hreaped.exit hexit]
      rfl
    have hroom := htracked.room.1
    have hmarked := hreaped.passed i (by rw [hpassed, Master.capacity]; omega)
    rcases hmarked with hneg | hmarked
    · have hpos := htracked.positive pid halive
      omega
    · exact absurd (hmarked.symm.trans hexited) (by simp)
  have hpids : s.pids = [] := List.eq_nil_iff_forall_not_mem.mpr fun pid hpid => hnone pid (s.mem_pids.mp hpid)
  obtain ⟨hchildren, hzombies⟩ := List.append_eq_nil_iff.mp hpids
  exact ⟨hchildren, List.map_eq_nil_iff.mp hzombies⟩

/-- A worker is told to quit, exits and is collected. -/
theorem master_exits_last_one : ∃ s, (master.restrict Honest).Reaches s ∧
    (s.pc = .exit ∧ s.collected = [100]) ∧ s.children = [] ∧ s.zombies = [] := by
  have hinit : (master.restrict Honest).Reaches { workerNum := 1 } := .init ⟨1, rfl⟩
  obtain ⟨s, hs, htest⟩ := hinit.exists_of_runTest
    (fun s : Master => decide (s.pc = .exit ∧ s.collected = [100]))
    (stepsOf 2 100 ++ stepsOf 7 (-1) ++ [.sigquit] ++ stepsOf 9 (-1) ++ [.exited 100 0, .sigchld] ++ stepsOf 8 (-1))
    (by decide +kernel)
  have hexit := of_decide_eq_true htest
  exact ⟨s, hs, hexit, master_exits_last hs hexit.1⟩

end

end PWebServer
