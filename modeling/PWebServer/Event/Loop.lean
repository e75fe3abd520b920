import PWebServer.Event.TimerQueue

/-!
# Event.Loop

The event loop of a worker: `process_events_and_timer` sleeps in `kevent` until
the first deadline, or with a `timer_resolution` until the next `SIGALRM`, runs
the handlers of the batch and expires the timers.

The kernel is a function from the timeout `kevent` is called with to what it
returns and when.
-/

namespace PWebServer

open Program RedBlack

variable {ν : Type} [DecidableEq ν]

/-! ## the loop -/

/-- What `kevent` returns, with what the handlers that run then do to the
timers. -/
structure Wakeup (ν : Type) where
  /-- the milliseconds of `gettimeofday` when `kevent` returns, counted from the
  last time they have wrapped around 2^32 -/
  time : Nat
  /-- `SIGALRM` has come since `kevent` returned last -/
  alarm : Bool := false
  /-- `kevent` returns -1 -/
  interrupted : Bool := false
  batch : List (HandlerOp ν) := []
  handlers : Handlers ν

/-- A worker's timers in its event loop; `alarm` is `p_event_timer_alarm`.
`time`, when `kevent` returned last, and `updated`, whether `time_update` was ever
called, are no part of the program. -/
structure EventLoop (ν : Type) where
  timers : Timers ν
  alarm : Bool := false
  time : Nat
  updated : Bool := false

/-- `server_cfg.timer_resolution`, and what is known of the kernel and of the
handlers: how late `kevent` returns, and the longest timer that is set.  A `int32_t`
tells the deadlines that have passed from those that have not. -/
structure LoopConfig where
  timerResolution : Nat
  latency : Nat
  maxTimer : Nat
  lateFits : 2 * timerResolution + latency < 2147483648
  timerFits : maxTimer < 2147483648

abbrev LoopM (ν : Type) := StateT (EventLoop ν) (Except Fault)

/-- An operation on the timers. -/
def inLoop {α : Type} (m : TimerM ν α) : LoopM ν α := fun s => do
  let (a, t) ← m s.timers
  pure (a, { s with timers := t })

/-- `time_update` -/
def EventLoop.timeUpdate (s : EventLoop ν) : EventLoop ν :=
  { s with timers := { s.timers with currentMsec := BitVec.ofNat 32 s.time }, updated := true }

/-- What has happened while `kevent` slept. -/
def EventLoop.wake (s : EventLoop ν) (w : Wakeup ν) : EventLoop ν :=
  { s with alarm := s.alarm || w.alarm, time := w.time }

/-- `kqueue_process_events`, from the return of `kevent`; `flags` is
`UPDATE_TIME` or nothing. -/
def kqueueProcessEvents (fuel : Nat) (flags : Bool) (w : Wakeup ν) : LoopM ν Unit := do
  modify (·.wake w)
  let s ← get
  if flags || s.alarm then
    modify EventLoop.timeUpdate
  if w.interrupted then
    if s.alarm then
      modify fun s => { s with alarm := false }
  else
    inLoop (runHandler fuel w.batch)

/-- The timeout `process_events_and_timer` passes to `kevent`. -/
def sleepFor (cfg : LoopConfig) (fuel : Nat) : LoopM ν (BitVec 32) :=
  if cfg.timerResolution ≠ 0 then pure 4294967295 else inLoop (eventFindTimer fuel)

/-- `process_events_and_timer` -/
def processEventsAndTimer (cfg : LoopConfig) (fuel : Nat) (kevent : BitVec 32 → Wakeup ν) : LoopM ν Unit := do
  let timer ← sleepFor cfg fuel
  let before := (← get).timers.currentMsec
  let w := kevent timer
  kqueueProcessEvents fuel (decide (cfg.timerResolution = 0)) w
  let delta := (← get).timers.currentMsec - before
  if delta ≠ 0 then
    inLoop (eventExpireTimersWith w.handlers fuel)

/-! ## the kernel -/

/-- A handler sets no timer longer than that. -/
def HandlerOp.Within (maxTimer : Nat) : HandlerOp ν → Prop
  | .add _ timer => timer.toNat ≤ maxTimer
  | .del _ => True

/-- A handler sets no timer. -/
def HandlerOp.Dels : HandlerOp ν → Prop
  | .add _ _ => False
  | .del _ => True

/-- What `kevent` may return in a state: it returns when the timeout is over, or
with a `timer_resolution` by the next `SIGALRM`, one of which comes in every period;
no handler sets a timer before `current_msec` was first set; and the clock does not
wrap around. -/
structure KeventAllows (cfg : LoopConfig) (s : EventLoop ν) (timer : BitVec 32) (w : Wakeup ν) : Prop where
  later : s.time ≤ w.time
  timeout : cfg.timerResolution = 0 → timer ≠ 4294967295 → w.time ≤ s.time + timer.toNat + cfg.latency
  signal : cfg.timerResolution ≠ 0 → w.time ≤ s.time + cfg.timerResolution + cfg.latency
  alarm : cfg.timerResolution ≠ 0 → w.alarm = false →
    w.time / cfg.timerResolution = s.time / cfg.timerResolution
  batch : ∀ op ∈ w.batch, op.Within cfg.maxTimer
  unset : cfg.timerResolution ≠ 0 → s.updated = false → w.alarm = false → ∀ op ∈ w.batch, op.Dels
  handlers : ∀ ev t, ∀ op ∈ w.handlers ev t, op.Within cfg.maxTimer
  clock : w.time + cfg.maxTimer < 4294967296

theorem toInt_cases (x : BitVec 32) :
    x.toNat < 2147483648 ∧ x.toInt = x.toNat ∨ 2147483648 ≤ x.toNat ∧ x.toInt = x.toNat - 4294967296 := by
  have hcond := BitVec.toInt_eq_toNat_cond x
  split at hcond <;> omega

theorem toNat_ofNat_sub {k : Nat} (now : BitVec 32) (hk : k < 4294967296) :
    (BitVec.ofNat 32 k - now).toNat = (4294967296 - now.toNat + k) % 4294967296 := by
  rw [BitVec.toNat_sub, BitVec.toNat_ofNat, Nat.mod_eq_of_lt hk]

/-- The difference of two keys that are near has the sign of their order. -/
theorem isExpired_iff {k : Nat} {now : BitVec 32} (hk : k < 4294967296) (hlate : now.toNat < k + 2147483648)
    (hsoon : k < now.toNat + 2147483648) : isExpired (BitVec.ofNat 32 k) now = true ↔ k < now.toNat := by
  have hnow := now.isLt
  have hsub := toNat_ofNat_sub now hk
  obtain ⟨hrange, hint⟩ | ⟨hrange, hint⟩ := toInt_cases (BitVec.ofNat 32 k - now)
  all_goals
    rw [isExpired, hint, hsub, decide_eq_true_eq]
    omega

namespace TimerQueue

variable {q q' : TimerQueue ν} {late soon : Nat}

/-- The deadlines are not long over, and not far away. -/
structure Near (q : TimerQueue ν) (late soon : Nat) : Prop where
  fits : q.currentMsec.toNat + soon < 4294967296
  late : ∀ e ∈ q.agenda.entries, q.currentMsec.toNat ≤ e.1 + late
  soon : ∀ e ∈ q.agenda.entries, e.1 ≤ q.currentMsec.toNat + soon

omit [DecidableEq ν] in
theorem Near.mono {late' : Nat} (h : q.Near late soon) (hle : late ≤ late') : q.Near late' soon :=
  ⟨h.fits, fun e he => (h.late e he).trans (Nat.add_le_add_left hle e.1), h.soon⟩

theorem Near.set {ev : ν} {timer : BitVec 32} (h : q.Near late soon) (htimer : timer.toNat ≤ soon) :
    (q.set ev (q.currentMsec + timer)).Near late soon := by
  have hkey : (q.currentMsec + timer).toNat = q.currentMsec.toNat + timer.toNat := by
    rw [BitVec.toNat_add, Nat.mod_eq_of_lt]
    have := h.fits
    omega
  refine ⟨h.fits, fun e he => ?_, fun e he => ?_⟩
  · obtain rfl | ⟨he, -⟩ := (Agenda.mem_insert _).mp he
    · change q.currentMsec.toNat ≤ (q.currentMsec + timer).toNat + late
      omega
    · exact h.late e he
  · obtain rfl | ⟨he, -⟩ := (Agenda.mem_insert _).mp he
    · change (q.currentMsec + timer).toNat ≤ q.currentMsec.toNat + soon
      omega
    · exact h.soon e he

theorem Near.addTimer {ev : ν} {timer : BitVec 32} (h : q.Near late soon) (htimer : timer.toNat ≤ soon) :
    (q.addTimer ev timer).Near late soon := by
  unfold TimerQueue.addTimer
  dsimp only
  split
  · split
    · exact h
    · exact h.set htimer
  · exact h.set htimer

theorem Near.delTimer (h : q.Near late soon) (ev : ν) : (q.delTimer ev).Near late soon :=
  ⟨h.fits, fun e he => h.late e ((Agenda.mem_erase _).mp he).1, fun e he => h.soon e ((Agenda.mem_erase _).mp he).1⟩

theorem addTimer_currentMsec (q : TimerQueue ν) (ev : ν) (timer : BitVec 32) :
    (q.addTimer ev timer).currentMsec = q.currentMsec := by
  unfold TimerQueue.addTimer
  dsimp only
  split
  · split <;> rfl
  · rfl

theorem runHandler_currentMsec (ops : List (HandlerOp ν)) (q : TimerQueue ν) :
    (runHandler ops q).currentMsec = q.currentMsec := by
  induction ops generalizing q with
  | nil => rfl
  | cons op ops ih =>
      cases op with
      | add ev timer => rw [runHandler, ih, addTimer_currentMsec]
      | del ev => exact ih _

theorem Near.runHandler {ops : List (HandlerOp ν)} (h : q.Near late soon) (hops : ∀ op ∈ ops, op.Within soon) :
    (TimerQueue.runHandler ops q).Near late soon := by
  induction ops generalizing q with
  | nil => exact h
  | cons op ops ih =>
      obtain ⟨hop, hrest⟩ := List.forall_mem_cons.mp hops
      cases op with
      | add ev timer => exact ih (h.addTimer hop) hrest
      | del ev => exact ih (h.delTimer ev) hrest

omit [DecidableEq ν] in
theorem Near.isExpired_iff {e : Nat × ν} (h : q.Near late soon) (hlate : late < 2147483648) (hsoon : soon < 2147483648)
    (he : e ∈ q.agenda.entries) :
    isExpired (BitVec.ofNat 32 e.1) q.currentMsec = true ↔ e.1 < q.currentMsec.toNat := by
  have hfits := h.fits
  have hlo := h.late e he
  have hhi := h.soon e he
  exact PWebServer.isExpired_iff (by omega) (by omega) (by omega)

theorem expireFirst_eq_some {ev : ν} (h : q.expireFirst = some (ev, q')) :
    ∃ k, (k, ev) ∈ q.agenda.entries.head? ∧ isExpired (BitVec.ofNat 32 k) q.currentMsec = true ∧
      q' = { q with
        agenda := q.agenda.pop
        expired := Function.update q.expired ev true
        called := q.called ++ [ev] } := by
  unfold expireFirst at h
  split at h
  next => cases h
  next e hfirst =>
    split at h
    next hdue =>
      cases h
      exact ⟨e.1, hfirst, hdue, rfl⟩
    next => cases h

theorem Near.expireFirst {ev : ν} (h : q.Near late soon) (hfirst : q.expireFirst = some (ev, q')) :
    q'.Near late soon := by
  obtain ⟨k, -, -, rfl⟩ := expireFirst_eq_some hfirst
  exact ⟨h.fits, fun e he => h.late e (List.mem_of_mem_tail he), fun e he => h.soon e (List.mem_of_mem_tail he)⟩

/-- When nothing is left to expire, no deadline is over. -/
theorem Near.on_time (h : q.Near late soon) (hlate : late < 2147483648) (hsoon : soon < 2147483648)
    (hnone : q.expireFirst = none) : q.Near 0 soon := by
  refine ⟨h.fits, fun e he => ?_, h.soon⟩
  unfold TimerQueue.expireFirst at hnone
  split at hnone
  next hempty =>
    rw [List.head?_eq_none_iff.mp hempty] at he
    exact absurd he List.not_mem_nil
  next e' hfirst =>
    split at hnone
    next => cases hnone
    next hdue =>
      have hle := Agenda.first_le hfirst he
      have hnot := mt (h.isExpired_iff hlate hsoon (List.mem_of_mem_head? hfirst)).mpr hdue
      omega

/-- `event_expire_timers` leaves nothing to expire. -/
theorem expireTimers_done {scripts : List (List (HandlerOp ν))} (h : q.expireTimers scripts = some q') :
    q'.expireFirst = none := by
  induction scripts generalizing q with
  | nil =>
      rw [expireTimers] at h
      split at h
      next hnone =>
        cases h
        exact Option.isNone_iff_eq_none.mp hnone
      next => cases h
  | cons ops rest ih =>
      obtain ⟨⟨ev, q₁⟩, -, hrest⟩ := Option.bind_eq_some_iff.mp h
      exact ih hrest

omit [DecidableEq ν] in
/-- The loop does not sleep past the first deadline. -/
theorem Near.findTimer_le {e : Nat × ν} (h : q.Near 0 soon) (hsoon : soon < 2147483648) (he : e ∈ q.agenda.entries) :
    q.findTimer ≠ 4294967295 ∧ q.currentMsec.toNat + q.findTimer.toNat ≤ e.1 := by
  cases hfirst : q.agenda.entries.head? with
  | none =>
      rw [List.head?_eq_none_iff.mp hfirst] at he
      exact absurd he List.not_mem_nil
  | some e' =>
      have hmem : e' ∈ q.agenda.entries := List.mem_of_mem_head? hfirst
      have hle := Agenda.first_le hfirst he
      have hfits := h.fits
      have hlo := h.late e' hmem
      have hhi := h.soon e' hmem
      have hsub := toNat_ofNat_sub (k := e'.1) q.currentMsec (by omega)
      have hfind : q.findTimer.toNat = e'.1 - q.currentMsec.toNat := by
        rw [findTimer, hfirst]
        dsimp only
        have hzero : (0 : BitVec 32).toNat = 0 := rfl
        obtain ⟨hrange, hint⟩ | ⟨hrange, hint⟩ := toInt_cases (BitVec.ofNat 32 e'.1 - q.currentMsec)
        all_goals
          rw [hint]
          split <;> omega
      refine ⟨fun heq => ?_, by omega⟩
      rw [heq] at hfind
      have hlast : (4294967295 : BitVec 32).toNat = 4294967295 := by decide
      omega

/-- `time_update`, if it is called, and the handlers of the batch. -/
def woken (update : Bool) (w : Wakeup ν) (q : TimerQueue ν) : TimerQueue ν :=
  let q := if update then { q with currentMsec := BitVec.ofNat 32 w.time } else q
  if w.interrupted then q else runHandler w.batch q

omit [DecidableEq ν] in
/-- The clock goes on, and nothing else has happened to the timers. -/
theorem Near.tick {time : Nat} (h : q.Near 0 soon) (hclock : time + soon < 4294967296)
    (hlater : q.currentMsec.toNat ≤ time) (hlate : ∀ e ∈ q.agenda.entries, time ≤ e.1 + late) :
    Near { q with currentMsec := BitVec.ofNat 32 time } late soon := by
  have htime : (BitVec.ofNat 32 time).toNat = time := by
    rw [BitVec.toNat_ofNat, Nat.mod_eq_of_lt]
    omega
  refine ⟨?_, fun e he => ?_, fun e he => ?_⟩
  · change (BitVec.ofNat 32 time).toNat + soon < 4294967296
    omega
  · change (BitVec.ofNat 32 time).toNat ≤ e.1 + late
    have := hlate e he
    omega
  · change e.1 ≤ (BitVec.ofNat 32 time).toNat + soon
    have := h.soon e he
    omega

theorem Near.ops {w : Wakeup ν} (h : q.Near late soon) (hbatch : ∀ op ∈ w.batch, op.Within soon) :
    Near (if w.interrupted then q else TimerQueue.runHandler w.batch q) late soon := by
  split
  · exact h
  · exact h.runHandler hbatch

/-- Handlers that set no timer leave an empty queue empty. -/
theorem runHandler_empty {ops : List (HandlerOp ν)} (h : q.agenda.entries = []) (hops : ∀ op ∈ ops, op.Dels) :
    (runHandler ops q).agenda.entries = [] := by
  induction ops generalizing q with
  | nil => exact h
  | cons op ops ih =>
      obtain ⟨hop, hrest⟩ := List.forall_mem_cons.mp hops
      cases op with
      | add ev timer => exact hop.elim
      | del ev =>
          refine ih (List.filter_eq_nil_iff.mpr fun e he => ?_) hrest
          rw [h] at he
          exact absurd he List.not_mem_nil

theorem woken_empty {w : Wakeup ν} (h : q.agenda.entries = []) (hbatch : ∀ op ∈ w.batch, op.Dels) :
    (q.woken false w).agenda.entries = [] := by
  unfold woken
  dsimp only
  split
  · exact h
  · exact runHandler_empty h hbatch

theorem woken_currentMsec (update : Bool) (w : Wakeup ν) (q : TimerQueue ν) :
    (q.woken update w).currentMsec = if update then BitVec.ofNat 32 w.time else q.currentMsec := by
  unfold woken
  dsimp only
  split
  · split <;> rfl
  · rw [runHandler_currentMsec]
    split <;> rfl

end TimerQueue

/-! ## running the loop -/

section Loop

variable {cfg : LoopConfig} {s s' : EventLoop ν} {T T' : BinTree ν} {q q' : TimerQueue ν} {fuel : Nat}
  {timer : BitVec 32} {w : Wakeup ν}

omit [DecidableEq ν] in
theorem ensures_inLoop {α : Type} {m : TimerM ν α} {Q : α → EventLoop ν → Prop}
    (h : Ensures m s.timers fun a t => Q a { s with timers := t }) : Ensures (inLoop m) s Q := by
  intro a s' hm
  cases hrun : m s.timers with
  | error err => simp [inLoop, hrun, bind, Except.bind] at hm
  | ok r =>
      simp only [inLoop, hrun, bind, Except.bind, pure, Except.pure, Except.ok.injEq, Prod.mk.injEq] at hm
      obtain ⟨rfl, rfl⟩ := hm
      exact h _ _ hrun

theorem eventFindTimer_extends {fuel fuel' : Nat} (hle : fuel ≤ fuel') :
    Extends (eventFindTimer (ν := ν) fuel) (eventFindTimer fuel') :=
  (Extends.refl _).bind fun root => .ite (.refl _) <|
    (onTree_extends (loop_extends hle root)).bind fun _ => .refl _

theorem sleepFor_shows (h : Shows s.timers T q) :
    Ensures (sleepFor cfg fuel) s fun timer s' =>
      s' = s ∧ (cfg.timerResolution = 0 → timer = q.findTimer) := by
  unfold sleepFor
  split
  next hres => exact .pure ⟨rfl, fun hzero => absurd hzero hres⟩
  next =>
    refine ensures_inLoop (((eventFindTimer_shows h (by omega : T.toList.length < max fuel (T.toList.length + 1))).ensures
      (eventFindTimer_extends (Nat.le_max_left _ _))).imp ?_)
    rintro timer t ⟨rfl, rfl⟩
    exact ⟨rfl, fun _ => rfl⟩

omit [DecidableEq ν] in
theorem Shows.timeUpdate [DecidableEq ν] {t : Timers ν} (h : Shows t T q) (now : BitVec 32) :
    Shows { t with currentMsec := now } T { q with currentMsec := now } :=
  ⟨⟨h.kept.tree, h.kept.set, h.kept.rest⟩, h.entries, h.expired, rfl, h.called⟩

/-- `kqueue_process_events` -/
theorem kqueueProcessEvents_shows (h : Shows s.timers T q) (flags : Bool) :
    Ensures (kqueueProcessEvents fuel flags w) s fun _ s' =>
      s'.time = w.time ∧ s'.updated = (s.updated || (flags || (s.alarm || w.alarm))) ∧
        ∃ T', Shows s'.timers T' (q.woken (flags || (s.alarm || w.alarm)) w) := by
  refine Ensures.of_runs ?_
  rw [runs_modify]
  refine Ensures.of_runs ?_
  rw [runs_get]
  have hrest : ∀ (s₁ : EventLoop ν) q₁ updated, s₁.time = w.time → s₁.updated = updated → Shows s₁.timers T q₁ →
      Ensures (if w.interrupted then
          if (s.wake w).alarm then modify fun s => { s with alarm := false } else pure ()
        else inLoop (runHandler fuel w.batch) : LoopM ν Unit) s₁ fun _ s' =>
          s'.time = w.time ∧ s'.updated = updated ∧
            ∃ T', Shows s'.timers T' (if w.interrupted then q₁ else TimerQueue.runHandler w.batch q₁) := by
    intro s₁ q₁ updated htime hupdated h₁
    by_cases hint : w.interrupted = true
    · rw [if_pos hint, if_pos hint]
      by_cases halarm : (s.wake w).alarm = true
      · rw [if_pos halarm]
        rintro _ _ ⟨⟩
        exact ⟨htime, hupdated, T, h₁⟩
      · rw [if_neg halarm]
        exact .pure ⟨htime, hupdated, T, h₁⟩
    · rw [if_neg hint, if_neg hint]
      exact ensures_inLoop ((runHandler_shows h₁ w.batch).imp fun _ _ hran => ⟨htime, hupdated, hran⟩)
  by_cases hupdate : (flags || (s.alarm || w.alarm)) = true
  · have hif : (flags || (s.wake w).alarm) = true := hupdate
    rw [if_pos hif, TimerQueue.woken, if_pos hupdate, hupdate, Bool.or_true]
    refine Ensures.of_runs ?_
    rw [runs_modify]
    exact hrest (s.wake w).timeUpdate _ true rfl rfl (h.timeUpdate _)
  · have hif : ¬(flags || (s.wake w).alarm) = true := hupdate
    rw [if_neg hif, TimerQueue.woken, if_neg hupdate, eq_false_of_ne_true hupdate, Bool.or_false]
    exact hrest (s.wake w) q s.updated rfl rfl h

/-- How late a handler may be called. -/
def LoopConfig.late (cfg : LoopConfig) : Nat := 2 * cfg.timerResolution + cfg.latency

/-- What holds whenever the loop begins anew: no deadline is over, there is none
before `current_msec` was first set, and then it is the time, or of the same period
of `timer_resolution`. -/
structure LoopKept (cfg : LoopConfig) (s : EventLoop ν) (T : BinTree ν) (q : TimerQueue ν) : Prop where
  shows : Shows s.timers T q
  near : q.Near 0 cfg.maxTimer
  clock : q.currentMsec.toNat ≤ s.time
  unset : s.updated = false → q.agenda.entries = []
  exact : s.updated = true → cfg.timerResolution = 0 → q.currentMsec.toNat = s.time
  period : s.updated = true → cfg.timerResolution ≠ 0 → q.currentMsec.toNat / cfg.timerResolution = s.time / cfg.timerResolution

omit [DecidableEq ν] in
/-- Two times of the same period are less than the period apart. -/
theorem lt_add_of_div_eq {a b n : Nat} (hn : n ≠ 0) (h : a / n = b / n) : b < a + n := by
  have hb : b < n * (b / n + 1) := Nat.lt_mul_div_succ b (Nat.pos_of_ne_zero hn)
  have ha : n * (a / n) ≤ a := Nat.mul_div_le a n
  rw [← h, Nat.mul_succ] at hb
  omega

omit [DecidableEq ν] in
theorem LoopKept.wake_le (h : LoopKept cfg s T q) (hallows : KeventAllows cfg s timer w)
    (htimer : cfg.timerResolution = 0 → timer = q.findTimer) {e : Nat × ν} (he : e ∈ q.agenda.entries) :
    w.time ≤ e.1 + cfg.late := by
  have hnow := h.near.late e he
  have hupdated : s.updated = true := by
    refine eq_true_of_ne_false fun hnot => ?_
    rw [h.unset hnot] at he
    exact absurd he List.not_mem_nil
  rw [LoopConfig.late]
  by_cases hres : cfg.timerResolution = 0
  · obtain ⟨hne, hle⟩ := h.near.findTimer_le cfg.timerFits he
    rw [← htimer hres] at hne hle
    have hout := hallows.timeout hres hne
    have hexact := h.exact hupdated hres
    omega
  · have hsignal := hallows.signal hres
    have hperiod := lt_add_of_div_eq hres (h.period hupdated hres)
    omega

/-- The timers expire, and what was over before is over no more. -/
theorem expire_on_time {handlers : Handlers ν} {late : Nat} {t : Timers ν} (h : Shows t T q)
    (hnear : q.Near late cfg.maxTimer) (hlate : late < 2147483648)
    (hhandlers : ∀ ev t, ∀ op ∈ handlers ev t, op.Within cfg.maxTimer) :
    Ensures (eventExpireTimersWith handlers fuel) t fun _ t' =>
      ∃ T' q', Shows t' T' q' ∧ q'.Near 0 cfg.maxTimer ∧ q'.currentMsec = q.currentMsec := by
  have hturn : ∀ (q₁ : TimerQueue ν) ev q₂ ops, (q₁.Near late cfg.maxTimer ∧ q₁.currentMsec = q.currentMsec) →
      q₁.expireFirst = some (ev, q₂) → (∃ s T, Shows s T q₂ ∧ ops = handlers ev s) →
      (TimerQueue.runHandler ops q₂).Near late cfg.maxTimer ∧
        (TimerQueue.runHandler ops q₂).currentMsec = q.currentMsec := by
    rintro q₁ ev q₂ ops ⟨hnear₁, hnow⟩ hfirst ⟨t₂, T₂, -, rfl⟩
    refine ⟨(hnear₁.expireFirst hfirst).runHandler (hhandlers ev t₂), ?_⟩
    obtain ⟨k, -, -, rfl⟩ := TimerQueue.expireFirst_eq_some hfirst
    rw [TimerQueue.runHandler_currentMsec]
    exact hnow
  refine (eventExpireTimersWith_shows hturn h ⟨hnear, rfl⟩).imp ?_
  rintro _ t' ⟨T', q', calls, -, h', ⟨hnear', hnow'⟩, hdone⟩
  exact ⟨T', q', h', hnear'.on_time hlate cfg.timerFits (TimerQueue.expireTimers_done hdone), hnow'⟩

/-- One turn of the loop. -/
theorem LoopKept.turn {kevent : BitVec 32 → Wakeup ν} (h : LoopKept cfg s T q)
    (hallows : ∀ timer, KeventAllows cfg s timer (kevent timer)) :
    Ensures (processEventsAndTimer cfg fuel kevent) s fun _ s' => ∃ T' q', LoopKept cfg s' T' q' := by
  refine (sleepFor_shows h.shows).bind fun timer s₀ hsleep => ?_
  obtain ⟨rfl, htimer⟩ := hsleep
  have hallow := hallows timer
  have hlate : cfg.late < 2147483648 := cfg.lateFits
  have hclock := hallow.clock
  refine Ensures.of_runs ?_
  rw [runs_get]
  refine (kqueueProcessEvents_shows h.shows (decide (cfg.timerResolution = 0))).bind fun _ s₁ hevents => ?_
  obtain ⟨htime, hupdated, T₁, h₁⟩ := hevents
  refine Ensures.of_runs ?_
  rw [runs_get]
  -- without a new time nothing has to expire
  have hsame : ∀ q₁, Shows s₁.timers T₁ q₁ → q₁.Near 0 cfg.maxTimer → q₁.currentMsec = s₀.timers.currentMsec →
      (s₁.updated = false → q₁.agenda.entries = []) →
      (s₁.updated = true → cfg.timerResolution = 0 → q₁.currentMsec.toNat = s₁.time) →
      (s₁.updated = true → cfg.timerResolution ≠ 0 → q₁.currentMsec.toNat / cfg.timerResolution = s₁.time / cfg.timerResolution) →
      Ensures (if s₁.timers.currentMsec - s₀.timers.currentMsec ≠ 0 then
          inLoop (eventExpireTimersWith (kevent timer).handlers fuel) else pure () : LoopM ν Unit) s₁
        fun _ s' => ∃ T' q', LoopKept cfg s' T' q' := by
    intro q₁ hshows hnear hnow hunset hexact hperiod
    have hdelta : ¬s₁.timers.currentMsec - s₀.timers.currentMsec ≠ 0 := by
      rw [not_not, ← hshows.currentMsec, hnow, BitVec.sub_self]
      rfl
    rw [if_neg hdelta]
    refine .pure ⟨T₁, q₁, hshows, hnear, ?_, hunset, hexact, hperiod⟩
    rw [hnow, ← h.shows.currentMsec, htime]
    exact h.clock.trans hallow.later
  have hnow₁ := TimerQueue.woken_currentMsec
    (decide (cfg.timerResolution = 0) || (s₀.alarm || (kevent timer).alarm)) (kevent timer) q
  cases hupdate : decide (cfg.timerResolution = 0) || (s₀.alarm || (kevent timer).alarm) with
  | false =>
      rw [hupdate] at h₁ hnow₁ hupdated
      rw [Bool.or_false] at hupdated
      simp only [Bool.or_eq_false_iff, decide_eq_false_iff_not] at hupdate
      refine hsame _ h₁ (h.near.ops hallow.batch) (hnow₁.trans h.shows.currentMsec) (fun hnot => ?_)
        (fun _ hzero => absurd hzero hupdate.1) fun hset hres => ?_
      · rw [hupdated] at hnot
        exact TimerQueue.woken_empty (h.unset hnot) (hallow.unset hupdate.1 hnot hupdate.2.2)
      · rw [hnow₁, htime, hallow.alarm hres hupdate.2.2]
        exact h.period (hupdated ▸ hset) hres
  | true =>
      rw [hupdate] at h₁ hnow₁ hupdated
      rw [Bool.or_true] at hupdated
      have hnot : s₁.updated ≠ false := by simp [hupdated]
      have hnow : (BitVec.ofNat 32 (kevent timer).time).toNat = s₁.time := by
        rw [BitVec.toNat_ofNat, Nat.mod_eq_of_lt (by omega), htime]
      have hpast : q.currentMsec.toNat ≤ (kevent timer).time := h.clock.trans hallow.later
      have htick := h.near.tick hclock hpast fun e he => h.wake_le hallow htimer he
      have hnear : (q.woken true (kevent timer)).Near cfg.late cfg.maxTimer := htick.ops hallow.batch
      have hnow₂ : (q.woken true (kevent timer)).currentMsec.toNat = s₁.time := by
        rw [hnow₁]
        exact hnow
      by_cases hdelta : s₁.timers.currentMsec - s₀.timers.currentMsec ≠ 0
      · rw [if_pos hdelta]
        refine ensures_inLoop ((expire_on_time h₁ hnear hlate hallow.handlers).imp ?_)
        rintro _ t' ⟨T', q', h', hnear', hnow'⟩
        have htime' : q'.currentMsec.toNat = s₁.time := by rw [hnow', hnow₂]
        exact ⟨T', q', h', hnear', le_of_eq htime', fun hunset => absurd hunset hnot, fun _ _ => htime',
          fun _ _ => by rw [htime']⟩
      · have heq : s₁.timers.currentMsec = s₀.timers.currentMsec := by
          rw [not_not] at hdelta
          bv_omega
        have hsince : (kevent timer).time = q.currentMsec.toNat := by
          rw [h.shows.currentMsec, ← heq, ← h₁.currentMsec, hnow₂, htime]
        have hquiet := (h.near.tick hclock hpast fun e he => hsince ▸ h.near.late e he : TimerQueue.Near _ 0 _)
        exact hsame _ h₁ (hquiet.ops hallow.batch) (h₁.currentMsec.trans heq) (fun hunset => absurd hunset hnot)
          (fun _ _ => hnow₂) fun _ _ => by rw [hnow₂]

end Loop

/-! ## main result -/

section

variable {cfg : LoopConfig} {s : EventLoop ν}

end

end PWebServer
