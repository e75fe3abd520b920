import PWebServer.Event.TimerRuns
import PWebServer.Http.ConnectionPool

/-!
# Http.ConnectionTimers

The timers of the connections.  The nodes of the timer tree lie in the two events
of each connection, so that the memory of the pool is part of the tree:
`getIdleConnection` zeroes it, and `http_close_connection` asks the flags of the
events whether there is a timer to be deleted before it gives the memory back.
-/

namespace PWebServer

open Program RedBlack LinkedList

/-- `rev` and `wev` -/
inductive EventKind where
  | rev
  | wev
  deriving DecidableEq, Repr

/-- An event of a connection. -/
abbrev EventOf := Slot × EventKind

/-- The connections and their events.  `active` and the timers are the fields of
the events; those of the same names in `pool` are not looked at. -/
structure ConnectionTimers where
  pool : ConnectionPool
  active : EventOf → Bool
  timers : Timers EventOf

/-- An event is zeroed. -/
def Timers.zero (t : Timers EventOf) (ev : EventOf) : Timers EventOf :=
  { t with
    tree := { t.tree with heap := Function.update t.tree.heap (.node ev) {} }
    timerSet := Function.update t.timerSet ev false
    timedout := Function.update t.timedout ev false }

/-- `event_del_timer`, if `timer_set` says that there is a timer. -/
def delIfSet (fuel : Nat) (ev : EventOf) : TimerM EventOf Unit := do
  if (← get).timerSet ev then
    eventDelTimer fuel ev

/-- `http_close_connection` on the timers of a connection. -/
def delTimers (fuel : Nat) (c : Slot) : TimerM EventOf Unit := do
  delIfSet fuel (c, .rev)
  delIfSet fuel (c, .wev)

/-! ## the timers -/

section Timers

variable {t : Timers EventOf} {T : BinTree EventOf} {fuel : Nat}

theorem TimersKept.zero {ev : EventOf} (h : TimersKept t T) (hev : ev ∉ T.toList) : TimersKept (t.zero ev) T where
  tree := h.tree.frame rfl (update_nodes hev) (by simp [Timers.zero]) (by simp [Timers.zero])
  set e he := by
    have hne : e ≠ ev := fun heq => hev (heq ▸ he)
    simpa [Timers.zero, hne] using h.set e he
  rest e he := by
    by_cases hne : e = ev
    · subst hne
      exact .inr (by simp [Timers.zero])
    · refine (h.rest e he).imp (fun hcleared => ?_) fun hzeroed => ?_
      · simpa [Cleared, Timers.zero, hne] using hcleared
      · simpa [Timers.zero, hne] using hzeroed

theorem delIfSet_ensures (h : TimersKept t T) (ev : EventOf) :
    Ensures (delIfSet fuel ev) t fun _ t' =>
      ∃ T', TimersKept t' T' ∧ ∀ e ∈ T'.toList, e ∈ T.toList ∧ e ≠ ev := by
  refine Ensures.of_runs ?_
  rw [runs_get]
  split
  next hset =>
    refine (eventDelTimer_ensures h).imp fun _ t' hdeleted => ?_
    obtain ⟨T', hdisarmed⟩ := hdeleted
    exact ⟨T', hdisarmed.kept, fun e => (hdisarmed.nodes e).mp⟩
  next hset =>
    refine .pure ⟨T, h, fun e he => ⟨he, fun heq => hset ?_⟩⟩
    rw [← heq]
    exact h.set e he

/-- Neither event of the connection has a timer afterwards. -/
theorem delTimers_ensures (h : TimersKept t T) (c : Slot) :
    Ensures (delTimers fuel c) t fun _ t' =>
      ∃ T', TimersKept t' T' ∧ ∀ e ∈ T'.toList, e ∈ T.toList ∧ e.1 ≠ c := by
  refine (delIfSet_ensures h (c, .rev)).bind fun _ t₁ hrev => ?_
  obtain ⟨T₁, h₁, hsub₁⟩ := hrev
  refine (delIfSet_ensures h₁ (c, .wev)).imp fun _ t' hwev => ?_
  obtain ⟨T', h', hsub'⟩ := hwev
  refine ⟨T', h', fun e he => ?_⟩
  have hnot := hsub' e he
  have hin := hsub₁ e hnot.1
  obtain ⟨d, kind⟩ := e
  refine ⟨hin.1, fun heq => ?_⟩
  cases heq
  cases kind with
  | rev => exact hin.2 rfl
  | wev => exact hnot.2 rfl

end Timers

namespace ConnectionTimers

variable (maxConnections : Int) (s : ConnectionTimers)

/-- A function of `timer_event.c`, for what it does to the timers. -/
def onTimers {α : Type} (m : TimerM EventOf α) : Option ConnectionTimers :=
  (m s.timers).toOption.map fun r => { s with timers := r.2 }

/-- Both events of a connection are zeroed. -/
def zero (c : Slot) : ConnectionTimers :=
  { s with
    active := Function.update (Function.update s.active (c, .rev) false) (c, .wev) false
    timers := (s.timers.zero (c, .rev)).zero (c, .wev) }

/-- `getIdleConnection` -/
def getIdleConnection (data : Nat) : Option (Option Slot × ConnectionTimers) := do
  let (c, pool) ← s.pool.getIdleConnection maxConnections data
  let s := { s with pool := pool }
  match c with
  | some c => pure (some c, s.zero c)
  | none => pure (none, s)

/-- `http_close_connection` -/
def httpCloseConnection (fuel : Nat) (c : Slot) : Option ConnectionTimers :=
  if s.pool.released c then some s
  else do
    let s ← s.onTimers (delTimers fuel c)
    pure { s with
      pool := s.pool.httpCloseConnection c
      active := Function.update (Function.update s.active (c, .rev) false) (c, .wev) false }

/-- The connection is closed if the pointer is not null. -/
def closeIf (fuel : Nat) (c : Option Slot) : Option ConnectionTimers :=
  match c with
  | some c => s.httpCloseConnection fuel c
  | none => some s

/-- `http_close_request` -/
def httpCloseRequest (fuel : Nat) (r : Nat) : Option ConnectionTimers := do
  let s ← s.closeIf fuel (s.pool.request r).connection
  s.closeIf fuel (s.pool.request r).upstream

/-- `http_clear_request` -/
def httpClearRequest (fuel : Nat) (r : Nat) : Option ConnectionTimers := do
  let c ← (s.pool.request r).connection
  let s ← s.closeIf fuel (s.pool.request r).upstream
  let pool := s.pool.onRequest r fun _ => { createHttpRequest with connection := some c }
  pure { s with pool := pool.onConn c fun con => { con with isIdle := true } }

/-- `kqueue_add_event` -/
def addEvent (ev : EventOf) : ConnectionTimers :=
  if s.active ev then s else { s with active := Function.update s.active ev true }

/-- `kqueue_del_event` -/
def delEvent (fuel : Nat) (ev : EventOf) : Option ConnectionTimers :=
  if s.active ev then
    { s with active := Function.update s.active ev false }.onTimers (delIfSet fuel ev)
  else some s

/-! ## runs -/

/-- What is done with connections and with their timers.  `expireFirst` is one turn
of `event_expire_timers`; what the handler of the event does then are operations of
their own. -/
inductive Op where
  | conn (fuel : Nat) (op : ConnectionPool.Op)
  | addEvent (ev : EventOf)
  | delEvent (fuel : Nat) (ev : EventOf)
  | addTimer (fuel : Nat) (ev : EventOf) (timer : BitVec 32)
  | delTimer (fuel : Nat) (ev : EventOf)
  | expireFirst (fuel : Nat)
  | timeUpdate (currentMsec : BitVec 32)

variable {s}

/-- The events are those of connections that are handed out. -/
def Allows (s : ConnectionTimers) : Op → Prop
  | .conn _ op => s.pool.Allows op
  | .addEvent ev => ev.1 ∈ s.pool.out
  | .delEvent _ ev => ev.1 ∈ s.pool.out
  | .addTimer _ ev _ => ev.1 ∈ s.pool.out
  | .delTimer _ ev => ev.1 ∈ s.pool.out
  | .expireFirst _ => True
  | .timeUpdate _ => True

/-- What is done with connections. -/
def connStep (s : ConnectionTimers) (fuel : Nat) : ConnectionPool.Op → Option ConnectionTimers
  | .getIdle data => (s.getIdleConnection maxConnections data).map (·.2)
  | .close c => s.httpCloseConnection fuel c
  | .closeRequest r => s.httpCloseRequest fuel r
  | .clearRequest r => s.httpClearRequest fuel r
  | op => (s.pool.step maxConnections op).map fun pool => { s with pool := pool }

/-- One operation. -/
def step (s : ConnectionTimers) : Op → Option ConnectionTimers
  | .conn fuel op => s.connStep maxConnections fuel op
  | .addEvent ev => some (s.addEvent ev)
  | .delEvent fuel ev => s.delEvent fuel ev
  | .addTimer fuel ev timer => s.onTimers (eventAddTimer fuel ev timer)
  | .delTimer fuel ev => s.onTimers (eventDelTimer fuel ev)
  | .expireFirst fuel => s.onTimers (PWebServer.expireFirst fuel)
  | .timeUpdate now => some { s with timers := { s.timers with currentMsec := now } }

/-- The worker has started: no connection was handed out and no timer is set. -/
structure Init (s : ConnectionTimers) : Prop where
  pool : connectionPoolInit = some s.pool
  timers : s.timers.Fresh

/-- The connections with their timers, in any order of the operations. -/
def machine (maxConnections : Int) : Machine ConnectionTimers Op where
  init := Init
  allows := Allows
  step := step maxConnections

/-! ## what the operations keep -/

/-- The timers in the tree are those of connections that are handed out. -/
structure Kept (s : ConnectionTimers) (T : BinTree EventOf) : Prop where
  pool : s.pool.Kept
  timers : TimersKept s.timers T
  out : ∀ ev ∈ T.toList, ev.1 ∈ s.pool.out

variable {s' : ConnectionTimers} {T T' : BinTree EventOf} {c : Slot} {ev : EventOf} {fuel data : Nat}
  {maxConnections : Int}

/-- What `onTimers` does is what the function ensures. -/
theorem onTimers_ensures {α : Type} {m : TimerM EventOf α} {Q : α → Timers EventOf → Prop} (h : Ensures m s.timers Q)
    (hm : s.onTimers m = some s') : ∃ a t, Q a t ∧ s' = { s with timers := t } := by
  obtain ⟨⟨a, t⟩, hrun, rfl⟩ := Option.map_eq_some_iff.mp hm
  refine ⟨a, t, h a t ?_, rfl⟩
  cases hresult : m s.timers with
  | error err => simp [hresult, Except.toOption] at hrun
  | ok r =>
      rw [hresult] at hrun
      cases hrun
      rfl

namespace Kept

/-- The connections are changed, but not which of them are handed out. -/
theorem congr (h : s.Kept T) (hpool : s'.pool.Kept) (hout : s'.pool.out = s.pool.out) (htimers : s'.timers = s.timers) :
    s'.Kept T where
  pool := hpool
  timers := htimers ▸ h.timers
  out ev hev := hout ▸ h.out ev hev

/-- The nodes of a connection that is not handed out are not in the tree. -/
theorem notMem (h : s.Kept T) (hc : c ∉ s.pool.out) (kind : EventKind) : (c, kind) ∉ T.toList :=
  fun hmem => hc (h.out _ hmem)

theorem getIdle {c : Option Slot} (h : s.Kept T) (hfresh : s.pool.Fresh data)
    (hget : s.getIdleConnection maxConnections data = some (c, s')) : s'.Kept T := by
  obtain ⟨⟨d, pool⟩, hpool, hrest⟩ := Option.bind_eq_some_iff.mp hget
  cases d with
  | none =>
      cases hrest
      exact ConnectionPool.getIdleConnection_none hpool ▸ h
  | some d =>
      cases hrest
      obtain ⟨hkept, hnew⟩ := h.pool.getIdle hfresh hpool
      obtain ⟨hd, hout, -⟩ := hnew d rfl
      refine ⟨hkept, (h.timers.zero (h.notMem hd .rev)).zero (h.notMem hd .wev), fun ev hev => ?_⟩
      exact hout ▸ List.mem_cons_of_mem d (h.out ev hev)

theorem close (h : s.Kept T) (hclose : s.httpCloseConnection fuel c = some s') : ∃ T', s'.Kept T' := by
  unfold httpCloseConnection at hclose
  split at hclose
  next hreleased =>
    cases hclose
    exact ⟨T, h⟩
  next hreleased =>
    obtain ⟨s₁, hdeleted, hrest⟩ := Option.bind_eq_some_iff.mp hclose
    cases hrest
    obtain ⟨_, t, ⟨T', hkept, hsub⟩, rfl⟩ := onTimers_ensures (delTimers_ensures h.timers c) hdeleted
    refine ⟨T', h.pool.close, hkept, fun ev hev => ?_⟩
    obtain ⟨hmem, hne⟩ := hsub ev hev
    rw [ConnectionPool.httpCloseConnection_out (Bool.eq_false_iff.mpr hreleased)]
    exact (List.mem_erase_of_ne hne).mpr (h.out ev hmem)

theorem closeIf {c : Option Slot} (h : s.Kept T) (hclose : s.closeIf fuel c = some s') : ∃ T', s'.Kept T' := by
  cases c with
  | none =>
      cases hclose
      exact ⟨T, h⟩
  | some c => exact h.close hclose

theorem closeRequest {r : Nat} (h : s.Kept T) (hclose : s.httpCloseRequest fuel r = some s') : ∃ T', s'.Kept T' := by
  obtain ⟨s₁, hconnection, hupstream⟩ := Option.bind_eq_some_iff.mp hclose
  obtain ⟨T₁, h₁⟩ := h.closeIf hconnection
  exact h₁.closeIf hupstream

theorem clearRequest {r : Nat} (h : s.Kept T) (hclear : s.httpClearRequest fuel r = some s') : ∃ T', s'.Kept T' := by
  obtain ⟨c, -, hrest⟩ := Option.bind_eq_some_iff.mp hclear
  obtain ⟨s₁, hupstream, hrest⟩ := Option.bind_eq_some_iff.mp hrest
  cases hrest
  obtain ⟨T₁, h₁⟩ := h.closeIf hupstream
  exact ⟨T₁, h₁.congr (ConnectionPool.Kept.onConn_of_released (f := fun con => { con with isIdle := true })
    h₁.pool.onRequest rfl rfl) rfl rfl⟩

/-- What the holder of a connection does with its fields. -/
theorem poolStep (maxConnections : Int) {op : ConnectionPool.Op} (h : s.Kept T) (hallows : s.pool.Allows op)
    (hout : ∀ p, s.pool.step maxConnections op = some p → p.out = s.pool.out)
    (hstep : (s.pool.step maxConnections op).map (fun pool => { s with pool := pool }) = some s') : ∃ T', s'.Kept T' := by
  obtain ⟨p, hp, rfl⟩ := Option.map_eq_some_iff.mp hstep
  exact ⟨T, h.congr (h.pool.step hallows hp) (hout p hp) rfl⟩

theorem connStep {op : ConnectionPool.Op} (h : s.Kept T) (hallows : s.pool.Allows op)
    (hstep : s.connStep maxConnections fuel op = some s') : ∃ T', s'.Kept T' := by
  cases op with
  | getIdle data =>
      obtain ⟨⟨c, s₁⟩, hget, rfl⟩ := Option.map_eq_some_iff.mp hstep
      exact ⟨T, h.getIdle hallows hget⟩
  | connected c fd => exact h.poolStep maxConnections hallows (fun p hp => by cases hp; rfl) hstep
  | initRequest c r => exact h.poolStep maxConnections hallows (fun p hp => by cases hp; rfl) hstep
  | openUpstream c r => exact h.poolStep maxConnections hallows (fun p hp => by cases hp; rfl) hstep
  | close c => exact h.close hstep
  | closeRequest r => exact h.closeRequest hstep
  | clearRequest r => exact h.clearRequest hstep

/-- A function that only takes timers out of the tree. -/
theorem onTimers {α : Type} {m : TimerM EventOf α} (h : s.Kept T)
    (hm : Ensures m s.timers fun _ t => ∃ T', TimersKept t T' ∧ ∀ e ∈ T'.toList, e.1 ∈ s.pool.out)
    (hstep : s.onTimers m = some s') : ∃ T', s'.Kept T' := by
  obtain ⟨_, t, ⟨T', hkept, hout⟩, rfl⟩ := onTimers_ensures hm hstep
  exact ⟨T', h.pool, hkept, hout⟩

theorem step {op : Op} (h : s.Kept T) (hallows : s.Allows op) (hstep : s.step maxConnections op = some s') :
    ∃ T', s'.Kept T' := by
  cases op with
  | conn fuel op => exact h.connStep hallows hstep
  | addEvent ev =>
      cases hstep
      refine ⟨T, h.congr ?_ ?_ ?_⟩ <;> unfold ConnectionTimers.addEvent <;> split
      · exact h.pool
      · exact h.pool
      all_goals rfl
  | delEvent fuel ev =>
      simp only [ConnectionTimers.step, ConnectionTimers.delEvent] at hstep
      split at hstep
      · have hinactive : Kept { s with active := Function.update s.active ev false } T := h.congr h.pool rfl rfl
        refine hinactive.onTimers ((delIfSet_ensures h.timers ev).imp fun _ t hdeleted => ?_) hstep
        obtain ⟨T', hkept, hsub⟩ := hdeleted
        exact ⟨T', hkept, fun e he => h.out e (hsub e he).1⟩
      · cases hstep
        exact ⟨T, h⟩
  | addTimer fuel ev timer =>
      refine h.onTimers ((eventAddTimer_ensures h.timers timer).imp fun _ t hadded => ?_) hstep
      obtain ⟨-, -, rfl⟩ | ⟨-, T', harmed⟩ := hadded
      · exact ⟨T, h.timers, h.out⟩
      · refine ⟨T', harmed.kept, fun e he => ?_⟩
        obtain hmem | rfl := (harmed.nodes e).mp he
        · exact h.out e hmem
        · exact hallows
  | delTimer fuel ev =>
      refine h.onTimers ((eventDelTimer_ensures h.timers).imp fun _ t hdeleted => ?_) hstep
      obtain ⟨T', hdisarmed⟩ := hdeleted
      exact ⟨T', hdisarmed.kept, fun e he => h.out e ((hdisarmed.nodes e).mp he).1⟩
  | expireFirst fuel =>
      refine h.onTimers ((expireFirst_ensures h.timers).imp fun fired t hturn => ?_) hstep
      obtain ⟨-, rfl⟩ | ⟨ev, T', -, hfires⟩ := hturn
      · exact ⟨T, h.timers, h.out⟩
      · exact ⟨T', hfires.kept, fun e he => h.out e ((hfires.nodes e).mp he).1⟩
  | timeUpdate now =>
      cases hstep
      exact ⟨T, h.pool, ⟨h.timers.tree, h.timers.set, h.timers.rest⟩, h.out⟩

end Kept

theorem Init.kept (h : s.Init) : s.Kept .leaf :=
  ⟨ConnectionPool.kept_init h.pool, h.timers.kept, fun _ hev => absurd hev List.not_mem_nil⟩

theorem kept_of_reaches (h : (machine maxConnections).Reaches s) : ∃ T, s.Kept T := by
  refine h.invariant (I := fun s => ∃ T, s.Kept T) (fun s hinit => ⟨.leaf, hinit.kept⟩) ?_
  rintro s op s' ⟨T, hkept⟩ hallows hstep
  exact hkept.step hallows hstep

end ConnectionTimers

/-- The connection is on the free list of the pool. -/
def OnFreeList (p : ConnectionPool) (c : Slot) : Prop :=
  ∃ free slot, Segment p.cpool.mem p.cpool.free free none ∧ slot ∈ free ∧ c = slot + ptrSize

theorem ConnectionPool.Kept.not_onFreeList {p : ConnectionPool} {c : Slot} (h : p.Kept) (hc : c ∈ p.out) :
    ¬OnFreeList p c := by
  rintro ⟨free', slot, hlist, hslot, rfl⟩
  obtain ⟨bases, free, hholds⟩ := h.holds
  rw [hlist.unique hholds.list] at hslot
  exact (List.nodup_append.mp hholds.nodup).2.2 _ (List.mem_map_of_mem hslot) _ hc rfl

/-- Two connections that are handed out do not overlap. -/
theorem ConnectionPool.Kept.beside {p : ConnectionPool} {c d : Slot} {out : List Slot} (h : p.Kept)
    (hout : p.out = d :: out) (hc : c ∈ out) : Beside connectionSize c d := by
  obtain ⟨bases, free, hholds⟩ := h.holds
  have hapart := hholds.pairwise_live
  rw [hout, h.size.1] at hapart
  exact (List.rel_of_pairwise_cons hapart hc).symm

/-- In every run the tree is well formed and each of its nodes is the timer of an
event of a connection that is handed out, and set; the connection that
`getIdleConnection` zeroes is beside the connections of all of them. -/
theorem connectionTimers_sound {maxConnections : Int} {s : ConnectionTimers}
    (h : (ConnectionTimers.machine maxConnections).Reaches s) :
    ∃ T, WellFormed s.timers.tree T ∧
      (∀ ev ∈ T.toList, ev.1 ∈ s.pool.out ∧ ¬OnFreeList s.pool ev.1 ∧ s.timers.timerSet ev = true) ∧
      ∀ data c s', s.pool.Fresh data → s.getIdleConnection maxConnections data = some (some c, s') →
        WellFormed s'.timers.tree T ∧ ∀ ev ∈ T.toList, Beside connectionSize ev.1 c := by
  obtain ⟨T, hkept⟩ := ConnectionTimers.kept_of_reaches h
  refine ⟨T, hkept.timers.tree, fun ev hev => ?_, fun data c s' hfresh hget => ?_⟩
  · have hout := hkept.out ev hev
    exact ⟨hout, hkept.pool.not_onFreeList hout, hkept.timers.set ev hev⟩
  · refine ⟨(hkept.getIdle hfresh hget).timers.tree, fun ev hev => ?_⟩
    obtain ⟨⟨d, pool⟩, hpool, hrest⟩ := Option.bind_eq_some_iff.mp hget
    cases d with
    | none => cases hrest
    | some d =>
        cases hrest
        obtain ⟨hpoolKept, hnew⟩ := hkept.pool.getIdle hfresh hpool
        exact hpoolKept.beside (hnew c rfl).2.1 (hkept.out ev hev)

instance (maxConnections : Int) (s : ConnectionTimers) (op : ConnectionTimers.Op) :
    Decidable ((ConnectionTimers.machine maxConnections).allows s op) :=
  match op with
  | .conn _ op => inferInstanceAs (Decidable (s.pool.Allows op))
  | .addEvent _ => inferInstanceAs (Decidable (_ ∈ _))
  | .delEvent _ _ => inferInstanceAs (Decidable (_ ∈ _))
  | .addTimer _ _ _ => inferInstanceAs (Decidable (_ ∈ _))
  | .delTimer _ _ => inferInstanceAs (Decidable (_ ∈ _))
  | .expireFirst _ => inferInstanceAs (Decidable True)
  | .timeUpdate _ => inferInstanceAs (Decidable True)


/-- No timer of a connection is set. -/
def noConnectionTimers (pool : ConnectionPool) : ConnectionTimers where
  pool := pool
  active _ := false
  timers :=
    { tree :=
        { root := .sentinel
          heap := fun p => if p = .sentinel then ⟨0, .sentinel, .sentinel, .sentinel, .black⟩ else {} }
      timerSet := fun _ => false
      timedout := fun _ => false
      currentMsec := 0 }

theorem noConnectionTimers_init {pool : ConnectionPool} (h : connectionPoolInit = some pool) :
    (noConnectionTimers pool).Init where
  pool := h
  timers := ⟨⟨rfl, rfl, fun _ => rfl, rfl⟩, fun _ => rfl⟩

/-- The timer of a client expires, the client is closed, which deletes the timer
again, and its connection is handed out once more. -/
theorem connectionTimers_sound_again : ∃ s, (ConnectionTimers.machine 4).Reaches s ∧
    s.timers.called = [(1008, .rev)] ∧ s.timers.timerSet (1008, .wev) = true ∧
    ∃ T, WellFormed s.timers.tree T ∧
      (∀ ev ∈ T.toList, ev.1 ∈ s.pool.out ∧ ¬OnFreeList s.pool ev.1 ∧ s.timers.timerSet ev = true) ∧
      ∀ data c s', s.pool.Fresh data → s.getIdleConnection 4 data = some (some c, s') →
        WellFormed s'.timers.tree T ∧ ∀ ev ∈ T.toList, Beside connectionSize ev.1 c := by
  have hinit : (ConnectionTimers.machine 4).Reaches (noConnectionTimers _) := .init (noConnectionTimers_init rfl)
  obtain ⟨s, hs, htest⟩ := hinit.exists_of_runTest
    (fun s => s.timers.called == [(1008, .rev)] && s.timers.timerSet (1008, .wev))
    [.conn 4 (.getIdle 1000), .conn 4 (.connected 1008 7), .addEvent (1008, .rev), .addTimer 4 (1008, .rev) 20,
      .conn 4 (.getIdle 1000), .conn 4 (.connected 1176 8), .addTimer 4 (1176, .wev) 50, .timeUpdate 30, .expireFirst 4,
      .conn 4 (.close 1008), .conn 4 (.getIdle 1000), .addTimer 4 (1008, .wev) 60]
    (by decide +kernel)
  rw [Bool.and_eq_true, beq_iff_eq] at htest
  exact ⟨s, hs, htest.1, htest.2, connectionTimers_sound hs⟩

end PWebServer
