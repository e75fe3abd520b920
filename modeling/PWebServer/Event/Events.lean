import PWebServer.Globals

/-!
# Event.Events

The events of a connection: their handlers, whether they are registered with
kqueue, and their timers.

An event can be due twice over.  `kevent` returns what is ready, and the
handlers of one batch run one after the other, also those of events that an
earlier handler of the batch has deleted; `fetched` stands for that.  When the
batch is through, the timers that have expired mark their events as timed out
and run the same handlers.
-/

namespace PWebServer

/-- `event_handler_pt`: the functions that are installed as handlers. -/
inductive EventHandler where
  | httpInitRequest
  | ngxHttpProcessRequestLine
  | httpParseHeaders
  | requestHandleBody
  | handleResponse
  | handleResponseFile
  | processConnectionResultOfUpstream
  | httpProxyPass
  | httpRecvUpstream
  deriving DecidableEq, Repr

/-- `event_s`.  `fetched`: the last `kevent` has returned the event, and its
handler has not run since. -/
structure EventS where
  handler : Option EventHandler := none
  active : Bool := false
  timerSet : Bool := false
  timedout : Bool := false
  timerKey : BitVec 32 := 0
  fetched : Bool := false
  deriving DecidableEq, Repr

/-- `TIMER_LAZY_DELAY` -/
def timerLazyDelay : Int := 300

/-- `event_del_timer` -/
def EventS.delTimer (ev : EventS) : EventS := { ev with timerSet := false, timedout := false }

/-- `event_add_timer`.  A timer that is set already is left alone if the new
time is close to the old one. -/
def EventS.addTimer (now timer : BitVec 32) (ev : EventS) : EventS :=
  let key := now + timer
  if ev.timerSet ∧ (key - ev.timerKey).abs.toInt < timerLazyDelay then ev
  else
    let ev := if ev.timerSet then ev.delTimer else ev
    { ev with timerKey := key, timerSet := true }

/-- `kqueue_add_event` -/
def EventS.addEvent (ev : EventS) : EventS := if ev.active then ev else { ev with active := true }

/-- `kqueue_del_event` -/
def EventS.delEvent (ev : EventS) : EventS :=
  if ev.active then
    let ev := { ev with active := false }
    if ev.timerSet then ev.delTimer else ev
  else ev

/-- `connection`, without its request.  `ip` is the address of the client. -/
structure Connection where
  fd : Int := 0
  ip : BitVec 32 := 0
  rev : EventS := {}
  wev : EventS := {}
  isConnected : Bool := false
  isIdle : Bool := false
  deriving DecidableEq, Repr

/-- `getIdleConnection`: the connection it hands out. -/
def Connection.idle : Connection := { fd := -33 }

/-- What `http_close_connection` does to one event. -/
def EventS.close (ev : EventS) : EventS :=
  { (if ev.timerSet then ev.delTimer else ev) with active := false }

/-- `http_close_connection` -/
def Connection.close (c : Connection) : Connection :=
  { c with fd := -10086, isIdle := false, isConnected := false, rev := c.rev.close, wev := c.wev.close }

/-- `kevent` has returned: of the events that are registered some are ready. -/
def EventS.poll (ev : EventS) : EventS := { ev with fetched := ev.active }

/-- `kevent` on both events of a connection. -/
def Connection.poll (c : Connection) : Connection := { c with rev := c.rev.poll, wev := c.wev.poll }

/-- The handlers of a batch have all been run. -/
def Connection.batchDone (c : Connection) : Connection :=
  { c with rev := { c.rev with fetched := false }, wev := { c.wev with fetched := false } }

/-! ## what the operations leave alone -/

section

variable (ev : EventS)

@[simp] theorem EventS.addEvent_eq : ev.addEvent = { ev with active := true } := by
  unfold EventS.addEvent
  split
  · next h => rw [← h]
  · rfl

@[simp] theorem EventS.addEvent_handler : ev.addEvent.handler = ev.handler := by
  rw [EventS.addEvent_eq]

@[simp] theorem EventS.delTimer_handler : ev.delTimer.handler = ev.handler := rfl

@[simp] theorem EventS.delEvent_handler : ev.delEvent.handler = ev.handler := by
  unfold EventS.delEvent
  split
  · dsimp only
    split <;> rfl
  · rfl

@[simp] theorem EventS.delEvent_fetched : ev.delEvent.fetched = ev.fetched := by
  unfold EventS.delEvent
  split
  · dsimp only
    split <;> rfl
  · rfl

@[simp] theorem EventS.delEvent_timerSet (h : ev.active = true) : ev.delEvent.timerSet = false := by
  unfold EventS.delEvent
  rw [if_pos h]
  dsimp only
  split
  · rfl
  · next hset => exact Bool.eq_false_iff.mpr hset

@[simp] theorem EventS.close_handler : ev.close.handler = ev.handler := by
  unfold EventS.close
  dsimp only
  split <;> rfl

theorem EventS.close_active : ev.close.active = false := rfl

theorem EventS.close_timerSet : ev.close.timerSet = false := by
  unfold EventS.close
  dsimp only
  split
  · rfl
  · next hset => exact Bool.eq_false_iff.mpr hset

@[simp] theorem EventS.delEvent_active : ev.delEvent.active = false := by
  unfold EventS.delEvent
  split
  · dsimp only
    split <;> rfl
  · next h => exact Bool.eq_false_iff.mpr h

variable (now timer : BitVec 32)

@[simp] theorem EventS.addTimer_handler : (ev.addTimer now timer).handler = ev.handler := by
  unfold EventS.addTimer
  dsimp only
  split
  · rfl
  · split <;> rfl

@[simp] theorem EventS.addTimer_active : (ev.addTimer now timer).active = ev.active := by
  unfold EventS.addTimer
  dsimp only
  split
  · rfl
  · split <;> rfl

@[simp] theorem EventS.addTimer_fetched : (ev.addTimer now timer).fetched = ev.fetched := by
  unfold EventS.addTimer
  dsimp only
  split
  · rfl
  · split <;> rfl

@[simp] theorem EventS.addTimer_timerSet : (ev.addTimer now timer).timerSet = true := by
  unfold EventS.addTimer
  dsimp only
  split
  · next h => exact h.1
  · rfl

/-- A timer that is set anew is not one that has expired. -/
theorem EventS.addTimer_timedout (h : ev.timedout = false) : (ev.addTimer now timer).timedout = false := by
  unfold EventS.addTimer
  dsimp only
  split
  · exact h
  · split
    · rfl
    · exact h

end

end PWebServer
