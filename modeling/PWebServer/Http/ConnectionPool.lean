import PWebServer.Base.Pool
import PWebServer.Http.Exchange

/-!
# Http.ConnectionPool

`connection.c`: the connections of a worker are the units of a pool.  A
connection is closed from many places, and again after it has been closed;
`http_close_connection` tells a connection that was released from one that was
not by two of its fields.
-/

namespace PWebServer

open LinkedList

/-- `connection`, with its request. -/
structure ConnectionT extends Connection where
  data : Option Nat := none

/-- `sizeof(connection_t)`, with pointers of eight bytes. -/
def connectionSize : Nat := 160

/-- `connection_pool` and `listen_connection`, with the connections and the
requests in memory.  The memory of a new chunk is zeroed, so that a connection
nobody has touched is `{}`.  The last two fields are no part of the program: the
connections that were handed out and have not been released, and the
descriptors that were closed. -/
structure ConnectionPool where
  cpool : Pool
  conn : Slot → ConnectionT
  request : Nat → HttpRequest
  listenConnection : Option Slot := none
  out : List Slot := []
  closed : List Int := []

/-- `connectionPoolInit` -/
def connectionPoolInit : Option ConnectionPool := do
  let cpool ← poolInit connectionSize 8 []
  pure { cpool := cpool, conn := fun _ => {}, request := fun _ => createHttpRequest }

namespace ConnectionPool

variable (maxConnections : Int) (p : ConnectionPool)

/-- One connection is changed. -/
def onConn (c : Slot) (f : ConnectionT → ConnectionT) : ConnectionPool :=
  { p with conn := Function.update p.conn c (f (p.conn c)) }

/-- One request is changed. -/
def onRequest (r : Nat) (f : HttpRequest → HttpRequest) : ConnectionPool :=
  { p with request := Function.update p.request r (f (p.request r)) }

/-- `getIdleConnection`; `data` is what `malloc` returns if it is called. -/
def getIdleConnection (data : Nat) : Option (Option Slot × ConnectionPool) :=
  if p.cpool.used < maxConnections then do
    let (c, cpool) ← poolAlloc p.cpool data
    pure (some c, { p with cpool := cpool, out := c :: p.out }.onConn c fun _ => { toConnection := .idle })
  else some (none, p)

/-- The test of `http_close_connection`: the connection was released. -/
def released (c : Slot) : Bool := (p.conn c).data.isNone && !(p.conn c).isConnected

/-- The request of a connection that is closed forgets it. -/
def forget (c : Slot) : ConnectionPool :=
  match (p.conn c).data with
  | none => p
  | some r => p.onRequest r fun req =>
      if req.connection = some c then { req with connection := none } else { req with upstream := none }

/-- `http_close_connection` -/
def httpCloseConnection (c : Slot) : ConnectionPool :=
  if p.released c then p
  else
    let fd := (p.conn c).fd
    { (p.forget c).onConn c fun con => { toConnection := con.toConnection.close } with
      closed := if 0 < fd then p.closed ++ [fd] else p.closed
      cpool := poolFree p.cpool (some c)
      out := p.out.erase c }

/-- The connection is closed if the pointer is not null. -/
def closeIf (c : Option Slot) : ConnectionPool :=
  match c with
  | some c => p.httpCloseConnection c
  | none => p

/-- The part of `http_close_request` that is about connections. -/
def httpCloseRequest (r : Nat) : ConnectionPool :=
  let p := p.closeIf (p.request r).connection
  p.closeIf (p.request r).upstream

/-- The part of `http_clear_request` that is about connections. -/
def httpClearRequest (r : Nat) : Option ConnectionPool := do
  let c ← (p.request r).connection
  let p := p.closeIf (p.request r).upstream
  let p := p.onRequest r fun _ => { createHttpRequest with connection := some c }
  pure (p.onConn c fun con => { con with isIdle := true })

/-! ## runs -/

/-- What is done with connections.  `connected`: `event_accept` and
`init_upstream_connection` mark a connection as connected and give it a
descriptor; `initRequest`: `http_init_request` makes a connection the client of
a request; `openUpstream`: `open_upstream_connection` makes it its upstream. -/
inductive Op where
  | getIdle (data : Nat)
  | connected (c : Slot) (fd : Int)
  | initRequest (c : Slot) (r : Nat)
  | openUpstream (c : Slot) (r : Nat)
  | close (c : Slot)
  | closeRequest (r : Nat)
  | clearRequest (r : Nat)

variable {p}

/-- `malloc` returns memory that is not in use. -/
def Fresh (p : ConnectionPool) (data : Nat) : Prop :=
  p.cpool.free = none → ∀ c ∈ p.cpool.chunks.written, Beside (p.cpool.slotSize * p.cpool.unitNum) c data

instance (p : ConnectionPool) (data : Nat) : Decidable (p.Fresh data) :=
  inferInstanceAs (Decidable (_ → ∀ _ ∈ _, _))

/-- A connection is given a descriptor or a request by whoever it was handed out
to.  It may be closed at any time. -/
def Allows (p : ConnectionPool) : Op → Prop
  | .getIdle data => p.Fresh data
  | .connected c _ => c ∈ p.out
  | .initRequest c _ => c ∈ p.out
  | .openUpstream c _ => c ∈ p.out
  | .close _ => True
  | .closeRequest _ => True
  | .clearRequest _ => True

/-- One operation. -/
def step (p : ConnectionPool) : Op → Option ConnectionPool
  | .getIdle data => (p.getIdleConnection maxConnections data).map (·.2)
  | .connected c fd => some (p.onConn c fun con => { con with fd := fd, isConnected := true })
  | .initRequest c r => some ((p.onConn c fun con => { con with data := some r }).onRequest r
      fun _ => { createHttpRequest with connection := some c })
  | .openUpstream c r => some ((p.onConn c fun con => { con with data := some r }).onRequest r
      fun req => { req with upstream := some c })
  | .close c => some (p.httpCloseConnection c)
  | .closeRequest r => some (p.httpCloseRequest r)
  | .clearRequest r => p.httpClearRequest r

/-- The runs of the connection pool. -/
def machine (maxConnections : Int) : Machine ConnectionPool Op where
  init p := connectionPoolInit = some p
  allows := Allows
  step := step maxConnections

/-! ## what the operations keep -/

/-- The connections in `out` are the units of the pool that are held, and
`http_close_connection` knows of every other one that it was released. -/
structure Kept (p : ConnectionPool) : Prop where
  size : p.cpool.unitSize = connectionSize ∧ p.cpool.unitNum = 8
  used : p.cpool.used = p.out.length
  holds : ∃ bases free, p.cpool.Holds bases free p.out
  released : ∀ c ∉ p.out, p.released c = true

variable {p' : ConnectionPool} {c : Slot} {r : Nat} {maxConnections : Int} {f : ConnectionT → ConnectionT}
  {g : HttpRequest → HttpRequest}

@[simp] theorem onConn_self : (p.onConn c f).conn c = f (p.conn c) := Function.update_self ..

@[simp] theorem onConn_cpool : (p.onConn c f).cpool = p.cpool := rfl

@[simp] theorem onConn_out : (p.onConn c f).out = p.out := rfl

@[simp] theorem onConn_closed : (p.onConn c f).closed = p.closed := rfl

@[simp] theorem onConn_request : (p.onConn c f).request = p.request := rfl

@[simp] theorem onRequest_self : (p.onRequest r g).request r = g (p.request r) := Function.update_self ..

theorem onRequest_of_ne {r' : Nat} (h : r' ≠ r) : (p.onRequest r g).request r' = p.request r' :=
  Function.update_of_ne h ..

theorem onConn_of_ne {d : Slot} (h : d ≠ c) : (p.onConn c f).conn d = p.conn d := Function.update_of_ne h ..

@[simp] theorem forget_conn : (p.forget c).conn = p.conn := by
  unfold forget
  split <;> rfl

@[simp] theorem httpCloseConnection_listenConnection :
    (p.httpCloseConnection c).listenConnection = p.listenConnection := by
  unfold httpCloseConnection forget
  split
  · rfl
  · split <;> rfl

theorem forget_request_of_ne (h : (p.conn c).data ≠ some r) : (p.forget c).request r = p.request r := by
  unfold forget
  split
  · rfl
  · next r' hr =>
      refine Function.update_of_ne ?_ _ _
      rintro rfl
      exact h hr

theorem forget_request (h : (p.conn c).data = some r) (hne : (p.request r).connection ≠ some c) :
    (p.forget c).request r = { p.request r with upstream := none } := by
  rw [forget, h]
  exact (Function.update_self ..).trans (if_neg hne)

theorem getIdleConnection_none {data : Nat} (h : p.getIdleConnection maxConnections data = some (none, p')) : p' = p := by
  unfold getIdleConnection at h
  split at h
  · obtain ⟨r, -, hr⟩ := Option.bind_eq_some_iff.mp h
    cases hr
  · cases h
    rfl

/-- Closing a connection that was not released. -/
theorem httpCloseConnection_conn (h : p.released c = false) :
    (p.httpCloseConnection c).conn =
      Function.update p.conn c { toConnection := (p.conn c).toConnection.close } := by
  rw [httpCloseConnection, if_neg (by rw [h]; decide)]
  simp [onConn]

theorem httpCloseConnection_out (h : p.released c = false) :
    (p.httpCloseConnection c).out = p.out.erase c := by
  rw [httpCloseConnection, if_neg (by rw [h]; decide)]

theorem httpCloseConnection_cpool (h : p.released c = false) :
    (p.httpCloseConnection c).cpool = poolFree p.cpool (some c) := by
  rw [httpCloseConnection, if_neg (by rw [h]; decide)]

theorem httpCloseConnection_closed (h : p.released c = false) (hfd : 0 < (p.conn c).fd) :
    (p.httpCloseConnection c).closed = p.closed ++ [(p.conn c).fd] := by
  rw [httpCloseConnection, if_neg (by rw [h]; decide)]
  exact if_pos hfd

theorem httpCloseConnection_request (h : p.released c = false) :
    (p.httpCloseConnection c).request = (p.forget c).request := by
  rw [httpCloseConnection, if_neg (by rw [h]; decide)]
  rfl

theorem httpCloseConnection_of_released (h : p.released c = true) : p.httpCloseConnection c = p :=
  if_pos h

theorem closeIf_of_ne {up : Option Slot} (h : up ≠ some c) :
    (p.closeIf up).conn c = p.conn c ∧ (c ∈ p.out → c ∈ (p.closeIf up).out) := by
  cases up with
  | none => exact ⟨rfl, id⟩
  | some up =>
      have hne : c ≠ up := fun heq => h (heq ▸ rfl)
      change (p.httpCloseConnection up).conn c = _ ∧ (_ → c ∈ (p.httpCloseConnection up).out)
      cases hrel : p.released up with
      | true =>
          rw [httpCloseConnection_of_released hrel]
          exact ⟨rfl, id⟩
      | false =>
          rw [httpCloseConnection_conn hrel, httpCloseConnection_out hrel]
          exact ⟨Function.update_of_ne hne _ _, (List.mem_erase_of_ne hne).mpr⟩

namespace Kept

/-- Whatever is done to the connections that are handed out and to requests. -/
theorem congr (h : p.Kept) (hcpool : p'.cpool = p.cpool) (hout : p'.out = p.out)
    (hconn : ∀ c ∉ p.out, p'.released c = p.released c) : p'.Kept where
  size := by rw [hcpool]; exact h.size
  used := by rw [hcpool, hout, h.used]
  holds := by rw [hcpool, hout]; exact h.holds
  released c hc := by
    rw [hout] at hc
    rw [hconn c hc]
    exact h.released c hc

theorem onConn (h : p.Kept) (hc : c ∈ p.out) : (p.onConn c f).Kept := by
  refine h.congr rfl rfl fun d hd => ?_
  have hne : d ≠ c := fun heq => hd (heq ▸ hc)
  simp only [ConnectionPool.released, onConn_of_ne hne]

/-- A change that `http_close_connection` does not look at. -/
theorem onConn_of_released (h : p.Kept) (hdata : (f (p.conn c)).data = (p.conn c).data)
    (hconnected : (f (p.conn c)).isConnected = (p.conn c).isConnected) : (p.onConn c f).Kept := by
  refine h.congr rfl rfl fun d _ => ?_
  by_cases hne : d = c
  · subst hne
    simp only [ConnectionPool.released, onConn_self, hdata, hconnected]
  · simp only [ConnectionPool.released, onConn_of_ne hne]

/-- A connection loses its request. -/
theorem dropData (h : p.Kept) : (p.onConn c fun con => { con with data := none }).Kept := by
  refine h.congr rfl rfl fun d hd => ?_
  by_cases hne : d = c
  · subst hne
    have hrel := h.released d hd
    rw [ConnectionPool.released, Bool.and_eq_true] at hrel
    rw [h.released d hd, ConnectionPool.released, onConn_self]
    exact hrel.2
  · simp only [ConnectionPool.released, onConn_of_ne hne]

theorem onRequest (h : p.Kept) : (p.onRequest r g).Kept := h.congr rfl rfl fun _ _ => rfl

theorem nodup (h : p.Kept) : p.out.Nodup := by
  obtain ⟨bases, free, hholds⟩ := h.holds
  exact (List.nodup_append.mp hholds.nodup).2.1

/-- A connection that was not released is handed out. -/
theorem mem_out (h : p.Kept) (hc : p.released c = false) : c ∈ p.out := by
  by_contra hout
  rw [h.released c hout] at hc
  cases hc

theorem close (h : p.Kept) : (p.httpCloseConnection c).Kept := by
  cases hc : p.released c with
  | true =>
      rw [httpCloseConnection_of_released hc]
      exact h
  | false =>
      have hmem := h.mem_out hc
      obtain ⟨bases, free, hholds⟩ := h.holds
      refine ⟨?_, ?_, ⟨bases, (c - ptrSize) :: free, ?_⟩, fun d hd => ?_⟩
      · rw [httpCloseConnection_cpool hc]
        exact h.size
      · have := List.length_pos_of_mem hmem
        rw [httpCloseConnection_cpool hc, httpCloseConnection_out hc, List.length_erase_of_mem hmem]
        change p.cpool.used - 1 = _
        rw [h.used]
        omega
      · rw [httpCloseConnection_cpool hc, httpCloseConnection_out hc]
        exact hholds.release hmem
      · rw [httpCloseConnection_out hc] at hd
        rw [ConnectionPool.released, httpCloseConnection_conn hc]
        by_cases hne : d = c
        · subst hne
          rw [Function.update_self]
          rfl
        · rw [Function.update_of_ne hne]
          exact h.released d fun hd' => hd ((List.mem_erase_of_ne hne).mpr hd')

theorem closeIf {c : Option Slot} (h : p.Kept) : (p.closeIf c).Kept := by
  cases c with
  | none => exact h
  | some c => exact h.close

theorem closeRequest (h : p.Kept) : (p.httpCloseRequest r).Kept := h.closeIf.closeIf

theorem clearRequest (h : p.Kept) (hclear : p.httpClearRequest r = some p') : p'.Kept := by
  unfold httpClearRequest at hclear
  obtain ⟨c, hc, hclear⟩ := Option.bind_eq_some_iff.mp hclear
  cases hclear
  exact Kept.onConn_of_released h.closeIf.onRequest rfl rfl

/-- A connection is handed out. -/
theorem getIdle {data : Nat} (h : p.Kept) (hfresh : p.Fresh data) {c : Option Slot}
    (hget : p.getIdleConnection maxConnections data = some (c, p')) :
    p'.Kept ∧ ∀ d, c = some d → d ∉ p.out ∧ p'.out = d :: p.out ∧ p'.request = p.request ∧
      p'.conn = Function.update p.conn d { toConnection := .idle } := by
  unfold getIdleConnection at hget
  split at hget
  · obtain ⟨⟨d, cpool⟩, halloc, hget⟩ := Option.bind_eq_some_iff.mp hget
    cases hget
    obtain ⟨bases, free, hholds⟩ := h.holds
    obtain ⟨hd, bases', free', hholds', hused, hsize, hnum, -⟩ :=
      hholds.alloc (hholds.chunks.written ▸ hfresh) halloc
    refine ⟨⟨⟨hsize.trans h.size.1, hnum.trans h.size.2⟩, ?_, ⟨bases', free', hholds'⟩, fun e he => ?_⟩, ?_⟩
    · change cpool.used = _
      rw [hused, h.used]
      rfl
    · have hne : e ≠ d := fun heq => he (heq ▸ List.mem_cons_self)
      rw [ConnectionPool.released, onConn_of_ne hne]
      exact h.released e fun hmem => he (List.mem_cons_of_mem d hmem)
    · intro e he
      cases he
      exact ⟨hd, rfl, rfl, rfl⟩
  · cases hget
    exact ⟨h, nofun⟩

theorem step {op : Op} (h : p.Kept) (hallows : p.Allows op) (hstep : p.step maxConnections op = some p') :
    p'.Kept := by
  cases op with
  | getIdle data =>
      obtain ⟨⟨c, q⟩, hget, hq⟩ := Option.map_eq_some_iff.mp hstep
      cases hq
      exact (h.getIdle hallows hget).1
  | connected c fd =>
      cases hstep
      exact h.onConn hallows
  | initRequest c r =>
      cases hstep
      exact (h.onConn hallows).onRequest
  | openUpstream c r =>
      cases hstep
      exact (h.onConn hallows).onRequest
  | close c =>
      cases hstep
      exact h.close
  | closeRequest r =>
      cases hstep
      exact h.closeRequest
  | clearRequest r => exact h.clearRequest hstep

end Kept

theorem kept_init (h : connectionPoolInit = some p) : p.Kept := by
  cases h
  exact ⟨⟨rfl, rfl⟩, rfl, ⟨[], [], by decide, vectorInit_holds chunkSize 0, .nil, rfl, .nil⟩, fun _ _ => rfl⟩

theorem kept_of_reaches (h : (machine maxConnections).Reaches p) : p.Kept :=
  h.invariant (fun _ => kept_init) fun _ _ _ hkept hallows hstep => hkept.step hallows hstep

end ConnectionPool

/-- However often connections are closed, no slot is on the free list twice, and
`used` is the number of the connections that were handed out and have not been
released. -/
theorem connectionPool_sound {maxConnections : Int} {p : ConnectionPool}
    (h : (ConnectionPool.machine maxConnections).Reaches p) :
    (∃ free, Segment p.cpool.mem p.cpool.free free none ∧ free.Nodup) ∧
      p.cpool.used = p.out.length := by
  have hkept := ConnectionPool.kept_of_reaches h
  obtain ⟨bases, free, hholds⟩ := hkept.holds
  exact ⟨⟨free, hholds.list, hholds.nodup_free⟩, hkept.used⟩

instance (p : ConnectionPool) (op : ConnectionPool.Op) : Decidable (p.Allows op) :=
  match op with
  | .getIdle data => inferInstanceAs (Decidable (p.Fresh data))
  | .connected _ _ => inferInstanceAs (Decidable (_ ∈ _))
  | .initRequest _ _ => inferInstanceAs (Decidable (_ ∈ _))
  | .openUpstream _ _ => inferInstanceAs (Decidable (_ ∈ _))
  | .close _ => inferInstanceAs (Decidable True)
  | .closeRequest _ => inferInstanceAs (Decidable True)
  | .clearRequest _ => inferInstanceAs (Decidable True)

instance (maxConnections : Int) (p : ConnectionPool) (op : ConnectionPool.Op) :
    Decidable ((ConnectionPool.machine maxConnections).allows p op) :=
  inferInstanceAs (Decidable (p.Allows op))

/-- A client and its back end; the request is closed, and both again. -/
theorem connectionPool_sound_twice :
    ∃ p, (ConnectionPool.machine 4).Reaches p ∧ p.closed = [7, 8] ∧
      (∃ free, Segment p.cpool.mem p.cpool.free free none ∧ free.Nodup) ∧
        p.cpool.used = p.out.length := by
  obtain ⟨p, h, hclosed⟩ := Machine.Reaches.exists_of_runTest
    (fun p => p.closed == [7, 8])
    [.getIdle 1000, .connected 1008 7, .initRequest 1008 0, .getIdle 1000, .openUpstream 1176 0,
      .connected 1176 8, .closeRequest 0, .close 1008, .close 1176, .getIdle 1000]
    (.init rfl : (ConnectionPool.machine 4).Reaches _) (by decide +kernel)
  exact ⟨p, h, beq_iff_eq.mp hclosed, connectionPool_sound h⟩

end PWebServer
