import PWebServer.Http.ConnectionPool

/-!
# Http.Worker

The connections of a worker, from `worker_process_init` to its end: who is
handed out for what, and what a worker that shuts down does to them.
-/

namespace PWebServer

/-- Who a connection was handed out to: `event_process_init`, `event_accept` or
`open_upstream_connection`. -/
inductive Kind where
  | listening
  | client
  | upstream
  deriving DecidableEq, Repr

/-- The connections of a worker.  What each of them was handed out for, and
whether `clear_idle_connections` has run since, is no part of the program. -/
structure Worker extends ConnectionPool where
  kind : Slot → Kind := fun _ => .client
  cleared : Slot → Bool := fun _ => false

/-! ## `clear_idle_connections` -/

namespace ConnectionPool

variable (p : ConnectionPool)

/-- The test of `clear_idle_connections`. -/
def idleOpen (c : Slot) : Bool := decide (0 < (p.conn c).fd) && (p.conn c).isIdle

/-- The body of the inner loop of `clear_idle_connections`. -/
def clearSlot (c : Slot) : ConnectionPool :=
  (if p.idleOpen c then p.httpCloseConnection c else p).onConn c fun con => { con with data := none }

/-- The connections the inner loop computes for the chunk at `data`. -/
def walked (data : Nat) : List Slot :=
  (List.range 8).map fun k => data + k * (connectionSize + ptrSize) + ptrSize

/-- The loops of `clear_idle_connections`, for the chunks at these positions.  An
entry of the vector that was not written points anywhere. -/
def clearChunks : List Nat → ConnectionPool → Option ConnectionPool
  | [], p => some p
  | i :: is, p => do
      let ch ← vectorAt p.cpool.chunks i
      let data ← ch
      clearChunks is ((walked data).foldl clearSlot p)

/-- `clear_idle_connections` -/
def clearIdleConnections : Option ConnectionPool :=
  clearChunks (List.range p.cpool.chunks.capacity) p

end ConnectionPool

namespace Worker

variable (cfg : Config) (maxConnections : Int) (w : Worker)

/-! ## handing out -/

/-- `getIdleConnection`, for a connection of that kind. -/
def getIdleConnection (kind : Kind) (data : Nat) : Option (Option Slot × Worker) := do
  let (c, p) ← w.toConnectionPool.getIdleConnection maxConnections data
  match c with
  | some c => pure (some c,
      { toConnectionPool := p
        kind := Function.update w.kind c kind
        cleared := Function.update w.cleared c false })
  | none => pure (none, { w with toConnectionPool := p })

/-- What a function does to the connection pool. -/
def lift (f : ConnectionPool → ConnectionPool) : Worker := { w with toConnectionPool := f w.toConnectionPool }

/-- `event_process_init`.  The handler of the listening connection is
`event_accept`. -/
def eventProcessInit (listenFd : Int) (data : Nat) : Option Worker := do
  let p ← connectionPoolInit
  let (c, w) ← ({ toConnectionPool := p } : Worker).getIdleConnection maxConnections .listening data
  let c ← c
  pure (w.lift fun p => { p.onConn c fun con => { con with fd := listenFd, rev := con.rev.addEvent } with
    listenConnection := some c })

/-- `init_connection` -/
def initConnection (now : BitVec 32) (con : ConnectionT) : ConnectionT :=
  { con with rev := ({ con.rev with handler := some .httpInitRequest }.addTimer now
      cfg.postAcceptTimeout).addEvent }

/-- `event_accept`, for one client. -/
def eventAccept (fd : Int) (ip now : BitVec 32) (data : Nat) : Option Worker := do
  let (c, w) ← w.getIdleConnection maxConnections .client data
  match c with
  | none => pure (w.lift fun p => { p with closed := p.closed ++ [fd] })
  | some c => pure (w.lift fun p => p.onConn c fun con =>
      initConnection cfg now { con with fd := fd, isConnected := true, ip := ip })

/-- The part of `http_init_request` that is about connections. -/
def httpInitRequest (c : Slot) (r : Nat) : Worker :=
  w.lift fun p =>
    if (p.conn c).rev.timedout then p.httpCloseConnection c
    else (p.onConn c fun con => { con with data := some r }).onRequest r
      fun _ => { createHttpRequest with connection := some c }

/-- `open_upstream_connection`, and the assignment to `r->upstream`. -/
def openUpstreamConnection (r data : Nat) : Option Worker := do
  let (c, w) ← w.getIdleConnection maxConnections .upstream data
  pure (w.lift fun p => match c with
    | none => p.onRequest r fun req => { req with upstream := none }
    | some c => (p.onConn c fun con => { con with data := some r }).onRequest r
        fun req => { req with upstream := some c })

/-- The part of `try_connect` that gets a descriptor. -/
def tryConnect (c : Slot) (socket : Int) : Worker :=
  w.lift fun p => p.onConn c fun con => if con.fd ≤ 0 then { con with fd := socket } else con

/-- The part of `init_upstream_connection` that is not about events. -/
def initUpstreamConnection (c : Slot) (fd : Int) : Worker :=
  w.lift fun p => p.onConn c fun con => { con with isConnected := true, fd := fd }

/-! ## shutting down -/

/-- `clear_idle_connections` -/
def clearIdleConnections : Option Worker := do
  let p ← w.toConnectionPool.clearIdleConnections
  pure { w with toConnectionPool := p, cleared := fun _ => true }

/-- What `worker_cycle_process` does on `SIGQUIT`. -/
def quit : Option Worker := do
  let w ← w.clearIdleConnections
  let c ← w.listenConnection
  pure (w.lift fun p => p.httpCloseConnection c)

/-! ## runs -/

/-- The places where a worker touches its connections.  `done`: a response is
through and the handler of the client's connection clears the request; `events`:
handlers and timers are set. -/
inductive Op where
  | accept (fd : Int) (ip now : BitVec 32) (data : Nat)
  | initRequest (c : Slot) (r : Nat)
  | openUpstream (r data : Nat)
  | tryConnect (c : Slot) (socket : Int)
  | connected (c : Slot) (fd : Int)
  | events (c : Slot) (rev wev : EventS)
  | done (c : Slot)
  | close (c : Slot)
  | closeRequest (r : Nat)
  | clearIdle
  | quit

variable {w}

/-- Descriptors that are opened are positive, memory is not in use, and the
functions are called on connections of the kind they are about. -/
def Allows (w : Worker) : Op → Prop
  | .accept fd _ _ data => 0 < fd ∧ w.Fresh data
  | .initRequest c r => c ∈ w.out ∧ w.kind c = .client ∧ ∀ d ∈ w.out, (w.conn d).data ≠ some r
  | .openUpstream _ data => w.Fresh data
  | .tryConnect c _ => c ∈ w.out ∧ w.kind c = .upstream
  | .connected c _ => c ∈ w.out ∧ w.kind c = .upstream
  | .events c _ _ => c ∈ w.out
  | .done c => c ∈ w.out ∧ w.kind c = .client
  | .close _ => True
  | .closeRequest _ => True
  | .clearIdle => True
  | .quit => True

/-- One step. -/
def step (w : Worker) : Op → Option Worker
  | .accept fd ip now data => w.eventAccept cfg maxConnections fd ip now data
  | .initRequest c r => some (w.httpInitRequest c r)
  | .openUpstream r data => w.openUpstreamConnection maxConnections r data
  | .tryConnect c socket => some (w.tryConnect c socket)
  | .connected c fd => some (w.initUpstreamConnection c fd)
  | .events c rev wev => some (w.lift fun p => p.onConn c fun con => { con with rev := rev, wev := wev })
  | .done c => do
      let r ← (w.conn c).data
      let p ← w.toConnectionPool.httpClearRequest r
      pure { w with toConnectionPool := p }
  | .close c => some (w.lift fun p => p.httpCloseConnection c)
  | .closeRequest r => some (w.lift fun p => p.httpCloseRequest r)
  | .clearIdle => w.clearIdleConnections
  | .quit => w.quit

/-- The runs of a worker. -/
def machine : Machine Worker Op where
  init w := ∃ listenFd data, 0 < listenFd ∧ eventProcessInit maxConnections listenFd data = some w
  allows := Allows
  step := step cfg maxConnections

end Worker

/-! ## what `clear_idle_connections` does -/

namespace ConnectionPool

variable {p p' q : ConnectionPool} {c d : Slot} {cs ds : List Slot}

/-- `p'` is `p` after the connections `cs` have been visited, one after the
other: those that were idle are closed, and all have lost their requests. -/
structure Cleared (cs : List Slot) (p p' : ConnectionPool) : Prop where
  closed : p'.closed = p.closed ++ (cs.filter p.idleOpen).map fun c => (p.conn c).fd
  cpool : p'.cpool = (cs.filter p.idleOpen).foldl (fun q c => poolFree q (some c)) p.cpool
  out : p'.out = p.out.diff (cs.filter p.idleOpen)
  listen : p'.listenConnection = p.listenConnection
  conn_of_notMem : ∀ c ∉ cs, p'.conn c = p.conn c
  conn_of_idle : ∀ c ∈ cs, p.idleOpen c = true → p'.conn c = { toConnection := (p.conn c).toConnection.close }
  conn_of_not_idle : ∀ c ∈ cs, p.idleOpen c = false → p'.conn c = { p.conn c with data := none }

theorem cleared_nil : Cleared [] p p :=
  ⟨(List.append_nil _).symm, rfl, rfl, rfl, fun _ _ => rfl, nofun, nofun⟩

/-- What one round of the inner loop does to the connection. -/
theorem clearSlot_of_idle (hidle : p.idleOpen c = true) :
    p.clearSlot c = (p.httpCloseConnection c).onConn c fun con => { con with data := none } := by
  rw [clearSlot, if_pos hidle]

theorem clearSlot_of_not_idle (hidle : p.idleOpen c = false) :
    p.clearSlot c = p.onConn c fun con => { con with data := none } := by
  rw [clearSlot, hidle]
  rfl

/-- One round of the inner loop. -/
theorem cleared_clearSlot (h : p.idleOpen c = true → p.released c = false) :
    Cleared [c] p (p.clearSlot c) := by
  cases hidle : p.idleOpen c with
  | true =>
      have hrel := h hidle
      have hfd : 0 < (p.conn c).fd := by
        rw [idleOpen, Bool.and_eq_true, decide_eq_true_eq] at hidle
        exact hidle.1
      rw [clearSlot_of_idle hidle]
      refine ⟨?_, ?_, ?_, httpCloseConnection_listenConnection, fun d hd => ?_, fun d hd _ => ?_,
        fun d hd hnot => ?_⟩
      · simpa [hidle] using httpCloseConnection_closed hrel hfd
      · simpa [hidle] using httpCloseConnection_cpool hrel
      · simpa [hidle] using httpCloseConnection_out hrel
      · rw [List.mem_singleton] at hd
        rw [onConn_of_ne hd, httpCloseConnection_conn hrel, Function.update_of_ne hd]
      · rw [List.mem_singleton.mp hd, onConn_self, httpCloseConnection_conn hrel, Function.update_self]
      · rw [List.mem_singleton.mp hd, hidle] at hnot
        cases hnot
  | false =>
      rw [clearSlot_of_not_idle hidle]
      refine ⟨?_, ?_, ?_, rfl, fun d hd => ?_, fun d hd hyes => ?_, fun d hd _ => ?_⟩
      · simp [hidle]
      · simp [hidle]
      · simp [hidle]
      · rw [List.mem_singleton] at hd
        rw [onConn_of_ne hd]
      · rw [List.mem_singleton.mp hd, hidle] at hyes
        cases hyes
      · rw [List.mem_singleton.mp hd, onConn_self]

/-- A connection that was not visited is as it was. -/
theorem Cleared.idleOpen (h : Cleared cs p q) (hd : d ∉ cs) : q.idleOpen d = p.idleOpen d := by
  simp only [ConnectionPool.idleOpen, h.conn_of_notMem d hd]

theorem Cleared.released (h : Cleared cs p q) (hd : d ∉ cs) : q.released d = p.released d := by
  simp only [ConnectionPool.released, h.conn_of_notMem d hd]

/-- One part of the connections after the other. -/
theorem Cleared.append (h : Cleared cs p q) (h' : Cleared ds q p') (hds : ∀ d ∈ ds, d ∉ cs) :
    Cleared (cs ++ ds) p p' := by
  have hidle : ds.filter q.idleOpen = ds.filter p.idleOpen :=
    List.filter_congr fun d hd => h.idleOpen (hds d hd)
  have hfds : (ds.filter p.idleOpen).map (fun d => (q.conn d).fd) =
      (ds.filter p.idleOpen).map fun d => (p.conn d).fd :=
    List.map_congr_left fun d hd => by rw [h.conn_of_notMem d (hds d (List.mem_of_mem_filter hd))]
  refine ⟨?_, ?_, ?_, h'.listen.trans h.listen, fun c hc => ?_, fun c hc hyes => ?_, fun c hc hno => ?_⟩
  · rw [h'.closed, h.closed, hidle, hfds, List.filter_append, List.map_append, List.append_assoc]
  · rw [h'.cpool, h.cpool, hidle, List.filter_append, List.foldl_append]
  · rw [h'.out, h.out, hidle, List.filter_append, List.diff_append]
  · rw [List.mem_append, not_or] at hc
    rw [h'.conn_of_notMem c hc.2, h.conn_of_notMem c hc.1]
  · by_cases hc' : c ∈ ds
    · have := hds c hc'
      rw [h'.conn_of_idle c hc' ((h.idleOpen this).trans hyes), h.conn_of_notMem c this]
    · rw [h'.conn_of_notMem c hc', h.conn_of_idle c ((List.mem_append.mp hc).resolve_right hc') hyes]
  · by_cases hc' : c ∈ ds
    · have := hds c hc'
      rw [h'.conn_of_not_idle c hc' ((h.idleOpen this).trans hno), h.conn_of_notMem c this]
    · rw [h'.conn_of_notMem c hc', h.conn_of_not_idle c ((List.mem_append.mp hc).resolve_right hc') hno]

/-- The inner loop. -/
theorem cleared_foldl (hcs : cs.Nodup) (h : ∀ c ∈ cs, p.idleOpen c = true → p.released c = false) :
    Cleared cs p (cs.foldl clearSlot p) := by
  induction cs generalizing p with
  | nil => exact cleared_nil
  | cons c cs ih =>
      obtain ⟨hc, hcs⟩ := List.nodup_cons.mp hcs
      have hfirst : Cleared [c] p (p.clearSlot c) := cleared_clearSlot (h c List.mem_cons_self)
      have hne : ∀ d ∈ cs, d ∉ [c] := fun d hd heq => hc (List.mem_singleton.mp heq ▸ hd)
      refine hfirst.append (ih hcs fun d hd hidle => ?_) hne
      rw [hfirst.released (hne d hd)]
      exact h d (List.mem_cons_of_mem c hd) ((hfirst.idleOpen (hne d hd)).symm.trans hidle)

@[simp] theorem clearSlot_chunks : (p.clearSlot c).cpool.chunks = p.cpool.chunks := by
  unfold clearSlot httpCloseConnection
  split
  · split <;> rfl
  · rfl

@[simp] theorem foldl_clearSlot_chunks : (cs.foldl clearSlot p).cpool.chunks = p.cpool.chunks := by
  induction cs generalizing p with
  | nil => rfl
  | cons c cs ih => rw [List.foldl_cons, ih, clearSlot_chunks]

theorem clearChunks_append (is js : List Nat) :
    clearChunks (is ++ js) p = (clearChunks is p).bind (clearChunks js) := by
  induction is generalizing p with
  | nil => rfl
  | cons i is ih =>
      rw [List.cons_append, clearChunks, clearChunks]
      cases vectorAt p.cpool.chunks i with
      | none => rfl
      | some ch =>
          cases ch with
          | none => rfl
          | some data => exact ih

variable {bases : List Nat}

/-- What an entry of the vector of chunks is. -/
theorem vectorAt_chunks {α : Type} {vec : Vector α} {xs : List α} (h : vec.Holds xs) {i : Nat}
    (hi : i < vec.capacity) : vectorAt vec i = some xs[i]? := by
  rw [vectorAt, if_neg (not_le.mpr hi), h.data]
  by_cases hlt : i < xs.length
  · rw [List.getElem?_append_left (by simpa using hlt)]
    simp [hlt]
  · rw [List.getElem?_append_right (by simpa using hlt), List.getElem?_replicate, if_pos (by simp; omega),
      List.getElem?_eq_none (not_lt.mp hlt)]

/-- The chunks that have been added are walked. -/
theorem clearChunks_range (h : p.cpool.chunks.Holds bases) {n : Nat} (hn : n ≤ bases.length) :
    clearChunks (List.range n) p = some (((bases.take n).flatMap walked).foldl clearSlot p) := by
  induction n with
  | zero => rfl
  | succ n ih =>
      have hlt : n < bases.length := hn
      rw [List.range_succ, clearChunks_append, ih (Nat.le_of_succ_le hn), Option.bind_some, clearChunks,
        foldl_clearSlot_chunks, vectorAt_chunks h (hlt.trans_le h.le), List.getElem?_eq_getElem hlt,
        List.take_succ_eq_append_getElem hlt, List.flatMap_append, List.foldl_append, List.flatMap_singleton]
      rfl

/-- The walk is defined exactly if all entries of the vector have been written. -/
theorem clearIdleConnections_eq (h : p.cpool.chunks.Holds bases) :
    p.clearIdleConnections =
      if bases.length = p.cpool.chunks.capacity then some ((bases.flatMap walked).foldl clearSlot p)
      else none := by
  unfold clearIdleConnections
  split
  · next heq => rw [← heq, clearChunks_range h le_rfl, List.take_length]
  · next hne =>
      obtain ⟨k, hk⟩ : ∃ k, p.cpool.chunks.capacity = bases.length + (k + 1) :=
        ⟨p.cpool.chunks.capacity - bases.length - 1, by have := h.le; omega⟩
      rw [hk, List.range_add, List.range_succ_eq_map, List.map_cons, clearChunks_append,
        clearChunks_range h le_rfl, Option.bind_some, clearChunks, foldl_clearSlot_chunks,
        vectorAt_chunks h (by omega)]
      simp

theorem Kept.clearSlot (h : p.Kept) : (p.clearSlot c).Kept := by
  unfold ConnectionPool.clearSlot
  split
  · exact h.close.dropData
  · exact h.dropData

theorem Kept.foldl_clearSlot (h : p.Kept) : (cs.foldl ConnectionPool.clearSlot p).Kept := by
  induction cs generalizing p with
  | nil => exact h
  | cons c cs ih => exact ih h.clearSlot

/-- The connections of all chunks. -/
def units (p : ConnectionPool) : List Slot := p.cpool.chunks.written.flatMap walked

theorem walked_eq (data : Nat) :
    walked data = (chunkSlots (connectionSize + ptrSize) 8 data).map (· + ptrSize) := by
  rw [chunkSlots_eq_map, List.map_map]
  rfl

theorem Kept.units_eq (h : p.Kept) {bases free : List Nat} (hholds : p.cpool.Holds bases free p.out) :
    p.units = (p.cpool.slots bases).map (· + ptrSize) := by
  rw [units, hholds.chunks.written, Pool.slots, List.map_flatMap, Pool.slotSize, h.size.1, h.size.2]
  exact List.flatMap_congr fun data _ => walked_eq data

theorem Kept.nodup_units (h : p.Kept) : p.units.Nodup := by
  obtain ⟨bases, free, hholds⟩ := h.holds
  rw [h.units_eq hholds]
  exact hholds.perm.nodup_iff.mp hholds.nodup

theorem Kept.mem_units (h : p.Kept) (hc : c ∈ p.out) : c ∈ p.units := by
  obtain ⟨bases, free, hholds⟩ := h.holds
  rw [h.units_eq hholds]
  exact hholds.perm.mem_iff.mp (List.mem_append_right _ hc)

/-- All entries of the vector of chunks have been written. -/
def AllWritten (p : ConnectionPool) : Prop := p.cpool.chunks.written.length = p.cpool.chunks.capacity

/-- `clear_idle_connections` visits every connection, if it is defined. -/
theorem Kept.clearIdleConnections (h : p.Kept) (hidle : ∀ c, p.idleOpen c = true → p.released c = false) :
    (p.AllWritten ∧ ∃ p', p.clearIdleConnections = some p' ∧ Cleared p.units p p' ∧ p'.Kept) ∨
      (¬ p.AllWritten ∧ p.clearIdleConnections = none) := by
  obtain ⟨bases, free, hholds⟩ := h.holds
  rw [AllWritten, clearIdleConnections_eq hholds.chunks, hholds.chunks.written]
  by_cases heq : bases.length = p.cpool.chunks.capacity
  · have hunits : bases.flatMap walked = p.units := by rw [units, hholds.chunks.written]
    rw [if_pos heq, hunits]
    exact .inl ⟨heq, _, rfl, cleared_foldl h.nodup_units fun c _ => hidle c, h.foldl_clearSlot⟩
  · exact .inr ⟨heq, if_neg heq⟩

end ConnectionPool

/-! ## what a worker keeps -/

/-- What a connection is like that was handed out for that. -/
def Stage (kind : Kind) (cleared : Bool) (con : ConnectionT) : Prop :=
  match kind with
  | .listening => 0 < con.fd ∧ con.data = none ∧ con.isConnected = false ∧ con.isIdle = false
  | .client => con.isConnected = true
  | .upstream => con.isIdle = false ∧ (con.isConnected = false → (con.data = none ↔ cleared = true))

namespace Worker

/-- A client's request and its connections point to each other. -/
def Tied (w : Worker) (c : Slot) (r : Nat) : Prop :=
  (w.request r).connection = some c ∧
    ∀ up, (w.request r).upstream = some up →
      up ∈ w.out ∧ w.kind up = .upstream ∧ (w.conn up).data = some r

/-- What every step of a worker keeps. -/
structure Kept (w : Worker) : Prop where
  pool : w.toConnectionPool.Kept
  stage : ∀ c ∈ w.out, Stage (w.kind c) (w.cleared c) (w.conn c)
  rest : ∀ c ∉ w.out, (w.conn c).fd ≤ 0 ∧ (w.conn c).isIdle = false
  tied : ∀ c ∈ w.out, w.kind c = .client → ∀ r, (w.conn c).data = some r → w.Tied c r

variable {w w' : Worker} {c d : Slot} {r : Nat} {kind : Kind} {cfg : Config} {maxConnections : Int}
  {f : ConnectionT → ConnectionT}

namespace Kept

/-- Only clients are idle. -/
theorem kind_of_idle (h : w.Kept) (hidle : (w.conn c).isIdle = true) : c ∈ w.out ∧ w.kind c = .client := by
  have hc : c ∈ w.out := by
    by_contra hout
    rw [(h.rest c hout).2] at hidle
    cases hidle
  refine ⟨hc, ?_⟩
  have hstage := h.stage c hc
  cases hkind : w.kind c with
  | client => rfl
  | listening =>
      rw [hkind] at hstage
      rw [hstage.2.2.2] at hidle
      cases hidle
  | upstream =>
      rw [hkind] at hstage
      rw [hstage.1] at hidle
      cases hidle

/-- `http_close_connection` knows that an idle connection was not released. -/
theorem not_released_of_idle (h : w.Kept) (hidle : w.idleOpen c = true) : w.released c = false := by
  rw [ConnectionPool.idleOpen, Bool.and_eq_true] at hidle
  obtain ⟨hc, hkind⟩ := h.kind_of_idle hidle.2
  have hstage := h.stage c hc
  rw [hkind] at hstage
  have hconnected : (w.conn c).isConnected = true := hstage
  simp [ConnectionPool.released, hconnected]

/-- A connection that was handed out changes, but not its request. -/
theorem onConn (h : w.Kept) (hc : c ∈ w.out) (hstage : Stage (w.kind c) (w.cleared c) (f (w.conn c)))
    (hdata : (f (w.conn c)).data = (w.conn c).data) : (w.lift fun p => p.onConn c f).Kept := by
  have hsame : ∀ d, ((w.lift fun p => p.onConn c f).conn d).data = (w.conn d).data := fun d => by
    by_cases hd : d = c
    · subst hd
      exact (congrArg ConnectionT.data ConnectionPool.onConn_self).trans hdata
    · exact congrArg ConnectionT.data (ConnectionPool.onConn_of_ne hd)
  refine ⟨h.pool.onConn hc, fun d hd => ?_, fun d hd => ?_, fun d hd hkind r hr => ?_⟩
  · by_cases hne : d = c
    · subst hne
      exact ConnectionPool.onConn_self ▸ hstage
    · exact (ConnectionPool.onConn_of_ne hne).symm ▸ h.stage d hd
  · have hne : d ≠ c := fun heq => hd (heq ▸ hc)
    exact (ConnectionPool.onConn_of_ne hne).symm ▸ h.rest d hd
  · obtain ⟨hconnection, hup⟩ := h.tied d hd hkind r ((hsame d).symm.trans hr)
    exact ⟨hconnection, fun up hup' => ⟨(hup up hup').1, (hup up hup').2.1, (hsame up).trans (hup up hup').2.2⟩⟩

/-- A connection is closed, and its request forgets it. -/
theorem close (h : w.Kept) : (w.lift fun p => p.httpCloseConnection c).Kept := by
  cases hrel : w.released c with
  | true =>
      have hsame : (w.lift fun p => p.httpCloseConnection c) = w := by
        rw [lift, ConnectionPool.httpCloseConnection_of_released hrel]
      rw [hsame]
      exact h
  | false =>
      have hconn := ConnectionPool.httpCloseConnection_conn hrel
      have hout := ConnectionPool.httpCloseConnection_out hrel
      have hne : ∀ d ∈ w.out.erase c, d ≠ c := fun d hd heq => h.pool.nodup.not_mem_erase (heq ▸ hd)
      refine ⟨h.pool.close, fun d hd => ?_, fun d hd => ?_, fun d hd hkind r hr => ?_⟩
      · change d ∈ (w.httpCloseConnection c).out at hd
        change Stage (w.kind d) (w.cleared d) ((w.httpCloseConnection c).conn d)
        rw [hout] at hd
        rw [hconn, Function.update_of_ne (hne d hd)]
        exact h.stage d (List.mem_of_mem_erase hd)
      · change d ∉ (w.httpCloseConnection c).out at hd
        change ((w.httpCloseConnection c).conn d).fd ≤ 0 ∧ ((w.httpCloseConnection c).conn d).isIdle = false
        rw [hout] at hd
        rw [hconn]
        by_cases hdc : d = c
        · subst hdc
          rw [Function.update_self]
          exact ⟨by change (-10086 : Int) ≤ 0; decide, rfl⟩
        · rw [Function.update_of_ne hdc]
          exact h.rest d fun hd' => hd ((List.mem_erase_of_ne hdc).mpr hd')
      · change d ∈ (w.httpCloseConnection c).out at hd
        change ((w.httpCloseConnection c).conn d).data = some r at hr
        rw [hout] at hd
        rw [hconn, Function.update_of_ne (hne d hd)] at hr
        obtain ⟨hconnection, hup⟩ := h.tied d (List.mem_of_mem_erase hd) hkind r hr
        have hrequest : (w.lift fun p => p.httpCloseConnection c).request r = (w.forget c).request r :=
          congrFun (ConnectionPool.httpCloseConnection_request hrel) r
        by_cases hc : (w.conn c).data = some r
        · have hother : (w.request r).connection ≠ some c := fun heq =>
            hne d hd (Option.some.inj (hconnection.symm.trans heq))
          rw [ConnectionPool.forget_request hc hother] at hrequest
          rw [Tied, hrequest]
          exact ⟨hconnection, nofun⟩
        · rw [ConnectionPool.forget_request_of_ne hc] at hrequest
          rw [Tied, hrequest]
          refine ⟨hconnection, fun up heq => ?_⟩
          obtain ⟨hmem, hkind', hdata⟩ := hup up heq
          have hupc : up ≠ c := fun heq => hc (heq ▸ hdata)
          refine ⟨?_, hkind', ?_⟩
          · change up ∈ (w.httpCloseConnection c).out
            rw [hout]
            exact (List.mem_erase_of_ne hupc).mpr hmem
          · change ((w.httpCloseConnection c).conn up).data = some r
            rw [hconn, Function.update_of_ne hupc]
            exact hdata

theorem closeIf {c : Option Slot} (h : w.Kept) : (w.lift fun p => p.closeIf c).Kept := by
  cases c with
  | none => exact h
  | some c => exact h.close

theorem closeRequest (h : w.Kept) : (w.lift fun p => p.httpCloseRequest r).Kept := h.closeIf.closeIf

/-- There are too many connections. -/
theorem getIdle_none {data : Nat} (h : w.Kept)
    (hget : w.getIdleConnection maxConnections kind data = some (none, w')) : w'.Kept := by
  unfold getIdleConnection ConnectionPool.getIdleConnection at hget
  split at hget
  · obtain ⟨q, hget', hw⟩ := Option.bind_eq_some_iff.mp hget
    obtain ⟨r, hr, hq⟩ := Option.bind_eq_some_iff.mp hget'
    cases hq
    cases hw
  · cases hget
    exact h

/-- A connection is handed out, and then set up. -/
theorem handOut {data : Nat} (h : w.Kept) (hfresh : w.Fresh data)
    (hget : w.getIdleConnection maxConnections kind data = some (some c, w'))
    (hstage : Stage kind false (f { toConnection := .idle }))
    (hdata : kind = .client → (f { toConnection := .idle }).data = none) :
    (w'.lift fun p => p.onConn c f).Kept ∧ c ∈ w'.out ∧ w'.kind c = kind ∧
      (w'.lift fun p => p.onConn c f).conn c = f { toConnection := .idle } := by
  unfold getIdleConnection at hget
  obtain ⟨⟨c', p⟩, hget', hw⟩ := Option.bind_eq_some_iff.mp hget
  cases c' with
  | none => cases hw
  | some c' =>
      cases hw
      obtain ⟨hpool, hnew⟩ := h.pool.getIdle hfresh hget'
      obtain ⟨hc, hout, hrequest, hconn⟩ := hnew c rfl
      have hself : (p.onConn c f).conn c = f { toConnection := .idle } := by
        rw [ConnectionPool.onConn_self, hconn, Function.update_self]
      have hother : ∀ d, d ≠ c → (p.onConn c f).conn d = w.conn d := fun d hd => by
        rw [ConnectionPool.onConn_of_ne hd, hconn, Function.update_of_ne hd]
      have hmem : ∀ d, d ∈ p.out ↔ d = c ∨ d ∈ w.out := fun d => by rw [hout, List.mem_cons]
      refine ⟨⟨hpool.onConn ((hmem c).mpr (.inl rfl)), fun d hd => ?_, fun d hd => ?_,
        fun d hd hkind r hr => ?_⟩, (hmem c).mpr (.inl rfl), Function.update_self .., hself⟩
      · change Stage (Function.update w.kind c kind d) (Function.update w.cleared c false d)
          ((p.onConn c f).conn d)
        by_cases hdc : d = c
        · subst hdc
          rw [hself, Function.update_self, Function.update_self]
          exact hstage
        · rw [hother d hdc, Function.update_of_ne hdc, Function.update_of_ne hdc]
          exact h.stage d (((hmem d).mp hd).resolve_left hdc)
      · change ((p.onConn c f).conn d).fd ≤ 0 ∧ ((p.onConn c f).conn d).isIdle = false
        have hd' : ¬ (d = c ∨ d ∈ w.out) := fun hor => hd ((hmem d).mpr hor)
        rw [not_or] at hd'
        rw [hother d hd'.1]
        exact h.rest d hd'.2
      · change Function.update w.kind c kind d = .client at hkind
        change ((p.onConn c f).conn d).data = some r at hr
        by_cases hdc : d = c
        · subst hdc
          rw [Function.update_self] at hkind
          rw [hself, hdata hkind] at hr
          cases hr
        · rw [Function.update_of_ne hdc] at hkind
          rw [hother d hdc] at hr
          obtain ⟨hconnection, hup⟩ := h.tied d (((hmem d).mp hd).resolve_left hdc) hkind r hr
          rw [← hrequest] at hconnection hup
          refine ⟨hconnection, fun up heq => ?_⟩
          obtain ⟨hup, hkind', hdata'⟩ := hup up heq
          have hupc : up ≠ c := fun heq => hc (heq ▸ hup)
          refine ⟨(hmem up).mpr (.inr hup), ?_, ?_⟩
          · exact (Function.update_of_ne hupc _ _).trans hkind'
          · exact (congrArg ConnectionT.data (hother up hupc)).trans hdata'

/-- A request gets its client. -/
theorem initRequest (h : w.Kept) (hc : c ∈ w.out) (hkind : w.kind c = .client)
    (hfresh : ∀ d ∈ w.out, (w.conn d).data ≠ some r) : (w.httpInitRequest c r).Kept := by
  unfold httpInitRequest
  by_cases htimedout : (w.conn c).rev.timedout = true
  · rw [lift, if_pos htimedout]
    exact h.close
  · rw [lift, if_neg htimedout]
    obtain ⟨f, hf⟩ : ∃ f, f = fun con : ConnectionT => { con with data := some r } := ⟨_, rfl⟩
    obtain ⟨g, hg⟩ : ∃ g : HttpRequest → HttpRequest,
      g = fun _ => { createHttpRequest with connection := some c } := ⟨_, rfl⟩
    rw [← hf, ← hg]
    have hself : (w.onConn c f).conn c = { w.conn c with data := some r } := by
      rw [ConnectionPool.onConn_self, hf]
    have hother : ∀ d, d ≠ c → (w.onConn c f).conn d = w.conn d :=
      fun d hd => ConnectionPool.onConn_of_ne hd
    refine ⟨(h.pool.onConn hc).onRequest, fun d hd => ?_, fun d hd => ?_, fun d hd hkind' r' hr => ?_⟩
    · change Stage (w.kind d) (w.cleared d) ((w.onConn c f).conn d)
      by_cases hdc : d = c
      · subst hdc
        have hstage := h.stage d hd
        rw [hkind] at hstage ⊢
        rw [hself]
        exact hstage
      · rw [hother d hdc]
        exact h.stage d hd
    · change ((w.onConn c f).conn d).fd ≤ 0 ∧ ((w.onConn c f).conn d).isIdle = false
      rw [hother d fun heq => hd (heq ▸ hc)]
      exact h.rest d hd
    · change ((w.onConn c f).conn d).data = some r' at hr
      by_cases hdc : d = c
      · subst hdc
        rw [hself] at hr
        cases hr
        change (((w.onConn d f).onRequest r g).request r).connection = some d ∧
          ∀ up, (((w.onConn d f).onRequest r g).request r).upstream = some up → _
        rw [ConnectionPool.onRequest_self, hg]
        exact ⟨rfl, nofun⟩
      · rw [hother d hdc] at hr
        have hrr : r' ≠ r := fun heq => hfresh d hd (heq ▸ hr)
        obtain ⟨hconnection, hup⟩ := h.tied d hd hkind' r' hr
        change (((w.onConn c f).onRequest r g).request r').connection = some d ∧
          ∀ up, (((w.onConn c f).onRequest r g).request r').upstream = some up → _
        rw [ConnectionPool.onRequest_of_ne hrr]
        refine ⟨hconnection, fun up heq => ?_⟩
        obtain ⟨hmem, hkind'', hdata⟩ := hup up heq
        have hupc : up ≠ c := by
          rintro rfl
          rw [hkind] at hkind''
          cases hkind''
        exact ⟨hmem, hkind'', (congrArg ConnectionT.data (hother up hupc)).trans hdata⟩

/-- The upstream of a request is set. -/
theorem setUpstream {up : Option Slot} (h : w.Kept)
    (hup : ∀ c, up = some c → c ∈ w.out ∧ w.kind c = .upstream ∧ (w.conn c).data = some r) :
    (w.lift fun p => p.onRequest r fun req => { req with upstream := up }).Kept := by
  obtain ⟨g, hg⟩ : ∃ g : HttpRequest → HttpRequest, g = fun req => { req with upstream := up } := ⟨_, rfl⟩
  rw [← hg]
  refine ⟨h.pool.onRequest, h.stage, h.rest, fun d hd hkind r' hr => ?_⟩
  obtain ⟨hconnection, hold⟩ := h.tied d hd hkind r' hr
  change ((w.onRequest r g).request r').connection = some d ∧
    ∀ up, ((w.onRequest r g).request r').upstream = some up → _
  by_cases hrr : r' = r
  · subst hrr
    rw [ConnectionPool.onRequest_self, hg]
    exact ⟨hconnection, hup⟩
  · rw [ConnectionPool.onRequest_of_ne hrr]
    exact ⟨hconnection, hold⟩

/-- `memzero` on a request, which keeps its client. -/
theorem resetRequest (h : w.Kept) (hr : (w.request r).connection = some c) :
    (w.lift fun p => p.onRequest r fun _ => { createHttpRequest with connection := some c }).Kept := by
  obtain ⟨g, hg⟩ : ∃ g : HttpRequest → HttpRequest,
    g = fun _ => { createHttpRequest with connection := some c } := ⟨_, rfl⟩
  rw [← hg]
  refine ⟨h.pool.onRequest, h.stage, h.rest, fun d hd hkind r' hr' => ?_⟩
  obtain ⟨hconnection, hold⟩ := h.tied d hd hkind r' hr'
  change ((w.onRequest r g).request r').connection = some d ∧
    ∀ up, ((w.onRequest r g).request r').upstream = some up → _
  by_cases hrr : r' = r
  · subst hrr
    rw [ConnectionPool.onRequest_self, hg]
    exact ⟨hr.symm.trans hconnection, nofun⟩
  · rw [ConnectionPool.onRequest_of_ne hrr]
    exact ⟨hconnection, hold⟩

/-- A request gets an upstream, unless there are too many connections. -/
theorem openUpstream {data : Nat} (h : w.Kept) (hfresh : w.Fresh data)
    (hopen : w.openUpstreamConnection maxConnections r data = some w') : w'.Kept := by
  unfold openUpstreamConnection at hopen
  obtain ⟨⟨c, q⟩, hget, hw⟩ := Option.bind_eq_some_iff.mp hopen
  cases hw
  cases c with
  | none => exact (h.getIdle_none hget).setUpstream nofun
  | some c =>
      obtain ⟨hkept, hc, hkind, hconn⟩ := h.handOut (f := fun con => { con with data := some r }) hfresh hget
        ⟨rfl, fun _ => iff_of_false nofun nofun⟩ nofun
      refine hkept.setUpstream fun d hd => ?_
      cases hd
      exact ⟨hc, hkind, congrArg ConnectionT.data hconn⟩

/-- A client is accepted, unless there are too many connections. -/
theorem accept {fd : Int} {ip now : BitVec 32} {data : Nat} (h : w.Kept) (hfresh : w.Fresh data)
    (haccept : w.eventAccept cfg maxConnections fd ip now data = some w') : w'.Kept := by
  unfold eventAccept at haccept
  obtain ⟨⟨c, q⟩, hget, hw⟩ := Option.bind_eq_some_iff.mp haccept
  cases c with
  | none =>
      cases hw
      have hq := h.getIdle_none hget
      exact ⟨hq.pool.congr rfl rfl fun _ _ => rfl, hq.stage, hq.rest, hq.tied⟩
  | some c =>
      cases hw
      exact (h.handOut
        (f := fun con => initConnection cfg now { con with fd := fd, isConnected := true, ip := ip })
        hfresh hget rfl fun _ => rfl).1

/-- A response is through. -/
theorem done {p : ConnectionPool} (h : w.Kept) (hc : c ∈ w.out) (hkind : w.kind c = .client)
    (hr : (w.conn c).data = some r) (hclear : w.httpClearRequest r = some p) :
    (w.lift fun _ => p).Kept := by
  obtain ⟨hconnection, hup⟩ := h.tied c hc hkind r hr
  unfold ConnectionPool.httpClearRequest at hclear
  rw [hconnection] at hclear
  cases hclear
  have hne : (w.request r).upstream ≠ some c := fun heq => by
    rw [(hup c heq).2.1] at hkind
    cases hkind
  obtain ⟨hsame, hmem⟩ := ConnectionPool.closeIf_of_ne (p := w.toConnectionPool) hne
  have hclosed : (w.lift fun p => p.closeIf (w.request r).upstream).Kept := h.closeIf
  have htied := hclosed.tied c (hmem hc) hkind r ((congrArg ConnectionT.data hsame).trans hr)
  have hreset := hclosed.resetRequest htied.1
  refine hreset.onConn (f := fun con => { con with isIdle := true }) (hmem hc) ?_ rfl
  have hstage := hreset.stage c (hmem hc)
  change Stage (w.kind c) _ _ at hstage
  change Stage (w.kind c) _ _
  rw [hkind] at hstage ⊢
  exact hstage

/-- What `clear_idle_connections` leaves. -/
theorem clearIdle (h : w.Kept) (hclear : w.clearIdleConnections = some w') : w'.Kept := by
  unfold clearIdleConnections at hclear
  obtain ⟨p, hp, hw⟩ := Option.bind_eq_some_iff.mp hclear
  cases hw
  obtain ⟨-, p', hp', hcleared, hpool⟩ | ⟨-, hnone⟩ :=
    h.pool.clearIdleConnections fun c hc => h.not_released_of_idle hc
  · cases hp.symm.trans hp'
    have hdata : ∀ d ∈ w.out, w.idleOpen d = false → p.conn d = { w.conn d with data := none } :=
      fun d hd hidle => hcleared.conn_of_not_idle d (h.pool.mem_units hd) hidle
    have hmem : ∀ d, d ∈ p.out ↔ d ∈ w.out ∧ w.idleOpen d = false := fun d => by
      rw [hcleared.out, h.pool.nodup.mem_sdiff_iff, List.mem_filter, not_and, Bool.not_eq_true]
      exact and_congr_right fun hd => ⟨fun himp => himp (h.pool.mem_units hd), fun hidle _ => hidle⟩
    refine ⟨hpool, fun d hd => ?_, fun d hd => ?_, fun d hd hkind r hr => ?_⟩
    · obtain ⟨hd, hidle⟩ := (hmem d).mp hd
      have hstage := h.stage d hd
      change Stage (w.kind d) true (p.conn d)
      rw [hdata d hd hidle]
      cases hkind : w.kind d with
      | listening =>
          rw [hkind] at hstage
          exact ⟨hstage.1, rfl, hstage.2.2⟩
      | client =>
          rw [hkind] at hstage
          exact hstage
      | upstream =>
          rw [hkind] at hstage
          exact ⟨hstage.1, fun _ => iff_of_true rfl rfl⟩
    · change d ∉ p.out at hd
      change (p.conn d).fd ≤ 0 ∧ (p.conn d).isIdle = false
      rw [hmem d, not_and] at hd
      by_cases hunits : d ∈ w.units
      · cases hidle : w.idleOpen d with
        | true =>
            rw [hcleared.conn_of_idle d hunits hidle]
            exact ⟨by change (-10086 : Int) ≤ 0; decide, rfl⟩
        | false =>
            rw [hcleared.conn_of_not_idle d hunits hidle]
            exact h.rest d fun hd' => hd hd' hidle
      · rw [hcleared.conn_of_notMem d hunits]
        exact h.rest d fun hd' => hunits (h.pool.mem_units hd')
    · obtain ⟨hd, hidle⟩ := (hmem d).mp hd
      change (p.conn d).data = some r at hr
      rw [hdata d hd hidle] at hr
      cases hr
  · cases hp.symm.trans hnone

theorem step {op : Op} (h : w.Kept) (hallows : w.Allows op)
    (hstep : w.step cfg maxConnections op = some w') : w'.Kept := by
  cases op with
  | accept fd ip now data => exact h.accept hallows.2 hstep
  | initRequest c r =>
      cases hstep
      exact h.initRequest hallows.1 hallows.2.1 hallows.2.2
  | openUpstream r data => exact h.openUpstream hallows hstep
  | tryConnect c socket =>
      cases hstep
      have hstage := h.stage c hallows.1
      rw [hallows.2] at hstage
      have hsplit : ∀ con : ConnectionT,
          (if con.fd ≤ 0 then { con with fd := socket } else con).isIdle = con.isIdle ∧
            (if con.fd ≤ 0 then { con with fd := socket } else con).isConnected = con.isConnected ∧
            (if con.fd ≤ 0 then { con with fd := socket } else con).data = con.data := fun con => by
        split <;> exact ⟨rfl, rfl, rfl⟩
      obtain ⟨hidle, hconnected, hdata⟩ := hsplit (w.conn c)
      refine h.onConn (f := fun con => if con.fd ≤ 0 then { con with fd := socket } else con)
        hallows.1 ?_ hdata
      rw [hallows.2]
      refine ⟨hidle.trans hstage.1, fun hnot => ?_⟩
      rw [hdata]
      exact hstage.2 (hconnected.symm.trans hnot)
  | connected c fd =>
      cases hstep
      refine h.onConn (f := fun con => { con with isConnected := true, fd := fd }) hallows.1 ?_ rfl
      have hstage := h.stage c hallows.1
      rw [hallows.2] at hstage ⊢
      exact ⟨hstage.1, nofun⟩
  | events c rev wev =>
      cases hstep
      exact h.onConn (f := fun con => { con with rev := rev, wev := wev }) hallows
        (h.stage c hallows) rfl
  | done c =>
      obtain ⟨r, hr, hstep⟩ := Option.bind_eq_some_iff.mp hstep
      obtain ⟨p, hp, hstep⟩ := Option.bind_eq_some_iff.mp hstep
      cases hstep
      exact h.done hallows.1 hallows.2 hr hp
  | close c =>
      cases hstep
      exact h.close
  | closeRequest r =>
      cases hstep
      exact h.closeRequest
  | clearIdle => exact h.clearIdle hstep
  | quit =>
      obtain ⟨q, hq, hstep⟩ := Option.bind_eq_some_iff.mp hstep
      obtain ⟨l, -, hstep⟩ := Option.bind_eq_some_iff.mp hstep
      cases hstep
      exact (h.clearIdle hq).close

end Kept

theorem kept_init {listenFd : Int} {data : Nat} (hfd : 0 < listenFd)
    (h : eventProcessInit maxConnections listenFd data = some w) : w.Kept := by
  unfold eventProcessInit at h
  obtain ⟨p, hp, h⟩ := Option.bind_eq_some_iff.mp h
  obtain ⟨⟨c, q⟩, hget, h⟩ := Option.bind_eq_some_iff.mp h
  obtain ⟨c, rfl, h⟩ := Option.bind_eq_some_iff.mp h
  cases h
  have hpool := ConnectionPool.kept_init hp
  cases hp
  have hstart : Kept { toConnectionPool := _ } :=
    ⟨hpool, fun _ hc => absurd hc List.not_mem_nil, fun _ _ => ⟨le_rfl, rfl⟩,
      fun _ hc => absurd hc List.not_mem_nil⟩
  obtain ⟨hkept, -⟩ := hstart.handOut
    (f := fun con => { con with fd := listenFd, rev := con.rev.addEvent }) (fun _ _ => nofun) hget
    ⟨hfd, rfl, rfl, rfl⟩ nofun
  exact ⟨hkept.pool.congr rfl rfl fun _ _ => rfl, hkept.stage, hkept.rest, hkept.tied⟩

theorem kept_of_reaches (h : (machine cfg maxConnections).Reaches w) : w.Kept :=
  h.invariant (fun _ ⟨_, _, hfd, hinit⟩ => kept_init hfd hinit)
    fun _ _ _ hkept hallows hstep => hkept.step hallows hstep

/-! ## closing -/

/-- `http_close_connection` closes the descriptor and gives the slot back. -/
def Closes (w : Worker) (c : Slot) : Prop :=
  (w.httpCloseConnection c).closed = w.closed ++ [(w.conn c).fd] ∧
    (w.httpCloseConnection c).cpool = poolFree w.cpool (some c)

theorem closes_iff (hfd : 0 < (w.conn c).fd) : w.Closes c ↔ w.released c = false := by
  unfold Closes
  cases hrel : w.released c with
  | true =>
      rw [ConnectionPool.httpCloseConnection_of_released hrel]
      simp
  | false => simp [ConnectionPool.httpCloseConnection_closed hrel hfd,
      ConnectionPool.httpCloseConnection_cpool hrel]

theorem released_eq_false_iff :
    w.released c = false ↔ (w.conn c).isConnected = true ∨ (w.conn c).data ≠ none := by
  rw [ConnectionPool.released, Bool.and_eq_false_iff, or_comm]
  simp [Option.ne_none_iff_isSome]

/-- Which connections `http_close_connection` takes for released. -/
theorem Kept.released_iff (h : w.Kept) (hc : c ∈ w.out) :
    w.released c = false ↔ w.kind c = .client ∨
      w.kind c = .upstream ∧ ((w.conn c).isConnected = true ∨ w.cleared c = false) := by
  have hstage := h.stage c hc
  rw [released_eq_false_iff]
  cases hkind : w.kind c with
  | listening =>
      rw [hkind] at hstage
      simp [hstage.2.1, hstage.2.2.1]
  | client =>
      rw [hkind] at hstage
      have hconnected : (w.conn c).isConnected = true := hstage
      simp [hconnected]
  | upstream =>
      rw [hkind] at hstage
      cases hconnected : (w.conn c).isConnected with
      | true => simp
      | false => simp [hstage.2 hconnected]

/-! ## the idle connections -/

/-- `clear_idle_connections` closes the connections that are idle and leaves the
others as they are. -/
def ClearsExactly (w : Worker) : Prop :=
  ∃ p, w.toConnectionPool.clearIdleConnections = some p ∧
    p.closed = w.closed ++ (w.units.filter w.idleOpen).map (fun c => (w.conn c).fd) ∧
    p.cpool = (w.units.filter w.idleOpen).foldl (fun q c => poolFree q (some c)) w.cpool ∧
    ∀ c ∈ w.units, p.conn c =
      if w.idleOpen c then { toConnection := (w.conn c).toConnection.close } else w.conn c

/-- No connection but those that are idle has a request. -/
def NoneActive (w : Worker) : Prop := ∀ c ∈ w.units, w.idleOpen c = false → (w.conn c).data = none

theorem Kept.clearsExactly_iff (h : w.Kept) : w.ClearsExactly ↔ w.AllWritten ∧ w.NoneActive := by
  obtain ⟨hall, p, hp, hcleared, -⟩ | ⟨hnot, hnone⟩ :=
    h.pool.clearIdleConnections fun c hc => h.not_released_of_idle hc
  · constructor
    · rintro ⟨p', hp', -, -, hconn⟩
      cases hp.symm.trans hp'
      refine ⟨hall, fun c hc hidle => ?_⟩
      have hsame := hconn c hc
      rw [hcleared.conn_of_not_idle c hc hidle, hidle] at hsame
      exact (congrArg ConnectionT.data hsame).symm
    · rintro ⟨-, hactive⟩
      refine ⟨p, hp, hcleared.closed, hcleared.cpool, fun c hc => ?_⟩
      cases hidle : w.idleOpen c with
      | true => exact hcleared.conn_of_idle c hc hidle
      | false =>
          rw [hcleared.conn_of_not_idle c hc hidle, ← hactive c hc hidle]
          rfl
  · constructor
    · rintro ⟨p, hp, -⟩
      cases hp.symm.trans hnone
    · exact fun hall => absurd hall.1 hnot

end Worker

/-! ## main results -/

section

open Worker

variable {cfg : Config} {maxConnections : Int} {w : Worker}

/-- A connection that was handed out and has a descriptor is closed by
`http_close_connection` exactly if it is a client's, or an upstream's that is
connected or was handed out after the last `clear_idle_connections`. -/
theorem close_effective {c : Slot} (h : (machine cfg maxConnections).Reaches w) (hc : c ∈ w.out)
    (hfd : 0 < (w.conn c).fd) :
    w.Closes c ↔ w.kind c = .client ∨
      w.kind c = .upstream ∧ ((w.conn c).isConnected = true ∨ w.cleared c = false) :=
  (closes_iff hfd).trans ((kept_of_reaches h).released_iff hc)

instance (w : Worker) (op : Op) : Decidable (w.Allows op) :=
  match op with
  | .accept fd _ _ data => inferInstanceAs (Decidable (0 < fd ∧ w.Fresh data))
  | .initRequest c r =>
      inferInstanceAs (Decidable (c ∈ w.out ∧ w.kind c = .client ∧ ∀ d ∈ w.out, (w.conn d).data ≠ some r))
  | .openUpstream _ data => inferInstanceAs (Decidable (w.Fresh data))
  | .tryConnect c _ => inferInstanceAs (Decidable (c ∈ w.out ∧ w.kind c = .upstream))
  | .connected c _ => inferInstanceAs (Decidable (c ∈ w.out ∧ w.kind c = .upstream))
  | .events c _ _ => inferInstanceAs (Decidable (c ∈ w.out))
  | .done c => inferInstanceAs (Decidable (c ∈ w.out ∧ w.kind c = .client))
  | .close _ => inferInstanceAs (Decidable True)
  | .closeRequest _ => inferInstanceAs (Decidable True)
  | .clearIdle => inferInstanceAs (Decidable True)
  | .quit => inferInstanceAs (Decidable True)

instance (w : Worker) (op : Op) : Decidable ((machine cfg maxConnections).allows w op) :=
  inferInstanceAs (Decidable (w.Allows op))

/-- A run of a worker that listens on the descriptor 5. -/
theorem exists_of_runTest (cfg : Config) (p : Worker → Bool) (ops : List Op)
    (htest : (eventProcessInit 4 5 1000).any ((machine cfg 4).runTest p ops) = true) :
    ∃ w, (machine cfg 4).Reaches w ∧ p w = true := by
  obtain ⟨w, hinit, hrest⟩ := (Option.any_eq_true _ _).mp htest
  exact Machine.Reaches.exists_of_runTest p ops (.init ⟨5, 1000, by decide, hinit⟩) hrest

/-- A client that has been accepted. -/
theorem close_effective_client :
    ∃ w, (machine forwardsB 4).Reaches w ∧ (w.conn 1176).fd = 7 ∧
      (w.Closes 1176 ↔ w.kind 1176 = .client ∨
        w.kind 1176 = .upstream ∧ ((w.conn 1176).isConnected = true ∨ w.cleared 1176 = false)) := by
  obtain ⟨w, h, htest⟩ := exists_of_runTest forwardsB
    (fun w => decide (1176 ∈ w.out ∧ (w.conn 1176).fd = 7)) [.accept 7 0 0 2000] (by decide +kernel)
  obtain ⟨hc, hfd⟩ := of_decide_eq_true htest
  exact ⟨w, h, hfd, close_effective h hc (by rw [hfd]; decide)⟩

/-- A worker that has handled `SIGQUIT` has closed nothing, and
`http_close_connection` would not close the socket it listens on. -/
theorem quit_leaves_listening :
    ∃ w c, (machine forwardsB 4).Reaches w ∧ w.listenConnection = some c ∧ c ∈ w.out ∧
      (w.conn c).fd = 5 ∧ ¬ w.Closes c ∧ w.closed = [] := by
  obtain ⟨w, h, htest⟩ := exists_of_runTest forwardsB
    (fun w => decide (w.listenConnection = some 1008 ∧ 1008 ∈ w.out ∧ (w.conn 1008).fd = 5 ∧
      w.released 1008 = true ∧ w.closed = [])) [.quit] (by decide +kernel)
  obtain ⟨hlisten, hc, hfd, hrel, hclosed⟩ := of_decide_eq_true htest
  refine ⟨w, 1008, h, hlisten, hc, hfd, ?_, hclosed⟩
  rw [closes_iff (by rw [hfd]; decide), hrel]
  decide

/-- `clear_idle_connections` does what it is meant to exactly if every entry of
the vector of chunks has been written and no connection but the idle ones has a
request. -/
theorem clearIdle_exact (h : (machine cfg maxConnections).Reaches w) :
    w.ClearsExactly ↔ w.AllWritten ∧ w.NoneActive := (kept_of_reaches h).clearsExactly_iff

/-- A client whose connection has been recycled is the one that loses it. -/
theorem clearIdle_exact_recycled :
    ∃ w, (machine forwardsB 4).Reaches w ∧ w.units.filter w.idleOpen = [1176] ∧
      (w.clearIdleConnections.map fun w' => w'.closed) = some [7] ∧
      (w.ClearsExactly ↔ w.AllWritten ∧ w.NoneActive) := by
  obtain ⟨w, h, htest⟩ := exists_of_runTest forwardsB
    (fun w => decide (w.units.filter w.idleOpen = [1176] ∧
      (w.clearIdleConnections.map fun w' => w'.closed) = some [7]))
    [.accept 7 0 0 2000, .initRequest 1176 0, .done 1176] (by decide +kernel)
  obtain ⟨hidle, hclosed⟩ := of_decide_eq_true htest
  exact ⟨w, h, hidle, hclosed, clearIdle_exact h⟩

/-- A client whose request is being served loses it. -/
theorem clearIdle_active : ∃ w, (machine forwardsB 4).Reaches w ∧ ¬ w.ClearsExactly := by
  obtain ⟨w, h, htest⟩ := exists_of_runTest forwardsB
    (fun w => decide (∃ c ∈ w.units, w.idleOpen c = false ∧ (w.conn c).data ≠ none))
    [.accept 7 0 0 2000, .initRequest 1176 0] (by decide +kernel)
  obtain ⟨c, hc, hidle, hdata⟩ := of_decide_eq_true htest
  refine ⟨w, h, fun hclears => hdata ?_⟩
  exact ((kept_of_reaches h).clearsExactly_iff.mp hclears).2 c hc hidle

end

end PWebServer
