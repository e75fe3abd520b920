import PWebServer.Http.Worker
import PWebServer.Lib.Custody

/-!
# Http.Sockets

The sockets of a worker: the one it listens on, those `accept` returns and those
`try_connect` asks for.  A connection has the number of its socket from then on
until it is closed, and the kernel gives out a number again as soon as it is free.

`sockets_owned`: whatever a worker does, also when it shuts down, an open socket
has exactly one connection, and no socket is closed twice.
-/

namespace PWebServer

open Custody

/-! ## the connections of the pool -/

namespace ConnectionPool

variable {p p' : ConnectionPool} {c : Slot} {cs : List Slot} {r : Nat} {opened : List Int} {maxConnections : Int}
  {f : ConnectionT → ConnectionT} {g : HttpRequest → HttpRequest}

/-- `c->fd` -/
def fd (p : ConnectionPool) (c : Slot) : Int := (p.conn c).fd

/-- Of the sockets that were opened, those that were not closed belong to the
connections that are handed out. -/
def Balanced (p : ConnectionPool) (opened : List Int) : Prop :=
  Accounted (0 < ·) opened p.closed p.out p.fd

theorem httpCloseConnection_closed_of_le (h : p.released c = false) (hfd : ¬ 0 < (p.conn c).fd) :
    (p.httpCloseConnection c).closed = p.closed := by
  rw [httpCloseConnection, if_neg (by rw [h]; decide)]
  exact if_neg hfd

theorem getIdleConnection_closed {data : Nat} {d : Option Slot}
    (h : p.getIdleConnection maxConnections data = some (d, p')) : p'.closed = p.closed := by
  unfold getIdleConnection at h
  split at h
  · obtain ⟨r, -, hr⟩ := Option.bind_eq_some_iff.mp h
    cases hr
    rfl
  · cases h
    rfl

namespace Balanced

/-- Descriptors stay where they are. -/
theorem onConn (h : p.Balanced opened) (hfd : (f (p.conn c)).fd = (p.conn c).fd) :
    (p.onConn c f).Balanced opened := by
  refine Accounted.congr h fun d _ => ?_
  rw [fd, fd]
  by_cases hd : d = c
  · rw [hd, onConn_self, hfd]
  · rw [onConn_of_ne hd]

theorem onRequest (h : p.Balanced opened) : (p.onRequest r g).Balanced opened := h

/-- `http_close_connection`, on any connection. -/
theorem close (h : p.Balanced opened) (hkept : p.Kept) : (p.httpCloseConnection c).Balanced opened := by
  cases hrel : p.released c with
  | true =>
      rw [httpCloseConnection_of_released hrel]
      exact h
  | false =>
      have hmem := hkept.mem_out hrel
      have hsame : ∀ d ∈ p.out.erase c, (p.httpCloseConnection c).fd d = p.fd d := fun d hd => by
        have hne : d ≠ c := fun heq => hkept.nodup.not_mem_erase (heq ▸ hd)
        rw [fd, fd, httpCloseConnection_conn hrel, Function.update_of_ne hne]
      unfold Balanced
      rw [httpCloseConnection_out hrel]
      by_cases hfd : 0 < (p.conn c).fd
      · rw [httpCloseConnection_closed hrel hfd]
        exact Accounted.giveBack h hmem hsame
      · rw [httpCloseConnection_closed_of_le hrel hfd]
        exact Accounted.leave h hmem hfd hsame

theorem closeIf {d : Option Slot} (h : p.Balanced opened) (hkept : p.Kept) : (p.closeIf d).Balanced opened := by
  cases d with
  | none => exact h
  | some d => exact h.close hkept

theorem closeRequest (h : p.Balanced opened) (hkept : p.Kept) : (p.httpCloseRequest r).Balanced opened :=
  (h.closeIf hkept).closeIf hkept.closeIf

theorem clearRequest (h : p.Balanced opened) (hkept : p.Kept) (hclear : p.httpClearRequest r = some p') :
    p'.Balanced opened := by
  unfold httpClearRequest at hclear
  obtain ⟨c, -, hclear⟩ := Option.bind_eq_some_iff.mp hclear
  cases hclear
  exact onConn (h.closeIf hkept).onRequest rfl

theorem clearSlot (h : p.Balanced opened) (hkept : p.Kept) : (p.clearSlot c).Balanced opened := by
  unfold ConnectionPool.clearSlot
  split
  · exact (h.close hkept).onConn rfl
  · exact h.onConn rfl

theorem foldl_clearSlot (h : p.Balanced opened) (hkept : p.Kept) :
    (cs.foldl ConnectionPool.clearSlot p).Balanced opened := by
  induction cs generalizing p with
  | nil => exact h
  | cons c cs ih => exact ih (h.clearSlot hkept) hkept.clearSlot

theorem clearIdle (h : p.Balanced opened) (hkept : p.Kept) (hclear : p.clearIdleConnections = some p') :
    p'.Balanced opened := by
  obtain ⟨bases, free, hholds⟩ := hkept.holds
  rw [clearIdleConnections_eq hholds.chunks] at hclear
  split at hclear
  · cases hclear
    exact h.foldl_clearSlot hkept
  · cases hclear

/-- A connection is handed out; it has no socket yet. -/
theorem getIdle {data : Nat} {d : Option Slot} (h : p.Balanced opened) (hkept : p.Kept) (hfresh : p.Fresh data)
    (hget : p.getIdleConnection maxConnections data = some (d, p')) : p'.Balanced opened := by
  cases d with
  | none =>
      rw [getIdleConnection_none hget]
      exact h
  | some d =>
      obtain ⟨-, hnew⟩ := hkept.getIdle hfresh hget
      obtain ⟨hd, hout, -, hconn⟩ := hnew d rfl
      have hself : ¬ 0 < p'.fd d := by
        rw [fd, hconn, Function.update_self]
        decide
      have hother : ∀ e ∈ p.out, p'.fd e = p.fd e := fun e he => by
        have hne : e ≠ d := fun heq => hd (heq ▸ he)
        rw [fd, fd, hconn, Function.update_of_ne hne]
      unfold Balanced
      rw [hout, getIdleConnection_closed hget]
      exact Accounted.enter (Accounted.congr h hother) hself

/-- A connection that has no socket is given one. -/
theorem setFd {socket : Int} (h : p.Balanced opened) (hkept : p.Kept) (hc : c ∈ p.out)
    (hnone : ¬ 0 < (p.conn c).fd) (hnew : (f (p.conn c)).fd = socket)
    (hin : 0 < socket → opened.count socket = p.closed.count socket) :
    (p.onConn c f).Balanced (opened ++ [socket]) := by
  have hself : (p.onConn c f).fd c = socket := by rw [fd, onConn_self, hnew]
  rw [← hself] at hin ⊢
  refine Accounted.take h hkept.nodup hc hnone hin fun d _ hd => ?_
  rw [fd, fd, onConn_of_ne hd]

/-- Nothing is opened. -/
theorem append_nil {opens : List Int} (h : p.Balanced opened) (hnil : opens = []) :
    p.Balanced (opened ++ opens) := by
  rw [hnil, List.append_nil]
  exact h

end Balanced

end ConnectionPool

/-! ## the runs of a worker -/

/-- A worker, with the sockets it has got so far. -/
structure Sockets where
  worker : Worker
  opened : List Int

namespace Worker

/-- The sockets the kernel opens in a step. -/
def opens (w : Worker) : Op → List Int
  | .accept fd _ _ _ => [fd]
  | .tryConnect c socket => if (w.conn c).fd ≤ 0 ∧ 0 < socket then [socket] else []
  | _ => []

/-- `init_upstream_connection` is called with the descriptor the connection has. -/
def SameSocket (w : Worker) : Op → Prop
  | .connected c fd => fd = (w.conn c).fd
  | _ => True

end Worker

namespace Sockets

open Worker

variable (cfg : Config) (maxConnections : Int) (s : Sockets)

/-- The socket was opened and has not been closed since. -/
def IsOpen (fd : Int) : Prop := s.worker.closed.count fd < s.opened.count fd

/-- The runs of a worker.  A new socket gets a number that no open one has. -/
def machine : Machine Sockets Op where
  init s := ∃ listenFd data, 0 < listenFd ∧ eventProcessInit maxConnections listenFd data = some s.worker ∧
    s.opened = [listenFd]
  allows s op := s.worker.Allows op ∧ s.worker.SameSocket op ∧
    ∀ fd ∈ s.worker.opens op, s.opened.count fd = s.worker.closed.count fd
  step s op := (s.worker.step cfg maxConnections op).map fun w => ⟨w, s.opened ++ s.worker.opens op⟩

variable {cfg maxConnections} {w w' : Worker} {c : Slot} {r : Nat} {opened : List Int}

/-- Handing out a connection. -/
theorem balanced_getIdle {kind : Kind} {data : Nat} {d : Option Slot} (h : w.Balanced opened) (hkept : w.Kept)
    (hfresh : w.Fresh data) (hget : w.getIdleConnection maxConnections kind data = some (d, w')) :
    w'.Balanced opened ∧ w'.toConnectionPool.Kept ∧
      ∀ c, d = some c → c ∈ w'.out ∧ (w'.conn c).fd = -33 ∧ w'.closed = w.closed := by
  unfold Worker.getIdleConnection at hget
  obtain ⟨⟨e, p⟩, hget', hw⟩ := Option.bind_eq_some_iff.mp hget
  have hpool := hkept.pool.getIdle hfresh hget'
  have hbalanced := h.getIdle hkept.pool hfresh hget'
  have hclosed := ConnectionPool.getIdleConnection_closed hget'
  cases e with
  | none =>
      cases hw
      exact ⟨hbalanced, hpool.1, nofun⟩
  | some e =>
      cases hw
      refine ⟨hbalanced, hpool.1, fun c hc => ?_⟩
      cases hc
      obtain ⟨-, hout, -, hconn⟩ := hpool.2 e rfl
      refine ⟨?_, ?_, hclosed⟩
      · change e ∈ p.out
        rw [hout]
        exact List.mem_cons_self
      · change (p.conn e).fd = -33
        rw [hconn, Function.update_self]
        rfl

/-- A client is accepted, or its socket is closed at once. -/
theorem balanced_accept {fd : Int} {ip now : BitVec 32} {data : Nat} (h : w.Balanced opened) (hkept : w.Kept)
    (hfresh : w.Fresh data) (hin : opened.count fd = w.closed.count fd)
    (haccept : w.eventAccept cfg maxConnections fd ip now data = some w') : w'.Balanced (opened ++ [fd]) := by
  unfold eventAccept at haccept
  obtain ⟨⟨d, q⟩, hget, hw⟩ := Option.bind_eq_some_iff.mp haccept
  obtain ⟨hbalanced, hpool, hnew⟩ := balanced_getIdle h hkept hfresh hget
  cases d with
  | none =>
      cases hw
      exact Accounted.pass hbalanced fd
  | some d =>
      cases hw
      obtain ⟨hd, hfd, hclosed⟩ := hnew d rfl
      exact hbalanced.setFd hpool hd (by rw [hfd]; decide) rfl fun _ => hclosed ▸ hin

/-- `try_connect` asks for a socket if the connection has none. -/
theorem balanced_tryConnect {socket : Int} (h : w.Balanced opened) (hkept : w.Kept) (hc : c ∈ w.out)
    (hin : ∀ fd ∈ w.opens (.tryConnect c socket), opened.count fd = w.closed.count fd) :
    (w.tryConnect c socket).Balanced (opened ++ w.opens (.tryConnect c socket)) := by
  by_cases hfd : (w.conn c).fd ≤ 0
  · have hnew : (if (w.conn c).fd ≤ 0 then { w.conn c with fd := socket } else w.conn c).fd = socket := by
      rw [if_pos hfd]
    have hset : 0 < socket → opened.count socket = w.closed.count socket := fun hsocket =>
      hin socket (by rw [opens, if_pos ⟨hfd, hsocket⟩]; exact List.mem_cons_self)
    have hgiven := h.setFd hkept.pool hc (not_lt.mpr hfd) hnew hset
    by_cases hsocket : 0 < socket
    · rw [opens, if_pos ⟨hfd, hsocket⟩]
      exact hgiven
    · rw [opens, if_neg fun hand => hsocket hand.2, List.append_nil]
      exact Accounted.of_not_thing hgiven hsocket
  · rw [opens, if_neg fun hand => hfd hand.1, List.append_nil]
    exact h.onConn (by rw [if_neg hfd])

/-- Every step keeps the balance. -/
theorem balanced_step {op : Op} (h : w.Balanced opened) (hkept : w.Kept) (hallows : w.Allows op)
    (hsame : w.SameSocket op) (hin : ∀ fd ∈ w.opens op, opened.count fd = w.closed.count fd)
    (hstep : w.step cfg maxConnections op = some w') : w'.Balanced (opened ++ w.opens op) := by
  cases op with
  | accept fd ip now data => exact balanced_accept h hkept hallows.2 (hin fd List.mem_cons_self) hstep
  | initRequest c r =>
      cases hstep
      refine ConnectionPool.Balanced.append_nil ?_ rfl
      unfold Worker.httpInitRequest lift
      dsimp only
      split
      · exact h.close hkept.pool
      · exact (h.onConn rfl).onRequest
  | openUpstream r data =>
      refine ConnectionPool.Balanced.append_nil ?_ rfl
      obtain ⟨⟨d, q⟩, hget, hw⟩ := Option.bind_eq_some_iff.mp hstep
      obtain ⟨hbalanced, -, -⟩ := balanced_getIdle h hkept hallows hget
      cases d with
      | none =>
          cases hw
          exact hbalanced.onRequest
      | some d =>
          cases hw
          exact (hbalanced.onConn rfl).onRequest
  | tryConnect c socket =>
      cases hstep
      exact balanced_tryConnect h hkept hallows.1 hin
  | connected c fd =>
      cases hstep
      have hfd : fd = (w.conn c).fd := hsame
      exact (h.onConn (f := fun con => { con with isConnected := true, fd := fd }) hfd).append_nil rfl
  | events c rev wev =>
      cases hstep
      exact (h.onConn rfl).append_nil rfl
  | done c =>
      obtain ⟨r, -, hstep⟩ := Option.bind_eq_some_iff.mp hstep
      obtain ⟨p, hp, hstep⟩ := Option.bind_eq_some_iff.mp hstep
      cases hstep
      exact (h.clearRequest hkept.pool hp).append_nil rfl
  | close c =>
      cases hstep
      exact (h.close hkept.pool).append_nil rfl
  | closeRequest r =>
      cases hstep
      exact (h.closeRequest hkept.pool).append_nil rfl
  | clearIdle =>
      obtain ⟨p, hp, hw⟩ := Option.bind_eq_some_iff.mp hstep
      cases hw
      exact (h.clearIdle hkept.pool hp).append_nil rfl
  | quit =>
      obtain ⟨q, hq, hstep⟩ := Option.bind_eq_some_iff.mp hstep
      obtain ⟨l, -, hstep⟩ := Option.bind_eq_some_iff.mp hstep
      cases hstep
      have hkept' := (hkept.clearIdle hq).pool
      obtain ⟨p, hp, hw⟩ := Option.bind_eq_some_iff.mp hq
      cases hw
      exact ((h.clearIdle hkept.pool hp).close hkept').append_nil rfl

theorem balanced_poolInit {p : ConnectionPool} (h : connectionPoolInit = some p) : p.Balanced [] := by
  cases h
  exact ⟨fun _ _ => rfl, fun _ _ => Nat.zero_le 1⟩

/-- Only the socket the worker listens on is open when it starts. -/
theorem balanced_init {listenFd : Int} {data : Nat}
    (h : eventProcessInit maxConnections listenFd data = some w) : w.Balanced [listenFd] := by
  unfold eventProcessInit Worker.getIdleConnection at h
  obtain ⟨p, hp, h⟩ := Option.bind_eq_some_iff.mp h
  obtain ⟨⟨c, q⟩, hget, h⟩ := Option.bind_eq_some_iff.mp h
  obtain ⟨⟨d, p'⟩, hget', hq⟩ := Option.bind_eq_some_iff.mp hget
  obtain ⟨c, rfl, h⟩ := Option.bind_eq_some_iff.mp h
  cases h
  have hpool := ConnectionPool.kept_init hp
  have hfresh : p.Fresh data := by
    cases hp
    exact fun _ _ hc => absurd hc List.not_mem_nil
  have hbalanced := (balanced_poolInit hp).getIdle hpool hfresh hget'
  obtain ⟨hkept, hnew⟩ := hpool.getIdle hfresh hget'
  cases d with
  | none => cases hq
  | some d =>
      cases hq
      obtain ⟨-, hout, -, hconn⟩ := hnew c rfl
      have hfd : ¬ 0 < (p'.conn c).fd := by
        rw [hconn, Function.update_self]
        decide
      have hclosed := ConnectionPool.getIdleConnection_closed hget'
      refine ConnectionPool.Balanced.setFd (f := fun con => { con with fd := listenFd, rev := con.rev.addEvent })
        hbalanced hkept (hout ▸ List.mem_cons_self) hfd rfl fun _ => ?_
      rw [hclosed]
      cases hp
      rfl

/-- What a run keeps. -/
theorem kept_of_reaches {s : Sockets} (h : (machine cfg maxConnections).Reaches s) :
    s.worker.Kept ∧ s.worker.Balanced s.opened := by
  refine h.invariant (I := fun s => s.worker.Kept ∧ s.worker.Balanced s.opened)
    (fun s ⟨listenFd, data, hfd, hinit, hopened⟩ => ?_) fun s op s' ⟨hkept, hbalanced⟩ hallows hstep => ?_
  · exact ⟨kept_init hfd hinit, hopened ▸ balanced_init hinit⟩
  · obtain ⟨w, hw, hs⟩ := Option.map_eq_some_iff.mp hstep
    cases hs
    exact ⟨hkept.step hallows.1 hw, balanced_step hbalanced hkept hallows.1 hallows.2.1 hallows.2.2 hw⟩

end Sockets

/-- In every run of a worker, through its shutdown too, a socket is open exactly
while a connection has its number; that is one connection only, and one that has
not been given back.  No socket is closed more often than it was opened. -/
theorem sockets_owned {cfg : Config} {maxConnections : Int} {s : Sockets} {fd : Int}
    (h : (Sockets.machine cfg maxConnections).Reaches s) (hfd : 0 < fd) :
    s.worker.closed.count fd ≤ s.opened.count fd ∧
      (s.IsOpen fd ↔ ∃ c, (s.worker.conn c).fd = fd) ∧
        ∀ c d, (s.worker.conn c).fd = fd → (s.worker.conn d).fd = fd → c = d ∧ c ∈ s.worker.out := by
  obtain ⟨hkept, hbalanced⟩ := Sockets.kept_of_reaches h
  have hout : ∀ c, (s.worker.conn c).fd = fd → c ∈ s.worker.out := fun c hc => by
    by_contra hnot
    have := (hkept.rest c hnot).1
    omega
  have hcount := hbalanced.count fd hfd
  refine ⟨Accounted.returned_le hbalanced hfd, ⟨fun hopen => ?_, fun ⟨c, hc⟩ => ?_⟩, fun c d hc hd => ?_⟩
  · have hheld : 0 < held s.worker.out s.worker.fd fd := by
      unfold Sockets.IsOpen at hopen
      omega
    obtain ⟨c, -, hc⟩ := List.countP_pos_iff.mp hheld
    exact ⟨c, of_decide_eq_true hc⟩
  · have hheld : 0 < held s.worker.out s.worker.fd (s.worker.fd c) := held_pos (hout c hc)
    have heq : s.worker.fd c = fd := hc
    rw [heq] at hheld
    unfold Sockets.IsOpen
    omega
  · have hsingle : held s.worker.out s.worker.fd (s.worker.fd d) ≤ 1 := by
      have heq : s.worker.fd d = fd := hd
      rw [heq]
      exact hbalanced.single fd hfd
    exact ⟨eq_of_held hsingle (hout d hd) (hout c hc) (hc.trans hd.symm), hout c hc⟩

instance (w : Worker) (op : Worker.Op) : Decidable (w.SameSocket op) :=
  match op with
  | .connected c fd => inferInstanceAs (Decidable (fd = (w.conn c).fd))
  | .accept .. | .initRequest .. | .openUpstream .. | .tryConnect .. | .events .. | .done .. | .close .. |
    .closeRequest .. | .clearIdle | .quit => inferInstanceAs (Decidable True)

instance (cfg : Config) (maxConnections : Int) (s : Sockets) (op : Worker.Op) :
    Decidable ((Sockets.machine cfg maxConnections).allows s op) :=
  inferInstanceAs (Decidable (_ ∧ _ ∧ ∀ _ ∈ _, _))

/-- A client and its back end are closed, and the next client gets the number of
the first; the worker shuts down while it is served. -/
theorem sockets_owned_again :
    ∃ s, (Sockets.machine forwardsB 4).Reaches s ∧ s.opened = [5, 7, 8, 7] ∧ s.worker.closed = [7, 8] ∧
      s.worker.closed.count 7 ≤ s.opened.count 7 ∧ (s.IsOpen 7 ↔ ∃ c, (s.worker.conn c).fd = 7) ∧
        ∀ c d, (s.worker.conn c).fd = 7 → (s.worker.conn d).fd = 7 → c = d ∧ c ∈ s.worker.out := by
  obtain ⟨w, hinit, htest⟩ := (Option.any_eq_true _ _).mp (show
    (Worker.eventProcessInit 4 5 1000).any (fun w => (Sockets.machine forwardsB 4).runTest
      (fun s => decide (s.opened = [5, 7, 8, 7] ∧ s.worker.closed = [7, 8]))
      [.accept 7 0 0 2000, .initRequest 1176 0, .openUpstream 0 2000, .tryConnect 1344 8, .connected 1344 8,
        .closeRequest 0, .accept 7 0 0 2000, .quit] ⟨w, [5]⟩) = true by decide +kernel)
  obtain ⟨s, h, hs⟩ := Machine.Reaches.exists_of_runTest _ _
    (.init ⟨5, 1000, by decide, hinit, rfl⟩ : (Sockets.machine forwardsB 4).Reaches ⟨w, [5]⟩) htest
  obtain ⟨hopened, hclosed⟩ := of_decide_eq_true hs
  exact ⟨s, h, hopened, hclosed, sockets_owned h (by decide)⟩

end PWebServer
