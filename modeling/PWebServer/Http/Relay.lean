import PWebServer.Http.Handlers
import PWebServer.Lib.History

/-!
# Http.Relay

A response that comes from a back end, on its way through the send buffer.

`http_recv_upstream` appends to the buffer and `handle_response` sends from its
front, in any order and in pieces of any size.  What is in the buffer is what
has been received and not yet been sent (`Relaying`), so that the client gets
the bytes of the back end, in order, and all of them before the response counts
as complete (`relay_lawful`).
-/

namespace PWebServer

open History

/-! ## the law -/

/-- The bytes that a deed sends to the client. -/
def Deed.sent : Deed → List UInt8
  | .toClient xs => xs
  | _ => []

/-- The bytes that a deed receives from the back end. -/
def Deed.received : Deed → List UInt8
  | .fromUpstream xs => xs
  | _ => []

/-- What the client has been sent. -/
def clientBytes (log : List Deed) : List UInt8 := log.flatMap Deed.sent

/-- What has been received from the back end. -/
def upstreamBytes (log : List Deed) : List UInt8 := log.flatMap Deed.received

/-- The deed `d`, done after those of `p`: what the client has been sent is the
beginning of what has come from the back end, and all of it when the response is
said to be complete. -/
structure RelayLaw (p : List Deed) (d : Deed) : Prop where
  prefixed : clientBytes (p ++ [d]) <+: upstreamBytes (p ++ [d])
  complete : d = .responseDone → clientBytes p = upstreamBytes p
  noFile : ∀ places, d ≠ .fileToClient places

/-- An error page has been constructed, or the first request is over. -/
def Deed.settles : Deed → Bool
  | .constructErr _ _ | .clearRequest _ => true
  | _ => false

/-- The law for the first request of a connection, once it is passed on and as
long as `construct_err` is not called. -/
def RelayedFirst (p : List Deed) (d : Deed) : Prop :=
  (∀ d' ∈ p, d'.settles = false) → .openUpstream ∈ p → RelayLaw p d

/-! ## deeds that are about something else -/

/-- Bytes are received or sent, or the response is complete. -/
def Deed.relays : Deed → Bool
  | .toClient _ | .fromUpstream _ | .fileToClient _ | .responseDone => true
  | _ => false

@[simp] theorem clientBytes_append (xs ys : List Deed) :
    clientBytes (xs ++ ys) = clientBytes xs ++ clientBytes ys := List.flatMap_append

@[simp] theorem upstreamBytes_append (xs ys : List Deed) :
    upstreamBytes (xs ++ ys) = upstreamBytes xs ++ upstreamBytes ys := List.flatMap_append

theorem clientBytes_quiet {ds : List Deed} (h : ∀ d ∈ ds, d.relays = false) : clientBytes ds = [] := by
  rw [clientBytes, List.flatMap_eq_nil_iff]
  intro d hd
  have hquiet := h d hd
  cases d <;> first | rfl | contradiction

theorem upstreamBytes_quiet {ds : List Deed} (h : ∀ d ∈ ds, d.relays = false) : upstreamBytes ds = [] := by
  rw [upstreamBytes, List.flatMap_eq_nil_iff]
  intro d hd
  have hquiet := h d hd
  cases d <;> first | rfl | contradiction

/-- Other deeds keep the law. -/
theorem lawful_quiet {log ds : List Deed} (h : Lawful RelayedFirst log)
    (hbytes : clientBytes log <+: upstreamBytes log) (hds : ∀ d ∈ ds, d.relays = false) :
    Lawful RelayedFirst (log ++ ds) := by
  refine lawful_append.mpr ⟨h, fun p d rest heq _ _ => ?_⟩
  have hp : ∀ d' ∈ p, d'.relays = false := fun d' hd' => hds d' (by rw [heq]; exact List.mem_append_left _ hd')
  have hd : d.relays = false := hds d (by rw [heq]; exact List.mem_append_right _ List.mem_cons_self)
  have hone : ∀ d' ∈ [d], d'.relays = false := fun d' hd' => by rw [List.mem_singleton.mp hd']; exact hd
  refine ⟨?_, fun hdone => ?_, fun places hfile => ?_⟩
  · rw [clientBytes_append, clientBytes_append, upstreamBytes_append, upstreamBytes_append,
      clientBytes_quiet hp, clientBytes_quiet hone, upstreamBytes_quiet hp, upstreamBytes_quiet hone]
    simpa using hbytes
  · rw [hdone] at hd
    contradiction
  · rw [hfile] at hd
    contradiction

/-- Before the request is passed on the law says nothing, nor when it is over. -/
theorem lawful_unforwarded {log ds : List Deed} (h : Lawful RelayedFirst log)
    (hopen : .openUpstream ∉ log ++ ds) : Lawful RelayedFirst (log ++ ds) := by
  refine lawful_append.mpr ⟨h, fun p d rest heq _ hforward => absurd ?_ hopen⟩
  rw [heq]
  cases List.mem_append.mp hforward with
  | inl hlog => exact List.mem_append_left _ hlog
  | inr hp => exact List.mem_append_right _ (List.mem_append_left _ hp)

theorem lawful_settled {log ds : List Deed} (h : Lawful RelayedFirst log)
    (hsettled : ∃ d ∈ log, d.settles = true) : Lawful RelayedFirst (log ++ ds) := by
  obtain ⟨d, hd, hset⟩ := hsettled
  refine h.append fun p d' _ hunsettled _ => ?_
  rw [hunsettled d (List.mem_append_left _ hd)] at hset
  contradiction

/-! ## where the first request is -/

/-- The response of a back end is passed on. -/
structure Relaying (s : Exchange) : Prop where
  bytes : upstreamBytes s.log = clientBytes s.log ++ s.sendBuffer.pending
  begins : s.sendBuffer.begin ≤ s.sendBuffer.bytes.length
  noFile : s.resourceFd ≤ 0
  wev : s.c.wev.handler ≠ some .handleResponseFile
  source : s.r.upstream ≠ none ∨ s.r.responseDone = true
  line : s.LineRead

/-- The request line of the first request is read. -/
structure FirstLine (s : Exchange) : Prop where
  rev : s.c.rev.handler = some .httpInitRequest ∨ s.c.rev.handler = some .ngxHttpProcessRequestLine
  wev : s.c.wev.handler = none
  detached : s.r.upstream = none
  buffer : s.sendBuffer = {}
  noFile : s.resourceFd ≤ 0
  client : clientBytes s.log = []
  upstream : upstreamBytes s.log = []
  unforwarded : .openUpstream ∉ s.log

/-- Where the first request of a connection is. -/
inductive FirstRequest (s : Exchange) : Prop
  | line (h : FirstLine s)
  /-- it is not passed on -/
  | own (hline : s.LineRead) (hlog : .openUpstream ∉ s.log)
  | relaying (h : Relaying s)
  | settled (h : ∃ d ∈ s.log, d.settles = true)
  | closed (h : s.closed = true)

/-! ## what the moves do to it -/

section

variable {cfg : Config} {l : Label} {s s' : Exchange}

/-- A request that is not passed on is not passed on later. -/
theorem FirstRequest.own_move (hlaw : Lawful RelayedFirst s.log) (hline : s.LineRead)
    (hlog : .openUpstream ∉ s.log) (hmove : Move cfg l s s') :
    Lawful RelayedFirst s'.log ∧ FirstRequest s' := by
  obtain ⟨ds, hds, hlookup⟩ := hmove.log
  have hlog' : .openUpstream ∉ s.log ++ ds := by
    intro hmem
    cases List.mem_append.mp hmem with
    | inl hold => exact hlog hold
    | inr hnew => exact hline.not_starts (.inr (hlookup hnew))
  rw [hds]
  refine ⟨lawful_unforwarded hlaw hlog', ?_⟩
  cases hline.move hmove with
  | inl hline' => exact .own hline' (by rw [hds]; exact hlog')
  | inr hclear =>
      obtain ⟨us, hus⟩ := hclear
      exact .settled ⟨_, hus, rfl⟩

/-- What is settled stays so. -/
theorem FirstRequest.settled_move (hlaw : Lawful RelayedFirst s.log)
    (hsettled : ∃ d ∈ s.log, d.settles = true) (hmove : Move cfg l s s') :
    Lawful RelayedFirst s'.log ∧ FirstRequest s' := by
  obtain ⟨ds, hds, -⟩ := hmove.log
  obtain ⟨d, hd, hset⟩ := hsettled
  rw [hds]
  refine ⟨lawful_settled hlaw ⟨d, hd, hset⟩, .settled ⟨d, ?_, hset⟩⟩
  rw [hds]
  exact List.mem_append_left _ hd

/-- An error page settles the matter. -/
theorem FirstRequest.err_move {status : Int} {s₁ : Exchange} {ds : List Deed}
    (hlaw : Lawful RelayedFirst s.log) (hbytes : clientBytes s.log <+: upstreamBytes s.log)
    (hds : ∀ d ∈ ds, d = .balancer (.constructErr 502) ∨ ∃ us, d = .balancer (.connectTimedout us))
    (hlog : s₁.log = s.log ++ ds) (h : s₁.constructErr cfg status = .ok s') :
    Lawful RelayedFirst s'.log ∧ FirstRequest s' := by
  have hlog' : s'.log = s.log ++ (ds ++ [.constructErr status s'.sendBuffer.pending]) := by
    rw [constructErr_log h, hlog, List.append_assoc]
  have hquiet : ∀ d ∈ ds ++ [Deed.constructErr status s'.sendBuffer.pending], d.relays = false := by
    intro d hd
    cases List.mem_append.mp hd with
    | inl hold => rcases hds d hold with hd' | ⟨us, hd'⟩ <;> rw [hd'] <;> rfl
    | inr hnew =>
        rw [List.mem_singleton.mp hnew]
        rfl
  rw [hlog']
  refine ⟨lawful_quiet hlaw hbytes hquiet, .settled ⟨.constructErr status s'.sendBuffer.pending, ?_, rfl⟩⟩
  rw [hlog']
  exact List.mem_append_right _ (List.mem_append_right _ List.mem_cons_self)

theorem Deed.relays_of_ends {d : Deed} (h : d.ends = true) : d.relays = false := by
  cases d <;> first | rfl | contradiction

theorem Deed.relays_of_act {acts : List Act} {d : Deed} (h : d ∈ acts.map Deed.balancer) :
    d.relays = false := by
  obtain ⟨a, -, hd⟩ := List.mem_map.mp h
  rw [← hd]
  rfl

/-- The connection is closed. -/
theorem FirstRequest.close_move (hlaw : Lawful RelayedFirst s.log)
    (hbytes : clientBytes s.log <+: upstreamBytes s.log) (calls : Calls) :
    Lawful RelayedFirst (s.httpCloseRequest calls).log ∧ FirstRequest (s.httpCloseRequest calls) := by
  obtain ⟨ds, hds, hends⟩ := httpCloseRequest_log calls s
  rw [hds]
  refine ⟨lawful_quiet hlaw hbytes fun d hd => Deed.relays_of_ends (hends d hd), .closed ?_⟩
  rw [httpCloseRequest_eq]

/-- Nothing is sent, received or looked up while the line is read. -/
theorem FirstLine.tell (h : FirstLine s) (ds : List Deed) (hlog : s'.log = s.log ++ ds)
    (hds : ∀ d ∈ ds, d.relays = false ∧ d ≠ .openUpstream)
    (hrev : s'.c.rev.handler = some .httpInitRequest ∨ s'.c.rev.handler = some .ngxHttpProcessRequestLine)
    (hwev : s'.c.wev.handler = s.c.wev.handler) (hup : s'.r.upstream = s.r.upstream)
    (hbuf : s'.sendBuffer = s.sendBuffer) (hfd : s'.resourceFd = s.resourceFd) : FirstLine s' where
  rev := hrev
  wev := hwev.trans h.wev
  detached := hup.trans h.detached
  buffer := hbuf.trans h.buffer
  noFile := by
    rw [hfd]
    exact h.noFile
  client := by
    rw [hlog, clientBytes_append, h.client, clientBytes_quiet fun d hd => (hds d hd).1]
    rfl
  upstream := by
    rw [hlog, upstreamBytes_append, h.upstream, upstreamBytes_quiet fun d hd => (hds d hd).1]
    rfl
  unforwarded := by
    rw [hlog]
    intro hmem
    cases List.mem_append.mp hmem with
    | inl hold => exact h.unforwarded hold
    | inr hnew => exact (hds _ hnew).2 rfl

/-- The first moves of a connection, up to the lookup. -/
theorem FirstLine.move (h : FirstLine s) (hlaw : Lawful RelayedFirst s.log) (hhandled : Handled s)
    (hmove : Move cfg l s s') : Lawful RelayedFirst s'.log ∧ FirstRequest s' := by
  have hbytes : clientBytes s.log <+: upstreamBytes s.log := by rw [h.client, h.upstream]
  have hfd : ¬ 0 < s.up.fd := not_lt.mpr (hhandled.detached h.detached)
  have hwev : ∀ {e}, s.c.wev.handler ≠ some e := by
    intro e he
    exact nomatch h.wev.symm.trans he
  have hline : ¬ s.LineRead := fun hline => hline.not_starts h.rev
  -- a move that logs nothing
  have hsilent : ∀ {s' : Exchange}, s'.log = s.log →
      (s'.c.rev.handler = some .httpInitRequest ∨ s'.c.rev.handler = some .ngxHttpProcessRequestLine) →
      s'.c.wev.handler = s.c.wev.handler → s'.r.upstream = s.r.upstream → s'.sendBuffer = s.sendBuffer →
      s'.resourceFd = s.resourceFd → Lawful RelayedFirst s'.log ∧ FirstRequest s' := by
    intro s' hlog hrev hwev hup hbuf hfile
    have hlog' : s'.log = s.log ++ [] := by rw [hlog, List.append_nil]
    rw [hlog]
    exact ⟨hlaw, .line (h.tell [] hlog' (fun d hd => nomatch hd) hrev hwev hup hbuf hfile)⟩
  cases hmove with
  | ran _ h' =>
      have hquiet : ∀ d ∈ [Deed.ran h'], d.relays = false ∧ d ≠ .openUpstream := by
        intro d hd
        rw [List.mem_singleton.mp hd]
        exact ⟨rfl, fun heq => nomatch heq⟩
      exact ⟨lawful_quiet hlaw hbytes fun d hd => (hquiet d hd).1,
        .line (h.tell _ rfl hquiet h.rev rfl rfl rfl rfl)⟩
  | recv | state => exact hsilent rfl h.rev rfl rfl rfl rfl
  | parse hrev hbuf hup => exact hsilent rfl h.rev rfl hup rfl rfl
  | mark hrev hwev' =>
      refine hsilent rfl ?_ hwev'.handler rfl rfl rfl
      dsimp only
      rw [hrev.handler]
      exact h.rev
  | timeRev =>
      refine hsilent rfl ?_ rfl rfl rfl rfl
      dsimp only [Exchange.onRev]
      rw [EventS.addTimer_handler]
      exact h.rev
  | timeWev => exact hsilent rfl h.rev (EventS.addTimer_handler _ _ _) rfl rfl rfl
  | lineBegins => exact hsilent rfl (.inr rfl) rfl rfl rfl rfl
  | uriDone hrev | headersRead hrev => exact absurd (.inl hrev) hline
  | rewind hrev | respond hrev | await hrev => exact absurd (.inr hrev) hline
  | attached hup => exact absurd h.detached hup
  | delWev hwrites hup => exact absurd h.detached hup
  | openFile => exact ⟨hlaw, .own (.inl rfl) h.unforwarded⟩
  | forward hrev hdone hr hbuf hsel =>
      have hquiet : ∀ d ∈ Deed.openUpstream :: List.map Deed.balancer ‹List Act›, d.relays = false := by
        intro d hd
        cases hd with
        | head => rfl
        | tail _ hact => exact Deed.relays_of_act hact
      refine ⟨lawful_quiet hlaw hbytes hquiet, .relaying ⟨?_, ?_, h.noFile, hwev, .inl ?_, .inl rfl⟩⟩
      · dsimp only [Exchange.onRev]
        rw [upstreamBytes_append, clientBytes_append, upstreamBytes_quiet hquiet, clientBytes_quiet hquiet,
          h.upstream, h.client, h.buffer]
        rfl
      · dsimp only [Exchange.onRev]
        rw [h.buffer]
        exact le_refl 0
      · dsimp only
        rw [hsel.frame]
        exact Option.some_ne_none _
  | reconnect hpos => exact absurd hpos hfd
  | err c r b m up ds status hc hline hcur hup hds herr => exact FirstRequest.err_move hlaw hbytes hds rfl herr
  | passAll hpos | pass hpos | relay hpos | upstreamEof hpos => exact absurd hpos hfd
  | send hwrites hsend | toFile hwrites hsend | sendFile calls hwrites hsend => exact absurd hsend hwev
  | done calls hwrites hdone =>
      rcases hdone with hsend | hsend
      · exact absurd hsend hwev
      · exact absurd hsend.1 hwev
  | close calls => exact FirstRequest.close_move hlaw hbytes calls
  | drop hrev => exact ⟨hlaw, .closed rfl⟩

/-- While the response is passed on. -/
theorem Relaying.move (h : Relaying s) (hlaw : Lawful RelayedFirst s.log) (hmove : Move cfg l s s') :
    Lawful RelayedFirst s'.log ∧ FirstRequest s' := by
  have hbytes : clientBytes s.log <+: upstreamBytes s.log := ⟨_, h.bytes.symm⟩
  have hlate : s.c.rev.handler ≠ some .ngxHttpProcessRequestLine := fun hrev => h.line.not_starts (.inr hrev)
  have hinit : s.c.rev.handler ≠ some .httpInitRequest := fun hrev => h.line.not_starts (.inl hrev)
  -- other deeds leave the bytes alone
  have hkeep : ∀ {ds : List Deed}, (∀ d ∈ ds, d.relays = false) →
      upstreamBytes (s.log ++ ds) = clientBytes (s.log ++ ds) ++ s.sendBuffer.pending := by
    intro ds hds
    rw [upstreamBytes_append, clientBytes_append, upstreamBytes_quiet hds, clientBytes_quiet hds,
      List.append_nil, List.append_nil]
    exact h.bytes
  -- a move that logs nothing
  have hsilent : ∀ {s' : Exchange}, s'.log = s.log → s'.sendBuffer = s.sendBuffer →
      s'.resourceFd = s.resourceFd → s'.c.wev.handler = s.c.wev.handler →
      (s'.r.upstream = s.r.upstream ∧ s'.r.responseDone = s.r.responseDone) → s'.LineRead →
      Lawful RelayedFirst s'.log ∧ FirstRequest s' := by
    intro s' hlog hbuf hfd hwev hsource hline
    refine ⟨by rwa [hlog], .relaying ⟨?_, ?_, ?_, ?_, ?_, hline⟩⟩
    · rw [hlog, hbuf]
      exact h.bytes
    · rw [hbuf]
      exact h.begins
    · rw [hfd]
      exact h.noFile
    · rw [hwev]
      exact h.wev
    · rw [hsource.1, hsource.2]
      exact h.source
  cases hmove with
  | ran | pass =>
      have hquiet : ∀ {d' : Deed}, d'.relays = false → ∀ d ∈ [d'], d.relays = false := fun hd' d hd => by
        rw [List.mem_singleton.mp hd]
        exact hd'
      exact ⟨lawful_quiet hlaw hbytes (hquiet rfl),
        .relaying ⟨hkeep (hquiet rfl), h.begins, h.noFile, h.wev, h.source, h.line⟩⟩
  | recv | state | attached => exact hsilent rfl rfl rfl rfl ⟨rfl, rfl⟩ h.line
  | mark hrev hwev =>
      refine hsilent rfl rfl rfl hwev.handler ⟨rfl, rfl⟩ ?_
      unfold Exchange.LineRead
      rw [hrev.handler]
      exact h.line
  | parse hrev hbuf hup hdone => exact hsilent rfl rfl rfl rfl ⟨hup, hdone⟩ h.line
  | uriDone =>
      refine hsilent rfl rfl rfl rfl ?_ h.line
      unfold Exchange.uriDone
      dsimp only
      split <;> exact ⟨rfl, rfl⟩
  | timeRev =>
      refine hsilent rfl rfl rfl rfl ⟨rfl, rfl⟩ ?_
      unfold Exchange.LineRead Exchange.onRev
      rw [EventS.addTimer_handler]
      exact h.line
  | timeWev => exact hsilent rfl rfl rfl (EventS.addTimer_handler _ _ _) ⟨rfl, rfl⟩ h.line
  | delWev => exact hsilent rfl rfl rfl (EventS.delEvent_handler _) ⟨rfl, rfl⟩ h.line
  | lineBegins hrev => exact absurd hrev hinit
  | headersRead =>
      have hquiet : ∀ d ∈ [Deed.headersRead s.headersEnd], d.relays = false := fun d hd => by
        rw [List.mem_singleton.mp hd]
        rfl
      exact ⟨lawful_quiet hlaw hbytes hquiet,
        .relaying ⟨hkeep hquiet, h.begins, h.noFile, h.wev, h.source, .inr rfl⟩⟩
  | rewind hrev =>
      have hquiet : ∀ d ∈ [Deed.discard (s.places.drop s.recvBuffer.begin)], d.relays = false := fun d hd => by
        rw [List.mem_singleton.mp hd]
        rfl
      exact ⟨lawful_quiet hlaw hbytes hquiet,
        .relaying ⟨hkeep hquiet, h.begins, h.noFile, h.wev, h.source, .inr ((EventS.delEvent_handler _).trans hrev)⟩⟩
  | @passAll _ o xs b =>
      have hquiet : ∀ d ∈ [Deed.toUpstream (s.nextPlaces xs.length) xs, .discard s.places], d.relays = false := by
        intro d hd
        cases hd with
        | head => rfl
        | tail _ hd =>
            rw [List.mem_singleton.mp hd]
            rfl
      have hlog : ((s.tell (.toUpstream (s.nextPlaces xs.length) xs)).clearRecv.onRev EventS.addEvent).log =
          s.log ++ [Deed.toUpstream (s.nextPlaces xs.length) xs, .discard s.places] := List.append_assoc _ _ _
      rw [hlog]
      refine ⟨lawful_quiet hlaw hbytes hquiet,
        .relaying ⟨?_, h.begins, h.noFile, h.wev, h.source, ?_⟩⟩
      · rw [hlog]
        exact hkeep hquiet
      · unfold Exchange.LineRead Exchange.onRev
        rw [EventS.addEvent_handler]
        exact h.line
  | openFile hrev | forward hrev => exact absurd hrev hlate
  | reconnect hfd hcur hsel =>
      refine ⟨lawful_quiet hlaw hbytes fun d hd => Deed.relays_of_act hd,
        .relaying ⟨hkeep fun d hd => Deed.relays_of_act hd, h.begins, h.noFile, h.wev, ?_, h.line⟩⟩
      dsimp only
      rw [hsel.frame]
      exact h.source
  | err c r b m up ds status hc hline hcur hup hds herr => exact FirstRequest.err_move hlaw hbytes hds rfl herr
  | respond hrev hreads hup hdone =>
      -- the response of the back end is there, or the back end still is
      rcases h.source with hsource | hsource
      · exact absurd hup hsource
      · exact absurd hsource (by simp [hdone])
  | await hrev =>
      exact ⟨hlaw, .relaying ⟨h.bytes, h.begins, h.noFile, by simp [Exchange.onWev], h.source,
        .inr ((EventS.delEvent_handler _).trans hrev)⟩⟩
  | @relay _ o ret xs b hfd hb =>
      obtain ⟨hpending, hbegins⟩ := bufferRecv_pending hb h.begins
      have hup : upstreamBytes (s.log ++ [.fromUpstream xs]) =
          clientBytes (s.log ++ [.fromUpstream xs]) ++ b.pending := by
        rw [upstreamBytes_append, clientBytes_append, h.bytes, hpending]
        simp [upstreamBytes, clientBytes, Deed.sent, Deed.received]
      refine ⟨lawful_concat.mpr ⟨hlaw, fun _ _ => ⟨⟨_, hup.symm⟩, ?_, ?_⟩⟩,
        .relaying ⟨hup, hbegins, h.noFile, ?_, h.source, h.line⟩⟩
      · intro hdone
        contradiction
      · intro places hfile
        contradiction
      · dsimp only [Exchange.onWev, Exchange.tell]
        split
        · simp
        · exact h.wev
  | upstreamEof => exact ⟨hlaw, .relaying ⟨h.bytes, h.begins, h.noFile, h.wev, .inr rfl, h.line⟩⟩
  | @send _ o ret xs b hwrites hwev hb =>
      obtain ⟨hpending, hbegins⟩ := bufferSend_pending hb
      have hup : upstreamBytes (s.log ++ [.toClient xs]) = clientBytes (s.log ++ [.toClient xs]) ++ b.pending := by
        rw [upstreamBytes_append, clientBytes_append, h.bytes, hpending]
        simp [upstreamBytes, clientBytes, Deed.sent, Deed.received]
      refine ⟨lawful_concat.mpr ⟨hlaw, fun _ _ => ⟨⟨_, hup.symm⟩, ?_, ?_⟩⟩,
        .relaying ⟨hup, hbegins, h.noFile, h.wev, h.source, h.line⟩⟩
      · intro hdone
        contradiction
      · intro places hfile
        contradiction
  | toFile hwrites hwev hbuf hup hfd => exact absurd hfd (not_lt.mpr h.noFile)
  | sendFile calls hwrites hwev => exact absurd hwev h.wev
  | done calls hwrites hdone hend =>
      have hbuf : s.sendBuffer = {} := by
        rcases hdone with hfile | hsent
        · exact absurd hfile h.wev
        · exact hsent.2.1
      have hall : clientBytes s.log = upstreamBytes s.log := by
        rw [h.bytes, hbuf]
        exact (List.append_nil _).symm
      obtain ⟨ds, hlog, hends, hover⟩ := httpResponseDone_log hend
      have hdone' : Lawful RelayedFirst (s.log ++ [.responseDone]) := by
        refine lawful_concat.mpr ⟨hlaw, fun _ _ => ⟨?_, fun _ => hall, fun places hfile => by contradiction⟩⟩
        simpa [clientBytes, upstreamBytes, Deed.sent, Deed.received] using hbytes
      rw [hlog, ← List.singleton_append, ← List.append_assoc]
      refine ⟨lawful_quiet hdone' ?_ fun d hd => Deed.relays_of_ends (hends d hd), ?_⟩
      · simpa [clientBytes, upstreamBytes, Deed.sent, Deed.received] using hbytes
      · cases hover with
        | inl hclosed => exact .closed hclosed
        | inr hclear =>
            obtain ⟨us, hus⟩ := hclear
            refine .settled ⟨.clearRequest us, ?_, rfl⟩
            rw [hlog]
            exact List.mem_append_right _ (List.mem_cons_of_mem _ hus)
  | close calls => exact FirstRequest.close_move hlaw hbytes calls
  | drop hrev => exact absurd hrev hinit

end

/-! ## runs -/

theorem FirstRequest.move {cfg : Config} {l : Label} {s s' : Exchange} (h : FirstRequest s)
    (hlaw : Lawful RelayedFirst s.log) (hopen : s.closed = false) (hhandled : Handled s)
    (hmove : Move cfg l s s') : Lawful RelayedFirst s'.log ∧ FirstRequest s' := by
  cases h with
  | line h => exact h.move hlaw hhandled hmove
  | own hline hlog => exact own_move hlaw hline hlog hmove
  | relaying h => exact h.move hlaw hmove
  | settled h => exact settled_move hlaw h hmove
  | closed h =>
      rw [h] at hopen
      contradiction

theorem firstLine_accepted (cfg : Config) (now : BitVec 32) (slot : Slot) (fd : Int) (ip : BitVec 32) :
    FirstLine (.accepted cfg now slot fd ip) where
  rev := by
    refine .inl ?_
    change (EventS.addEvent (EventS.addTimer _ _ _)).handler = _
    rw [EventS.addEvent_handler, EventS.addTimer_handler]
  wev := rfl
  detached := rfl
  buffer := rfl
  noFile := le_refl 0
  client := rfl
  upstream := rfl
  unforwarded := List.not_mem_nil

/-- **The relay**: in every run of a connection that has just been accepted, if
its first request is passed on, what the client has been sent is at every moment
the beginning of what has come from the back end, and all of it when
`http_response_done` is called. -/
theorem relay_lawful {cfg : Config} {ts : List Turn} {now : BitVec 32} {slot : Slot} {fd : Int}
    {ip : BitVec 32} {s' : Exchange} (hrun : Exchange.run cfg ts (.accepted cfg now slot fd ip) = .ok s') :
    Lawful RelayedFirst s'.log := by
  have hfirst := firstLine_accepted cfg now slot fd ip
  refine (run_induct (I := fun s => Lawful RelayedFirst s.log ∧ FirstRequest s) ?_
    (Exchange.always_true cfg ts _) (inOrder_accepted cfg now slot fd ip) ⟨lawful_nil, .line hfirst⟩ hrun).2.1
  intro s t l s₁ s₂ _ _ hopen horder _ hmove hs₁
  exact hs₁.2.move hs₁.1 hopen horder.handled hmove

/-- A response that is read in two pieces and sent in two others. -/
def pieces : List Turn :=
  [⟨.poll, oneServer⟩, ⟨.ready .rev, { oneServer with recvLine := .bytes (getB '1') }⟩,
    ⟨.poll, oneServer⟩, ⟨.ready .upRev, { oneServer with recvUpstream := .bytes (text ['a', 'b', 'c']) }⟩,
    ⟨.ready .upRev, oneServer⟩,
    ⟨.poll, oneServer⟩, ⟨.ready .wev, { oneServer with send := .again 1 }⟩,
    ⟨.poll, oneServer⟩, ⟨.ready .upRev, { oneServer with recvUpstream := .bytes (text ['d']) }⟩,
    ⟨.poll, oneServer⟩, ⟨.ready .upRev, { oneServer with recvUpstream := .eof }⟩,
    ⟨.ready .wev, oneServer⟩]

theorem relay_lawful_pieces :
    ∃ s', Exchange.run forwardsB pieces (.accepted forwardsB 0 0 5 0) = .ok s' ∧
      (.openUpstream ∈ s'.log ∧ .responseDone ∈ s'.log) ∧
      clientBytes s'.log = text ['a', 'b', 'c', 'd'] ∧ Lawful RelayedFirst s'.log := by
  have htest : Exchange.runTest forwardsB
      (fun s' => decide (.openUpstream ∈ s'.log ∧ .responseDone ∈ s'.log) &&
        decide (clientBytes s'.log = text ['a', 'b', 'c', 'd'])) pieces
      (.accepted forwardsB 0 0 5 0) = true := by decide +kernel
  obtain ⟨s', hrun, hs'⟩ := Exchange.exists_of_runTest htest
  rw [Bool.and_eq_true, decide_eq_true_iff, decide_eq_true_iff] at hs'
  exact ⟨s', hrun, hs'.1, hs'.2, relay_lawful hrun⟩

end PWebServer
