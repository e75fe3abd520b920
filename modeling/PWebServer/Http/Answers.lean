import PWebServer.Http.Relay

/-!
# Http.Answers

What a client receives for one request, over the requests of a connection.

A request goes through phases: its line is read; then it is answered with a file
or by a back end, or it waits for either; `construct_err` ends all of these in
the same way.  It clears the send buffer, so that the client gets a page of its
own only if nothing of another response has left the buffer (`answers_lawful`).
-/

namespace PWebServer

open History

/-! ## the law -/

/-- The request is over, and another may come. -/
def Deed.clears : Deed → Bool
  | .clearRequest _ => true
  | _ => false

/-- What has been done for the present request. -/
def requestDeeds (log : List Deed) : List Deed := since Deed.clears log

/-- What a client receives, piece by piece: a byte from the send buffer, or the
byte of the file at a place. -/
inductive Part where
  | byte (x : UInt8)
  | file (place : Nat)
  deriving DecidableEq, Repr

/-- What a deed sends to the client. -/
def Deed.parts : Deed → List Part
  | .toClient xs => xs.map .byte
  | .fileToClient places => places.map .file
  | _ => []

/-- What the client has received. -/
def clientParts (ds : List Deed) : List Part := ds.flatMap Deed.parts

/-- The error page that a deed constructs. -/
def Deed.page : Deed → Option (List UInt8)
  | .constructErr _ page => some page
  | _ => none

/-- The error page that was constructed last. -/
def lastPage (ds : List Deed) : Option (List UInt8) := (ds.filterMap Deed.page).getLast?

/-- A genuine response: what has come from the back end, or a header that was
constructed, and a file. -/
inductive Genuine (ds : List Deed) : List Part → Prop
  | upstream : Genuine ds ((upstreamBytes ds).map .byte)
  | file {header : List UInt8} (size : Nat) (h : .constructResponse header ∈ ds) :
      Genuine ds (header.map .byte ++ (List.range size).map .file)

/-- The client has received the beginning of the error page, if there is one,
and of a genuine response otherwise. -/
def OneAnswer (ds : List Deed) : Prop :=
  match lastPage ds with
  | some page => clientParts ds <+: page.map .byte
  | none => ∃ response, Genuine ds response ∧ clientParts ds <+: response

/-- The deed `d`, done for a request after those of `ds`: no error page is
constructed once the client has received something, and what the client
receives is one answer. -/
structure AnswerLaw (ds : List Deed) (d : Deed) : Prop where
  noPage : ∀ status page, d = .constructErr status page → clientParts ds = []
  one : OneAnswer (ds ++ [d])

/-- The law for each request of a connection. -/
def AnswersOnce (p : List Deed) (d : Deed) : Prop := AnswerLaw (requestDeeds p) d

/-! ## deeds that are about something else -/

/-- A response is made, or a part of it received or sent. -/
def Deed.answers : Deed → Bool
  | .fromUpstream _ | .toClient _ | .fileToClient _ | .constructErr _ _ | .constructResponse _ => true
  | _ => false

section

variable {ds ds' log : List Deed}

@[simp] theorem clientParts_append (ds ds' : List Deed) :
    clientParts (ds ++ ds') = clientParts ds ++ clientParts ds' := List.flatMap_append

theorem clientParts_eq_nil : clientParts ds = [] ↔ ∀ d ∈ ds, d.parts = [] := List.flatMap_eq_nil_iff

theorem lastPage_eq_none : lastPage ds = none ↔ ∀ d ∈ ds, d.page = none := by
  rw [lastPage, List.getLast?_eq_none_iff, List.filterMap_eq_nil_iff]

theorem lastPage_append (h : lastPage ds' = none) : lastPage (ds ++ ds') = lastPage ds := by
  have hnil : ds'.filterMap Deed.page = [] := List.filterMap_eq_nil_iff.mpr (lastPage_eq_none.mp h)
  rw [lastPage, List.filterMap_append, hnil, List.append_nil, lastPage]

theorem lastPage_concat (ds : List Deed) (status : Int) (page : List UInt8) :
    lastPage (ds ++ [.constructErr status page]) = some page := by
  rw [lastPage, List.filterMap_append]
  exact List.getLast?_concat

theorem parts_of_aside {d : Deed} (h : d.answers = false) : d.parts = [] := by
  cases d <;> first | rfl | contradiction

theorem page_of_aside {d : Deed} (h : d.answers = false) : d.page = none := by
  cases d <;> first | rfl | contradiction

theorem clientParts_aside (h : ∀ d ∈ ds, d.answers = false) : clientParts ds = [] :=
  clientParts_eq_nil.mpr fun d hd => parts_of_aside (h d hd)

theorem lastPage_aside (h : ∀ d ∈ ds, d.answers = false) : lastPage ds = none :=
  lastPage_eq_none.mpr fun d hd => page_of_aside (h d hd)

theorem upstreamBytes_aside (h : ∀ d ∈ ds, d.answers = false) : upstreamBytes ds = [] := by
  rw [upstreamBytes, List.flatMap_eq_nil_iff]
  intro d hd
  have hd' := h d hd
  cases d <;> first | rfl | contradiction

theorem requestDeeds_append (h : ∀ d ∈ ds, d.clears = false) :
    requestDeeds (log ++ ds) = requestDeeds log ++ ds := since_append h

theorem Genuine.aside {response : List Part} (h : Genuine ds response) (hds : ∀ d ∈ ds', d.answers = false) :
    Genuine (ds ++ ds') response := by
  cases h with
  | upstream =>
      have hsame : upstreamBytes (ds ++ ds') = upstreamBytes ds := by
        rw [upstreamBytes_append, upstreamBytes_aside hds, List.append_nil]
      rw [← hsame]
      exact .upstream
  | file size h => exact .file size (List.mem_append_left ds' h)

theorem OneAnswer.aside (h : OneAnswer ds) (hds : ∀ d ∈ ds', d.answers = false) : OneAnswer (ds ++ ds') := by
  unfold OneAnswer at h ⊢
  rw [lastPage_append (lastPage_aside hds), clientParts_append, clientParts_aside hds, List.append_nil]
  cases hpage : lastPage ds with
  | some page =>
      rw [hpage] at h
      exact h
  | none =>
      rw [hpage] at h
      obtain ⟨response, hgenuine, hprefix⟩ := h
      exact ⟨response, hgenuine.aside hds, hprefix⟩

/-- Other deeds keep the law. -/
theorem lawful_aside (h : Lawful AnswersOnce log) (hone : OneAnswer (requestDeeds log))
    (hds : ∀ d ∈ ds, d.answers = false ∧ d.clears = false) : Lawful AnswersOnce (log ++ ds) := by
  refine lawful_append.mpr ⟨h, fun p d rest heq => ?_⟩
  have hp : ∀ d' ∈ p, d'.answers = false ∧ d'.clears = false := fun d' hd' =>
    hds d' (by rw [heq]; exact List.mem_append_left _ hd')
  have hd : d.answers = false := (hds d (by rw [heq]; exact List.mem_append_right _ List.mem_cons_self)).1
  change AnswerLaw (requestDeeds (log ++ p)) d
  rw [requestDeeds_append fun d' hd' => (hp d' hd').2]
  refine ⟨fun status page hpage => ?_, ?_⟩
  · rw [hpage] at hd
    contradiction
  · refine (hone.aside fun d' hd' => (hp d' hd').1).aside fun d' hd' => ?_
    rw [List.mem_singleton.mp hd']
    exact hd

/-- What a log has gained. -/
theorem mem_requestDeeds_append {d : Deed} (h : d ∈ requestDeeds (log ++ ds)) : d ∈ requestDeeds log ∨ d ∈ ds :=
  mem_since_append h

end

/-! ## moves that are about something else -/

/-- What a move leaves alone that is neither about the response nor ends the
request. -/
structure Aside (s s' : Exchange) : Prop where
  log : ∃ ds, s'.log = s.log ++ ds ∧ ∀ d ∈ ds, d.answers = false ∧ d.clears = false
  sendBuffer : s'.sendBuffer = s.sendBuffer
  resourceFd : s'.resourceFd = s.resourceFd
  file : s'.file = s.file
  wevHandler : s'.c.wev.handler = s.c.wev.handler
  wevActive : s.r.upstream = none → s'.c.wev.active = s.c.wev.active
  revActive : s.r.upstream = none → s'.c.rev.active = s.c.rev.active ∨ s'.c.rev.active = false
  upstream : s'.r.upstream = s.r.upstream
  done : s'.r.responseDone = s.r.responseDone
  starts : s.Starts → s'.Starts
  line : s.LineRead → s'.LineRead

section

variable {cfg : Config} {l : Label} {s s' : Exchange}

theorem Aside.deeds (h : Aside s s') :
    ∃ ds, requestDeeds s'.log = requestDeeds s.log ++ ds ∧ ∀ d ∈ ds, d.answers = false := by
  obtain ⟨ds, hlog, hds⟩ := h.log
  refine ⟨ds, ?_, fun d hd => (hds d hd).1⟩
  rw [hlog, requestDeeds_append fun d hd => (hds d hd).2]

theorem Aside.parts (h : Aside s s') :
    clientParts (requestDeeds s'.log) = clientParts (requestDeeds s.log) := by
  obtain ⟨ds, hlog, hds⟩ := h.deeds
  rw [hlog, clientParts_append, clientParts_aside hds, List.append_nil]

theorem Aside.page (h : Aside s s') : lastPage (requestDeeds s'.log) = lastPage (requestDeeds s.log) := by
  obtain ⟨ds, hlog, hds⟩ := h.deeds
  rw [hlog, lastPage_append (lastPage_aside hds)]

theorem Aside.received (h : Aside s s') :
    upstreamBytes (requestDeeds s'.log) = upstreamBytes (requestDeeds s.log) := by
  obtain ⟨ds, hlog, hds⟩ := h.deeds
  rw [hlog, upstreamBytes_append, upstreamBytes_aside hds, List.append_nil]

/-- A move that logs nothing. -/
theorem aside_of_log (hlog : s'.log = s.log) :
    ∃ ds, s'.log = s.log ++ ds ∧ ∀ d ∈ ds, d.answers = false ∧ d.clears = false :=
  ⟨[], by rw [hlog, List.append_nil], fun d hd => nomatch hd⟩

/-- A move that logs one thing. -/
theorem aside_of_one {d : Deed} (hlog : s'.log = s.log ++ [d]) (hd : d.answers = false ∧ d.clears = false) :
    ∃ ds, s'.log = s.log ++ ds ∧ ∀ d ∈ ds, d.answers = false ∧ d.clears = false :=
  ⟨[d], hlog, fun d' hd' => by rwa [List.mem_singleton.mp hd']⟩

theorem aside_of_acts {acts : List Act} {d : Deed} (h : d ∈ acts.map Deed.balancer) :
    d.answers = false ∧ d.clears = false := by
  obtain ⟨a, -, hd⟩ := List.mem_map.mp h
  rw [← hd]
  exact ⟨rfl, rfl⟩

/-- The client's events are left alone. -/
theorem Aside.of_client (hlog : ∃ ds, s'.log = s.log ++ ds ∧ ∀ d ∈ ds, d.answers = false ∧ d.clears = false)
    (hc : s'.c = s.c) (hbuf : s'.sendBuffer = s.sendBuffer) (hfd : s'.resourceFd = s.resourceFd)
    (hfile : s'.file = s.file) (hup : s'.r.upstream = s.r.upstream)
    (hdone : s'.r.responseDone = s.r.responseDone) : Aside s s' := by
  refine ⟨hlog, hbuf, hfd, hfile, ?_, fun _ => ?_, fun _ => .inl ?_, hup, hdone, ?_, ?_⟩
  · rw [hc]
  · rw [hc]
  · rw [hc]
  · unfold Exchange.Starts
    rw [hc]
    exact id
  · unfold Exchange.LineRead
    rw [hc]
    exact id

/-- Something is done to the client's read event. -/
theorem Aside.of_rev {rev : EventS} (hrev : rev.handler = s.c.rev.handler)
    (hactive : s.r.upstream = none → rev.active = s.c.rev.active ∨ rev.active = false)
    (hlog : ∃ ds, s'.log = s.log ++ ds ∧ ∀ d ∈ ds, d.answers = false ∧ d.clears = false)
    (hc : s'.c = { s.c with rev := rev }) (hbuf : s'.sendBuffer = s.sendBuffer)
    (hfd : s'.resourceFd = s.resourceFd) (hfile : s'.file = s.file) (hr : s'.r = s.r) : Aside s s' := by
  refine ⟨hlog, hbuf, hfd, hfile, ?_, fun _ => ?_, ?_, by rw [hr], by rw [hr], ?_, ?_⟩
  · rw [hc]
  · rw [hc]
  · rw [hc]
    exact hactive
  · unfold Exchange.Starts
    rw [hc, hrev]
    exact id
  · unfold Exchange.LineRead
    rw [hc, hrev]
    exact id

/-- Something is done to the client's write event. -/
theorem Aside.of_wev {f : EventS → EventS} (hwev : (f s.c.wev).handler = s.c.wev.handler)
    (hactive : s.r.upstream = none → (f s.c.wev).active = s.c.wev.active) : Aside s (s.onWev f) :=
  ⟨aside_of_log rfl, rfl, rfl, rfl, hwev, hactive, fun _ => .inl rfl, rfl, rfl, id, id⟩

theorem Move.aside_mark {c up : Connection} (hrev : s.c.rev.Marked c.rev) (hwev : s.c.wev.Marked c.wev) :
    Aside s { s with c := c, up := up } := by
  refine ⟨aside_of_log rfl, rfl, rfl, rfl, hwev.handler, fun _ => hwev.active, fun _ => .inl hrev.active, rfl, rfl,
    ?_, ?_⟩
  · unfold Exchange.Starts
    rw [hrev.handler]
    exact id
  · unfold Exchange.LineRead
    rw [hrev.handler]
    exact id

theorem Move.aside_uriDone (s : Exchange) : Aside s s.uriDone := by
  unfold Exchange.uriDone
  dsimp only
  split <;> exact .of_client (aside_of_log rfl) rfl rfl rfl rfl rfl rfl

theorem Move.aside_headersRead (hrev : s.c.rev.handler = some .httpParseHeaders) :
    Aside s ((s.tell (.headersRead s.headersEnd)).onRev fun ev =>
      { ev with handler := some .requestHandleBody }) :=
  ⟨aside_of_one rfl ⟨rfl, rfl⟩, rfl, rfl, rfl, rfl, fun _ => rfl, fun _ => .inl rfl, rfl, rfl,
    fun h => absurd h (Exchange.LineRead.not_starts (.inl hrev)), fun _ => .inr rfl⟩

theorem Move.aside_lineBegins (hrev : s.c.rev.handler = some .httpInitRequest) :
    Aside s (s.onRev fun ev => { ev with handler := some .ngxHttpProcessRequestLine }) :=
  ⟨aside_of_log rfl, rfl, rfl, rfl, rfl, fun _ => rfl, fun _ => .inl rfl, rfl, rfl,
    fun _ => .inr rfl, fun h => absurd (.inl hrev) h.not_starts⟩

theorem Move.aside_passAll (hs : Handled s) (hfd : 0 < s.up.fd) (places : List Nat) (xs : List UInt8) :
    Aside s ((s.tell (.toUpstream places xs)).clearRecv.onRev EventS.addEvent) := by
  refine .of_rev (EventS.addEvent_handler s.c.rev) (fun hnone => absurd hnone (hs.attached hfd).1) ?_ rfl rfl rfl
    rfl rfl
  refine ⟨[.toUpstream places xs, .discard s.places], List.append_assoc _ _ _, fun d hd => ?_⟩
  cases hd with
  | head => exact ⟨rfl, rfl⟩
  | tail _ hd =>
      rw [List.mem_singleton.mp hd]
      exact ⟨rfl, rfl⟩

/-! ## where a request is -/

/-- The client has received nothing, and there is nothing for it. -/
structure Unanswered (s : Exchange) : Prop where
  parts : clientParts (requestDeeds s.log) = []
  page : lastPage (requestDeeds s.log) = none
  buffer : s.sendBuffer = {}
  waits : s.r.responseDone = false

/-- The request line is read. -/
structure AtLine (s : Exchange) : Prop extends Unanswered s where
  starts : s.Starts
  received : upstreamBytes (requestDeeds s.log) = []
  noFile : s.resourceFd ≤ 0

/-- The header is read, and there is a file to answer with. -/
structure HasFile (s : Exchange) : Prop extends Unanswered s where
  line : s.LineRead
  detached : s.r.upstream = none
  idle : s.c.wev.active = false
  file : s.file.InStep
  sent : s.file.sent = []

/-- A header and the file go out. -/
structure SendingFile (s : Exchange) : Prop where
  line : s.LineRead
  detached : s.r.upstream = none
  waits : s.r.responseDone = false
  idle : s.c.rev.active = false
  page : lastPage (requestDeeds s.log) = none
  file : s.file.InStep
  stage : s.c.wev.handler = some .handleResponse ∧ s.file.sent = [] ∨
    s.c.wev.handler = some .handleResponseFile ∧ s.sendBuffer = {}
  parts : ∃ header, .constructResponse header ∈ requestDeeds s.log ∧
    clientParts (requestDeeds s.log) ++ s.sendBuffer.pending.map .byte =
      header.map .byte ++ s.file.sent.map .file

/-- A back end answers. -/
structure FromBackEnd (s : Exchange) : Prop where
  line : s.LineRead
  source : s.r.upstream ≠ none ∨ s.r.responseDone = true
  noFile : s.resourceFd ≤ 0
  begins : s.sendBuffer.begin ≤ s.sendBuffer.bytes.length
  page : lastPage (requestDeeds s.log) = none
  parts : clientParts (requestDeeds s.log) ++ s.sendBuffer.pending.map .byte =
    (upstreamBytes (requestDeeds s.log)).map .byte

/-- An error page goes out. -/
structure SendingPage (s : Exchange) : Prop where
  done : s.r.responseDone = true
  wev : s.c.wev.handler = some .handleResponse
  parts : ∃ page, lastPage (requestDeeds s.log) = some page ∧
    clientParts (requestDeeds s.log) ++ s.sendBuffer.pending.map .byte = page.map .byte

/-- Where the answer to a request is. -/
inductive Answering (s : Exchange) : Prop
  | line (h : AtLine s)
  | hasFile (h : HasFile s)
  | file (h : SendingFile s)
  | backEnd (h : FromBackEnd s)
  | page (h : SendingPage s)
  | closed (h : s.closed = true)

theorem Unanswered.one (h : Unanswered s) : OneAnswer (requestDeeds s.log) := by
  unfold OneAnswer
  rw [h.page, h.parts]
  exact ⟨_, .upstream, List.nil_prefix⟩

theorem SendingFile.one (h : SendingFile s) : OneAnswer (requestDeeds s.log) := by
  obtain ⟨header, hheader, hparts⟩ := h.parts
  unfold OneAnswer
  rw [h.page]
  refine ⟨_, .file s.file.resourceOff.toNat hheader, s.sendBuffer.pending.map .byte, ?_⟩
  rw [hparts, ← h.file.sent]

theorem FromBackEnd.one (h : FromBackEnd s) : OneAnswer (requestDeeds s.log) := by
  unfold OneAnswer
  rw [h.page]
  exact ⟨_, .upstream, _, h.parts⟩

theorem SendingPage.one (h : SendingPage s) : OneAnswer (requestDeeds s.log) := by
  obtain ⟨page, hpage, hparts⟩ := h.parts
  unfold OneAnswer
  rw [hpage]
  exact ⟨_, hparts⟩

/-- What the client has received is one answer so far. -/
theorem Answering.one (h : Answering s) (hopen : s.closed = false) : OneAnswer (requestDeeds s.log) := by
  cases h with
  | line h => exact h.one
  | hasFile h => exact h.one
  | file h => exact h.one
  | backEnd h => exact h.one
  | page h => exact h.one
  | closed h => exact nomatch h.symm.trans hopen

theorem Unanswered.aside (h : Unanswered s) (ha : Aside s s') : Unanswered s' :=
  ⟨ha.parts.trans h.parts, ha.page.trans h.page, ha.sendBuffer.trans h.buffer, ha.done.trans h.waits⟩

theorem SendingFile.aside (h : SendingFile s) (ha : Aside s s') : SendingFile s' where
  line := ha.line h.line
  detached := ha.upstream.trans h.detached
  waits := ha.done.trans h.waits
  idle := (ha.revActive h.detached).elim (fun hsame => hsame.trans h.idle) id
  page := ha.page.trans h.page
  file := by
    rw [ha.file]
    exact h.file
  stage := by
    rw [ha.wevHandler, ha.file, ha.sendBuffer]
    exact h.stage
  parts := by
    obtain ⟨header, hheader, hparts⟩ := h.parts
    obtain ⟨ds, hlog, -⟩ := ha.deeds
    refine ⟨header, ?_, ?_⟩
    · rw [hlog]
      exact List.mem_append_left ds hheader
    · rw [ha.parts, ha.sendBuffer, ha.file]
      exact hparts

theorem FromBackEnd.aside (h : FromBackEnd s) (ha : Aside s s') : FromBackEnd s' where
  line := ha.line h.line
  source := by
    rw [ha.upstream, ha.done]
    exact h.source
  noFile := by
    rw [ha.resourceFd]
    exact h.noFile
  begins := by
    rw [ha.sendBuffer]
    exact h.begins
  page := ha.page.trans h.page
  parts := by
    rw [ha.parts, ha.received, ha.sendBuffer]
    exact h.parts

theorem SendingPage.aside (h : SendingPage s) (ha : Aside s s') : SendingPage s' where
  done := ha.done.trans h.done
  wev := ha.wevHandler.trans h.wev
  parts := by
    rw [ha.parts, ha.page, ha.sendBuffer]
    exact h.parts

theorem Answering.aside (h : Answering s) (hopen : s.closed = false) (ha : Aside s s') : Answering s' := by
  cases h with
  | line h =>
      refine .line ⟨h.toUnanswered.aside ha, ha.starts h.starts, ha.received.trans h.received, ?_⟩
      rw [ha.resourceFd]
      exact h.noFile
  | hasFile h =>
      refine .hasFile ⟨h.toUnanswered.aside ha, ha.line h.line, ha.upstream.trans h.detached,
        (ha.wevActive h.detached).trans h.idle, ?_, ?_⟩
      · rw [ha.file]
        exact h.file
      · rw [ha.file]
        exact h.sent
  | file h => exact .file (h.aside ha)
  | backEnd h => exact .backEnd (h.aside ha)
  | page h => exact .page (h.aside ha)
  | closed h => exact nomatch h.symm.trans hopen

/-! ## the moves of an answer -/

/-- Before the lookup. -/
theorem Answering.of_line (h : Answering s) (hopen : s.closed = false)
    (hrev : s.c.rev.handler = some .ngxHttpProcessRequestLine) (hwaits : s.r.responseDone = false) :
    AtLine s := by
  have hnot : ¬ s.LineRead := fun hline => hline.not_starts (.inr hrev)
  cases h with
  | line h => exact h
  | hasFile h => exact absurd h.line hnot
  | file h => exact absurd h.line hnot
  | backEnd h => exact absurd h.line hnot
  | page h => exact nomatch h.done.symm.trans hwaits
  | closed h => exact nomatch h.symm.trans hopen

/-- What is sent is a file, what a back end answers, or an error page. -/
theorem Answering.of_writes (h : Answering s) (hopen : s.closed = false) (hf : Flagged s)
    (hwrites : s.Writes) : SendingFile s ∨ FromBackEnd s ∨ SendingPage s := by
  cases h with
  | line h => exact nomatch (hf.waits h.starts h.waits).symm.trans hwrites.active
  | hasFile h => exact nomatch h.idle.symm.trans hwrites.active
  | file h => exact .inl h
  | backEnd h => exact .inr (.inl h)
  | page h => exact .inr (.inr h)
  | closed h => exact nomatch h.symm.trans hopen

/-- A back end is at work. -/
theorem Answering.of_attached (h : Answering s) (hopen : s.closed = false) (hs : Handled s)
    (hfd : 0 < s.up.fd) : FromBackEnd s ∨ SendingPage s := by
  obtain ⟨hup, hnot⟩ := hs.attached hfd
  cases h with
  | line h => exact absurd h.starts hnot
  | hasFile h => exact absurd h.detached hup
  | file h => exact absurd h.detached hup
  | backEnd h => exact .inl h
  | page h => exact .inr h
  | closed h => exact nomatch h.symm.trans hopen

/-- One more deed of a request. -/
theorem lawful_one {d : Deed} (hlaw : Lawful AnswersOnce s.log) (hlog : s'.log = s.log ++ [d])
    (hclears : d.clears = false) (hpage : d.page = none) (hone : OneAnswer (requestDeeds s'.log)) :
    Lawful AnswersOnce s'.log := by
  have hd : ∀ d' ∈ [d], d'.clears = false := fun d' hd' => by rwa [List.mem_singleton.mp hd']
  rw [hlog, requestDeeds_append hd] at hone
  rw [hlog]
  refine lawful_concat.mpr ⟨hlaw, fun status page heq => ?_, hone⟩
  rw [heq] at hpage
  contradiction

theorem requestDeeds_one {d : Deed} (hlog : s'.log = s.log ++ [d]) (hclears : d.clears = false) :
    requestDeeds s'.log = requestDeeds s.log ++ [d] := by
  rw [hlog]
  exact requestDeeds_append fun d' hd' => by rwa [List.mem_singleton.mp hd']

/-- An error page is constructed while the client has received nothing. -/
theorem Answering.err {status : Int} {s₁ : Exchange} {ds : List Deed} (h : Answering s)
    (hopen : s.closed = false) (hlaw : Lawful AnswersOnce s.log)
    (hparts : clientParts (requestDeeds s.log) = [])
    (hds : ∀ d ∈ ds, d = .balancer (.constructErr 502) ∨ ∃ us, d = .balancer (.connectTimedout us))
    (hlog : s₁.log = s.log ++ ds) (herr : s₁.constructErr cfg status = .ok s') :
    Lawful AnswersOnce s'.log ∧ Answering s' := by
  have hans := constructErr_answered herr
  have haside : ∀ d ∈ ds, d.answers = false ∧ d.clears = false := by
    intro d hd
    rcases hds d hd with heq | ⟨us, heq⟩
    · rw [heq]
      exact ⟨rfl, rfl⟩
    · rw [heq]
      exact ⟨rfl, rfl⟩
  have hbefore : requestDeeds s₁.log = requestDeeds s.log ++ ds := by
    rw [hlog]
    exact requestDeeds_append fun d hd => (haside d hd).2
  have hnothing : clientParts (requestDeeds s₁.log) = [] := by
    rw [hbefore, clientParts_append, hparts, clientParts_aside fun d hd => (haside d hd).1]
    rfl
  have hdeeds : requestDeeds s'.log =
      requestDeeds s₁.log ++ [.constructErr status s'.sendBuffer.pending] :=
    requestDeeds_one (constructErr_log herr) rfl
  have hpage : SendingPage s' := by
    refine ⟨?_, hans.wevHandler, s'.sendBuffer.pending, ?_, ?_⟩
    · rw [hans.request]
      rfl
    · rw [hdeeds, lastPage_concat]
    · rw [hdeeds, clientParts_append, hnothing]
      rfl
  refine ⟨?_, .page hpage⟩
  have hone := hpage.one
  rw [hdeeds] at hone
  rw [constructErr_log herr]
  refine lawful_concat.mpr ⟨?_, fun _ _ _ => hnothing, hone⟩
  rw [hlog]
  exact lawful_aside hlaw (h.one hopen) haside

/-- The header of a file. -/
theorem Answering.respond {r : HttpRequest} (h : Answering s) (hopen : s.closed = false)
    (hlaw : Lawful AnswersOnce s.log) (hrev : s.c.rev.handler = some .requestHandleBody) (hreads : s.Reads)
    (hup : s.r.upstream = none) (hdone : s.r.responseDone = false) (hr : r.upstream = s.r.upstream)
    (hr' : r.responseDone = s.r.responseDone)
    (hres : Exchange.constructResponse { s with
      c := { s.c with
        rev := s.c.rev.delEvent
        wev := EventS.addEvent { s.c.wev with handler := some .handleResponse } }
      r := r } = .ok s') :
    Lawful AnswersOnce s'.log ∧ Answering s' := by
  have hline : s.LineRead := .inr hrev
  have hfile : HasFile s := by
    cases h with
    | line h => exact absurd h.starts hline.not_starts
    | hasFile h => exact h
    | file h => exact nomatch h.idle.symm.trans (hreads.active hdone)
    | backEnd h => exact absurd hdone (by simp [h.source.resolve_left (not_not.mpr hup)])
    | page h => exact nomatch h.done.symm.trans hdone
    | closed h => exact nomatch h.symm.trans hopen
  obtain ⟨b, -, hs'⟩ := constructResponse_eq hres
  have hlog : s'.log = s.log ++ [.constructResponse b.pending] := by rw [hs']; rfl
  have hdeeds := requestDeeds_one hlog rfl
  have hsending : SendingFile s' := by
    refine ⟨.inr ?_, ?_, ?_, ?_, ?_, ?_, .inl ⟨?_, ?_⟩, b.pending, ?_, ?_⟩
    · rw [hs']
      exact (EventS.delEvent_handler _).trans hrev
    · rw [hs']
      exact hr.trans hup
    · rw [hs']
      exact hr'.trans hdone
    · rw [hs']
      exact EventS.delEvent_active _
    · rw [hdeeds, lastPage_append rfl]
      exact hfile.page
    · rw [hs']
      exact hfile.file
    · rw [hs']
      exact EventS.addEvent_handler _
    · rw [hs']
      exact hfile.sent
    · rw [hdeeds]
      exact List.mem_append_right _ List.mem_cons_self
    · rw [hdeeds, clientParts_append, hfile.parts, hs']
      simp [clientParts, Deed.parts, Exchange.tell, hfile.sent]
  exact ⟨lawful_one hlaw hlog rfl rfl hsending.one, .file hsending⟩

/-- A buffer to which nothing is added stays as it is. -/
theorem bufferRecv_nothing {b b' : Buffer} {o : Recv} {ret : Ret} {xs : List UInt8}
    (h : bufferRecv b o = (ret, xs, b')) (hxs : xs = []) : b' = b := by
  unfold bufferRecv at h
  split at h
  · cases h
    rfl
  · cases o with
    | bytes sent =>
        cases h
        rw [Buffer.recv, hxs, List.append_nil]
    | again | eof | fail =>
        cases h
        rfl

/-- Bytes come from the back end; none do when an error page goes out. -/
theorem Answering.relay {o : Recv} {ret : Ret} {xs : List UInt8} {b : Buffer} (h : Answering s)
    (hopen : s.closed = false) (hs : Handled s) (hlaw : Lawful AnswersOnce s.log)
    (hxs : lastPage (requestDeeds s.log) ≠ none → xs = []) (hfd : 0 < s.up.fd)
    (hb : bufferRecv s.sendBuffer o = (ret, xs, b))
    (hs' : s' = { s.tell (.fromUpstream xs) with sendBuffer := b }.onWev fun ev =>
      { ev.addEvent with handler := if ev.handler = none then some .handleResponse else ev.handler }) :
    Lawful AnswersOnce s'.log ∧ Answering s' := by
  have hlog : s'.log = s.log ++ [.fromUpstream xs] := by rw [hs']; rfl
  have hdeeds := requestDeeds_one hlog rfl
  cases h.of_attached hopen hs hfd with
  | inl h =>
      obtain ⟨hpending, hbegins⟩ := bufferRecv_pending hb h.begins
      have hnext : FromBackEnd s' := by
        refine ⟨?_, ?_, ?_, ?_, ?_, ?_⟩
        · rw [hs']
          exact h.line
        · rw [hs']
          exact h.source
        · rw [hs']
          exact h.noFile
        · rw [hs']
          exact hbegins
        · rw [hdeeds, lastPage_append rfl]
          exact h.page
        · rw [hdeeds, clientParts_append, upstreamBytes_append, List.map_append, ← h.parts, hs']
          change _ ++ _ ++ b.pending.map _ = _
          rw [hpending, List.map_append]
          simp [clientParts, upstreamBytes, Deed.parts, Deed.received]
      exact ⟨lawful_one hlaw hlog rfl rfl hnext.one, .backEnd hnext⟩
  | inr h =>
      obtain ⟨page, hpage, hparts⟩ := h.parts
      have hb' : b = s.sendBuffer := bufferRecv_nothing hb (hxs (by rw [hpage]; exact Option.some_ne_none page))
      have hnext : SendingPage s' := by
        refine ⟨?_, ?_, page, ?_, ?_⟩
        · rw [hs']
          exact h.done
        · rw [hs']
          simp [Exchange.onWev, Exchange.tell, h.wev]
        · rw [hdeeds, lastPage_append rfl]
          exact hpage
        · rw [hdeeds, clientParts_append, hs', hb', ← hparts]
          simp [clientParts, Deed.parts, Exchange.onWev, Exchange.tell]
      exact ⟨lawful_one hlaw hlog rfl rfl hnext.one, .page hnext⟩

/-- Bytes leave the send buffer. -/
theorem Answering.send {o : Send} {ret : Ret} {xs : List UInt8} {b : Buffer} (h : Answering s)
    (hopen : s.closed = false) (hf : Flagged s) (hlaw : Lawful AnswersOnce s.log) (hwrites : s.Writes)
    (hwev : s.c.wev.handler = some .handleResponse) (hb : bufferSend s.sendBuffer o = (ret, xs, b)) :
    Lawful AnswersOnce (s.tell (.toClient xs)).log ∧
      Answering { s.tell (.toClient xs) with sendBuffer := b } := by
  obtain ⟨hpending, hbegins⟩ := bufferSend_pending hb
  have hdeeds : requestDeeds (s.log ++ [.toClient xs]) = requestDeeds s.log ++ [.toClient xs] :=
    requestDeeds_append fun d hd => by rw [List.mem_singleton.mp hd]; rfl
  have hmoved : clientParts (requestDeeds (s.log ++ [.toClient xs])) ++ b.pending.map .byte =
      clientParts (requestDeeds s.log) ++ s.sendBuffer.pending.map .byte := by
    rw [hdeeds, clientParts_append, hpending, List.map_append]
    simp [clientParts, Deed.parts]
  have hpage : lastPage (requestDeeds (s.log ++ [.toClient xs])) = lastPage (requestDeeds s.log) := by
    rw [hdeeds, lastPage_append rfl]
  have hnext : OneAnswer (requestDeeds (s.log ++ [.toClient xs])) →
      Lawful AnswersOnce (s.tell (.toClient xs)).log := fun hone =>
    lawful_one hlaw rfl rfl rfl hone
  rcases h.of_writes hopen hf hwrites with h | h | h
  · have hsending : SendingFile { s.tell (.toClient xs) with sendBuffer := b } := by
      obtain ⟨header, hheader, hparts⟩ := h.parts
      refine ⟨h.line, h.detached, h.waits, h.idle, hpage.trans h.page, h.file, ?_, header, ?_, ?_⟩
      · exact h.stage.imp_right fun hsent => nomatch hsent.1.symm.trans hwev
      · change _ ∈ requestDeeds (s.log ++ [.toClient xs])
        rw [hdeeds]
        exact List.mem_append_left _ hheader
      · exact hmoved.trans hparts
    exact ⟨hnext hsending.one, .file hsending⟩
  · have hsending : FromBackEnd { s.tell (.toClient xs) with sendBuffer := b } := by
      refine ⟨h.line, h.source, h.noFile, hbegins, hpage.trans h.page, hmoved.trans ?_⟩
      change _ = List.map _ (upstreamBytes (requestDeeds (s.log ++ [.toClient xs])))
      rw [h.parts, hdeeds, upstreamBytes_append]
      simp [upstreamBytes, Deed.received]
    exact ⟨hnext hsending.one, .backEnd hsending⟩
  · have hsending : SendingPage { s.tell (.toClient xs) with sendBuffer := b } := by
      obtain ⟨page, hlast, hparts⟩ := h.parts
      exact ⟨h.done, h.wev, page, hpage.trans hlast, hmoved.trans hparts⟩
    exact ⟨hnext hsending.one, .page hsending⟩

/-- Bytes of the file go out. -/
theorem Answering.sendFile {calls : Calls} {ret : Option Ret} {file : Sending} {os : List Sendfile}
    (h : Answering s) (hopen : s.closed = false) (hf : Flagged s) (hlaw : Lawful AnswersOnce s.log)
    (hwrites : s.Writes) (hwev : s.c.wev.handler = some .handleResponseFile) (hfd : 0 < s.resourceFd)
    (hcount : s.fileLost calls = false)
    (hfile : PWebServer.sendFile s.fileSize s.file s.file.resourceLen calls.sendfile = .ok (ret, file, os)) :
    Lawful AnswersOnce (s.tell (.fileToClient (file.sent.drop s.file.sent.length))).log ∧
      Answering { s.tell (.fileToClient (file.sent.drop s.file.sent.length)) with file := file } := by
  have hsent : SendingFile s := by
    rcases h.of_writes hopen hf hwrites with h | h | h
    · exact h
    · exact absurd hfd (not_lt.mpr h.noFile)
    · exact nomatch h.wev.symm.trans hwev
  have hbuf : s.sendBuffer = {} := by
    rcases hsent.stage with hstage | hstage
    · exact nomatch hstage.1.symm.trans hwev
    · exact hstage.2
  obtain ⟨hstep, hgrown⟩ := sendFile_inStep hfile hsent.file hcount
  generalize hplaces : file.sent.drop s.file.sent.length = places
  have hall : s.file.sent ++ places = file.sent := by
    rw [← hplaces]
    exact List.prefix_append_drop hgrown |>.symm
  have hdeeds : requestDeeds (s.log ++ [.fileToClient places]) = requestDeeds s.log ++ [.fileToClient places] :=
    requestDeeds_append fun d hd => by rw [List.mem_singleton.mp hd]; rfl
  have hsending : SendingFile { s.tell (.fileToClient places) with file := file } := by
    obtain ⟨header, hheader, hparts⟩ := hsent.parts
    refine ⟨hsent.line, hsent.detached, hsent.waits, hsent.idle, ?_, hstep, .inr ⟨hwev, hbuf⟩, header, ?_, ?_⟩
    · change lastPage (requestDeeds (s.log ++ [.fileToClient places])) = none
      rw [hdeeds, lastPage_append rfl]
      exact hsent.page
    · change _ ∈ requestDeeds (s.log ++ [.fileToClient places])
      rw [hdeeds]
      exact List.mem_append_left _ hheader
    · change clientParts (requestDeeds (s.log ++ [.fileToClient places])) ++ s.sendBuffer.pending.map _ = _
      rw [hbuf] at hparts ⊢
      rw [hdeeds, clientParts_append, ← hall]
      simp only [Buffer.pending, List.drop_nil, List.map_nil, List.append_nil] at hparts ⊢
      rw [hparts]
      simp [clientParts, Deed.parts]
  exact ⟨lawful_one hlaw rfl rfl rfl hsending.one, .file hsending⟩

/-- The connection is closed. -/
theorem Answering.close (h : Answering s) (hopen : s.closed = false) (hlaw : Lawful AnswersOnce s.log)
    (calls : Calls) :
    Lawful AnswersOnce (s.httpCloseRequest calls).log ∧ Answering (s.httpCloseRequest calls) := by
  rw [httpCloseRequest_eq]
  refine ⟨lawful_aside hlaw (h.one hopen) fun d hd => ?_, .closed rfl⟩
  cases hd with
  | head => exact ⟨rfl, rfl⟩
  | tail _ hact => exact aside_of_acts hact

/-- The response is complete. -/
theorem Answering.done {calls : Calls} (h : Answering s) (hopen : s.closed = false)
    (hlaw : Lawful AnswersOnce s.log)
    (hend : Exchange.httpResponseDone cfg calls { s with r := { s.r with responseDone := true } } = .ok s') :
    Lawful AnswersOnce s'.log ∧ Answering s' := by
  have hone := h.one hopen
  cases httpResponseDone_cases hend with
  | inl hkept =>
      have hlog : s'.log = s.log ++ [.responseDone, .discard s.places] ++ [.clearRequest s.r.curUpstream] := by
        rw [hkept.2, keptAlive, httpClearRequest_eq]
        simp [Exchange.tell]
      have haside : ∀ d ∈ [Deed.responseDone, .discard s.places], d.answers = false ∧ d.clears = false := by
        intro d hd
        cases hd with
        | head => exact ⟨rfl, rfl⟩
        | tail _ hd =>
            rw [List.mem_singleton.mp hd]
            exact ⟨rfl, rfl⟩
      have hnew : requestDeeds s'.log = [] := by
        rw [hlog]
        exact since_concat Deed.clears _ _
      refine ⟨?_, .line ⟨⟨?_, ?_, ?_, ?_⟩, .inr ?_, ?_, ?_⟩⟩
      · rw [hlog]
        refine lawful_concat.mpr ⟨lawful_aside hlaw hone haside, ?_⟩
        change AnswerLaw (requestDeeds (s.log ++ [.responseDone, .discard s.places])) _
        rw [requestDeeds_append fun d hd => (haside d hd).2]
        refine ⟨fun status page heq => by contradiction, ?_⟩
        refine (hone.aside fun d hd => (haside d hd).1).aside fun d hd => ?_
        rw [List.mem_singleton.mp hd]
        rfl
      · rw [hnew]
        rfl
      · rw [hnew]
        rfl
      · rw [hkept.2, keptAlive, httpClearRequest_eq]
      · rw [hkept.2, keptAlive, httpClearRequest_eq]
        rfl
      · rw [hkept.2, keptAlive]
        exact EventS.addTimer_handler _ _ _
      · rw [hnew]
        rfl
      · rw [hkept.2, keptAlive, httpClearRequest_eq]
  | inr hclosed =>
      have hlog : ∀ d ∈ [Deed.responseDone], d.answers = false ∧ d.clears = false := fun d hd => by
        rw [List.mem_singleton.mp hd]
        exact ⟨rfl, rfl⟩
      rw [hclosed.2, httpCloseRequest_eq]
      have hdone : OneAnswer (requestDeeds (s.log ++ [.responseDone])) := by
        rw [requestDeeds_append fun d hd => (hlog d hd).2]
        exact hone.aside fun d hd => (hlog d hd).1
      refine ⟨lawful_aside (lawful_aside hlaw hone hlog) hdone fun d hd => ?_, .closed rfl⟩
      cases hd with
      | head => exact ⟨rfl, rfl⟩
      | tail _ hact => exact aside_of_acts hact

/-- What a turn that keeps to one answer allows a move to be. -/
structure Answering.Admits (s : Exchange) (l : Label) : Prop where
  err : l = .err → clientParts (requestDeeds s.log) = []
  relay : ∀ xs, l = .relay xs → lastPage (requestDeeds s.log) ≠ none → xs = []
  file : ∀ fd lost, l = .sendFile fd lost → 0 < fd ∧ lost = false

/-- Every such move keeps the law. -/
theorem Answering.move (h : Answering s) (hopen : s.closed = false) (hs : InOrder s)
    (hlaw : Lawful AnswersOnce s.log) (hl : Answering.Admits s l) (hmove : Move cfg l s s') :
    Lawful AnswersOnce s'.log ∧ Answering s' := by
  have hf := hs.flagged hopen
  have hquiet : Aside s s' → Lawful AnswersOnce s'.log ∧ Answering s' := by
    intro ha
    refine ⟨?_, h.aside hopen ha⟩
    obtain ⟨ds, hlog, hds⟩ := ha.log
    rw [hlog]
    exact lawful_aside hlaw (h.one hopen) hds
  cases hmove with
  | ran | pass => exact hquiet (.of_client (aside_of_one rfl ⟨rfl, rfl⟩) rfl rfl rfl rfl rfl rfl)
  | recv | state | attached => exact hquiet (.of_client (aside_of_log rfl) rfl rfl rfl rfl rfl rfl)
  | mark hrev hwev => exact hquiet (Move.aside_mark hrev hwev)
  | parse hrev hbuf hup hdone => exact hquiet (.of_client (aside_of_log rfl) rfl rfl rfl rfl hup hdone)
  | uriDone => exact hquiet (Move.aside_uriDone s)
  | timeRev =>
      exact hquiet (.of_rev (EventS.addTimer_handler _ _ _) (fun _ => .inl (EventS.addTimer_active _ _ _))
        (aside_of_log rfl) rfl rfl rfl rfl rfl)
  | lineBegins hrev => exact hquiet (Move.aside_lineBegins hrev)
  | headersRead hrev => exact hquiet (Move.aside_headersRead hrev)
  | rewind =>
      exact hquiet (.of_rev (EventS.delEvent_handler _) (fun _ => .inr (EventS.delEvent_active _))
        (aside_of_one rfl ⟨rfl, rfl⟩) rfl rfl rfl rfl rfl)
  | reconnect hfd hcur hsel =>
      refine hquiet (.of_client ⟨_, rfl, fun d hd => aside_of_acts hd⟩ rfl rfl rfl rfl ?_ ?_)
      · rw [hsel.frame]
        rfl
      · rw [hsel.frame]
        rfl
  | passAll hfd => exact hquiet (Move.aside_passAll hs.handled hfd _ _)
  | timeWev =>
      exact hquiet (.of_wev (EventS.addTimer_handler _ _ _) fun _ => EventS.addTimer_active _ _ _)
  | delWev hwrites hup => exact hquiet (.of_wev (EventS.delEvent_handler _) fun hnone => absurd hnone hup)
  | openFile hrev hdone hr =>
      have hline := h.of_line hopen hrev hdone
      refine ⟨hlaw, .hasFile ⟨⟨hline.parts, hline.page, hline.buffer, ?_⟩, .inl rfl, ?_,
        hf.waits hline.starts hdone, ⟨le_refl 0, rfl⟩, rfl⟩⟩
      · rw [hr]
        exact hdone
      · rw [hr]
        exact (hs.handled.start hline.starts).2
  | forward hrev hdone hr hbuf hsel =>
      have hline := h.of_line hopen hrev hdone
      have hds : ∀ d ∈ Deed.openUpstream :: List.map Deed.balancer ‹List Act›,
          d.answers = false ∧ d.clears = false := by
        intro d hd
        cases hd with
        | head => exact ⟨rfl, rfl⟩
        | tail _ hact => exact aside_of_acts hact
      have hdeeds : requestDeeds (s.log ++ _) = _ := requestDeeds_append fun d hd => (hds d hd).2
      refine ⟨lawful_aside hlaw hline.one hds, .backEnd ⟨.inl rfl, .inl ?_, hline.noFile, ?_, ?_, ?_⟩⟩
      · dsimp only
        rw [hsel.frame]
        exact Option.some_ne_none _
      · dsimp only [Exchange.onRev]
        rw [hline.buffer]
        exact le_refl 0
      · dsimp only [Exchange.onRev]
        rw [hdeeds, lastPage_append (lastPage_aside fun d hd => (hds d hd).1)]
        exact hline.page
      · dsimp only [Exchange.onRev]
        rw [hdeeds, clientParts_append, hline.parts, clientParts_aside fun d hd => (hds d hd).1,
          upstreamBytes_append, hline.received, upstreamBytes_aside fun d hd => (hds d hd).1, hline.buffer]
        rfl
  | err c r b m up ds status hc hline hcur hup hds herr =>
      exact h.err hopen hlaw (hl.err rfl) hds rfl herr
  | respond hrev hreads hup hdone hres =>
      refine Answering.respond h hopen hlaw hrev hreads hup hdone ?_ ?_ hres
      · rfl
      · rfl
  | await hrev hup hdone =>
      -- the answer is there: it is the back end's, or an error page
      have hline : s.LineRead := .inr hrev
      have hline' : ((s.onRev EventS.delEvent).onWev fun ev =>
          { ev with handler := some .handleResponse }).LineRead :=
        .inr ((EventS.delEvent_handler _).trans hrev)
      refine ⟨hlaw, ?_⟩
      cases h with
      | line h => exact absurd h.starts hline.not_starts
      | hasFile h => exact nomatch h.waits.symm.trans hdone
      | file h => exact nomatch h.waits.symm.trans hdone
      | backEnd h => exact .backEnd ⟨hline', h.source, h.noFile, h.begins, h.page, h.parts⟩
      | page h => exact .page ⟨h.done, rfl, h.parts⟩
      | closed h => exact nomatch h.symm.trans hopen
  | relay hfd hb => exact h.relay hopen hs.handled hlaw (hl.relay _ rfl) hfd hb rfl
  | upstreamEof hfd =>
      refine ⟨hlaw, ?_⟩
      cases h.of_attached hopen hs.handled hfd with
      | inl h => exact .backEnd ⟨h.line, .inr rfl, h.noFile, h.begins, h.page, h.parts⟩
      | inr h => exact .page ⟨rfl, h.wev, h.parts⟩
  | send hwrites hwev hb => exact h.send hopen hf hlaw hwrites hwev hb
  | toFile hwrites hwev hbuf hup hfd hdone =>
      refine ⟨hlaw, ?_⟩
      rcases h.of_writes hopen hf hwrites with h | h | h
      · exact .file ⟨h.line, h.detached, h.waits, h.idle, h.page, h.file, .inr ⟨rfl, hbuf⟩, h.parts⟩
      · exact absurd hfd (not_lt.mpr h.noFile)
      · exact nomatch h.done.symm.trans hdone
  | sendFile calls hwrites hwev hfile =>
      obtain ⟨hfd, hcount⟩ := hl.file _ _ rfl
      exact h.sendFile hopen hf hlaw hwrites hwev hfd hcount hfile
  | done calls hwrites hdone hend => exact h.done hopen hlaw hend
  | close calls => exact h.close hopen hlaw calls
  | drop => exact ⟨hlaw, .closed rfl⟩

/-- What a move sends and constructs, by its label. -/
theorem Move.answers (hmove : Move cfg l s s') :
    ∃ ds, s'.log = s.log ++ ds ∧ ∀ d ∈ ds,
      (d.parts = [] ∨ l = .send ∨ ∃ fd lost, l = .sendFile fd lost) ∧ (d.page = none ∨ l = .err) := by
  have hnone : ∀ ds : List Deed, (∀ d ∈ ds, d.answers = false) → ∀ d ∈ ds,
      (d.parts = [] ∨ l = .send ∨ ∃ fd lost, l = .sendFile fd lost) ∧ (d.page = none ∨ l = .err) :=
    fun ds hds d hd => ⟨.inl (parts_of_aside (hds d hd)), .inl (page_of_aside (hds d hd))⟩
  have hends : ∀ ds : List Deed, (∀ d ∈ ds, d.ends = true) → ∀ d ∈ ds, d.answers = false := by
    intro ds hds d hd
    have hd' := hds d hd
    cases d <;> first | rfl | contradiction
  cases hmove with
  | mark | recv | parse | uriDone | state | timeRev | lineBegins | openFile | await | attached |
    upstreamEof | timeWev | delWev | toFile | drop =>
      exact ⟨[], (List.append_nil _).symm, fun d hd => nomatch hd⟩
  | ran | headersRead | rewind | pass =>
      exact ⟨[_], rfl, hnone _ fun d hd => by rw [List.mem_singleton.mp hd]; rfl⟩
  | passAll =>
      refine ⟨[_, _], List.append_assoc _ _ _, hnone _ fun d hd => ?_⟩
      cases hd with
      | head => rfl
      | tail _ hd =>
          rw [List.mem_singleton.mp hd]
          rfl
  | forward hrev =>
      refine ⟨_, rfl, hnone _ fun d hd => ?_⟩
      cases hd with
      | head => rfl
      | tail _ hact => exact (aside_of_acts hact).1
  | reconnect => exact ⟨_, rfl, hnone _ fun d hd => (aside_of_acts hd).1⟩
  | err c r b m up ds status hc hline hcur hup hds h =>
      refine ⟨ds ++ [.constructErr status s'.sendBuffer.pending], ?_, fun d hd => ⟨.inl ?_, .inr rfl⟩⟩
      · rw [constructErr_log h, List.append_assoc]
      · cases List.mem_append.mp hd with
        | inl hold => rcases hds d hold with heq | ⟨us, heq⟩ <;> rw [heq] <;> rfl
        | inr hnew =>
            rw [List.mem_singleton.mp hnew]
            rfl
  | respond hrev hreads hup hdone h =>
      obtain ⟨b, -, hs'⟩ := constructResponse_eq h
      rw [hs']
      refine ⟨[_], rfl, fun d hd => ?_⟩
      rw [List.mem_singleton.mp hd]
      exact ⟨.inl rfl, .inl rfl⟩
  | relay =>
      refine ⟨[_], rfl, fun d hd => ?_⟩
      rw [List.mem_singleton.mp hd]
      exact ⟨.inl rfl, .inl rfl⟩
  | send =>
      refine ⟨[_], rfl, fun d hd => ⟨.inr (.inl rfl), .inl ?_⟩⟩
      rw [List.mem_singleton.mp hd]
      rfl
  | sendFile =>
      refine ⟨[_], rfl, fun d hd => ⟨.inr (.inr ⟨_, _, rfl⟩), .inl ?_⟩⟩
      rw [List.mem_singleton.mp hd]
      rfl
  | done calls hwrites hdone h =>
      obtain ⟨ds, hlog, hds, -⟩ := httpResponseDone_log h
      refine ⟨_, hlog, hnone _ fun d hd => ?_⟩
      cases hd with
      | head => rfl
      | tail _ hd => exact hends ds hds d hd
  | close calls =>
      obtain ⟨ds, hlog, hds⟩ := httpCloseRequest_log calls s
      exact ⟨ds, hlog, hnone _ (hends ds hds)⟩

end

/-! ## runs -/

/-- A turn that keeps to one answer.  Once the client has received something, no
handler that runs fails; once an error page has been constructed, the back end
sends nothing; and `send_file` has a file, and does not lose count of it. -/
structure Exchange.KeepsAnswer (cfg : Config) (s : Exchange) (t : Turn) : Prop where
  noFailure : clientParts (requestDeeds s.log) ≠ [] → ∀ h s₁, s.Runs t h s₁ → ¬ s₁.Fails cfg t.calls h
  noBytes : lastPage (requestDeeds s.log) ≠ none → ∀ s₁, s.Runs t .httpRecvUpstream s₁ → 0 < s₁.up.fd →
    s₁.up.rev.timedout = false → (bufferRecv s₁.sendBuffer t.calls.recvUpstream).2.1 = []
  file : ∀ h s₁, s.Runs t h s₁ → s₁.SendsFile t.calls h → 0 < s₁.resourceFd ∧ s₁.fileLost t.calls = false

section

variable {cfg : Config} {t : Turn} {s s₁ s₂ : Exchange} {l : Label}

/-- What has been sent or constructed since the turn began. -/
structure SinceTurn (cfg : Config) (t : Turn) (s s₁ : Exchange) : Prop where
  parts : clientParts (requestDeeds s₁.log) ≠ [] → clientParts (requestDeeds s.log) ≠ [] ∨
    s.Allows cfg t .send ∨ ∃ fd lost, s.Allows cfg t (.sendFile fd lost)
  page : lastPage (requestDeeds s₁.log) ≠ none → lastPage (requestDeeds s.log) ≠ none ∨ s.Allows cfg t .err

theorem SinceTurn.move (h : SinceTurn cfg t s s₁) (hl : s.Allows cfg t l) (hmove : Move cfg l s₁ s₂) :
    SinceTurn cfg t s s₂ := by
  obtain ⟨ds, hlog, hds⟩ := hmove.answers
  constructor
  · intro hparts
    rw [hlog, ne_eq, clientParts_eq_nil] at hparts
    push Not at hparts
    obtain ⟨d, hd, hne⟩ := hparts
    cases mem_requestDeeds_append hd with
    | inl hold => exact h.parts fun hnil => hne (clientParts_eq_nil.mp hnil d hold)
    | inr hnew =>
        rcases (hds d hnew).1 with hnil | hsend | ⟨fd, lost, hfile⟩
        · exact absurd hnil hne
        · exact .inr (.inl (hsend ▸ hl))
        · exact .inr (.inr ⟨fd, lost, hfile ▸ hl⟩)
  · intro hpage
    rw [hlog, ne_eq, lastPage_eq_none] at hpage
    push Not at hpage
    obtain ⟨d, hd, hne⟩ := hpage
    cases mem_requestDeeds_append hd with
    | inl hold => exact h.page fun hnone => hne (lastPage_eq_none.mp hnone d hold)
    | inr hnew =>
        cases (hds d hnew).2 with
        | inl hnone => exact absurd hnone hne
        | inr herr => exact .inr (herr ▸ hl)

/-- A handler of the request line finds that the client has received nothing. -/
theorem Answering.of_runs {h : EventHandler} (ha : Answering s) (hs : InOrder s) (hruns : s.Runs t h s₁)
    (hline : h = .httpInitRequest ∨ h = .ngxHttpProcessRequestLine) :
    clientParts (requestDeeds s.log) = [] := by
  obtain ⟨e, hdue⟩ := hruns.due
  have hhandler : (s.event e).handler = some h := (hdue.marked e).handler.symm.trans hdue.handler
  have hrev : e = .rev := by
    cases e with
    | rev => rfl
    | wev => rcases hs.handled.wev h hhandler with rfl | rfl <;> simp at hline
    | upRev =>
        rw [hs.handled.upRev h hhandler] at hline
        simp at hline
    | upWev => rcases hs.handled.upWev h hhandler with rfl | rfl <;> simp at hline
  rw [hrev] at hdue hhandler
  have hstarts : s.Starts := by
    rcases hline with hinit | hline
    · rw [hinit] at hhandler
      exact .inl hhandler
    · rw [hline] at hhandler
      exact .inr hhandler
  have hwaits := hdue.starts (hs.flagged hruns.open) hstarts
  cases ha with
  | line ha => exact ha.parts
  | hasFile ha => exact ha.parts
  | file ha => exact absurd hstarts ha.line.not_starts
  | backEnd ha => exact absurd hstarts ha.line.not_starts
  | page ha => exact nomatch ha.done.symm.trans hwaits
  | closed ha => exact nomatch ha.symm.trans hruns.open

theorem bufferRecv_error {b : Buffer} {o : Recv} (h : (bufferRecv b o).1 = .error) :
    (bufferRecv b o).2.1 = [] := by
  unfold bufferRecv at h ⊢
  split at h
  · contradiction
  · next hfull =>
    rw [if_neg hfull]
    cases o <;> first | contradiction | rfl

/-- A turn that keeps to one answer admits every move it allows. -/
theorem Exchange.KeepsAnswer.admits (hkeeps : s.KeepsAnswer cfg t) (ha : Answering s) (hs : InOrder s)
    (hsince : SinceTurn cfg t s s₁) (hl : s.Allows cfg t l) : Answering.Admits s₁ l where
  err := by
    intro heq
    rw [heq] at hl
    obtain ⟨h, s₂, hruns, hcalls⟩ := hl
    by_contra hparts
    rcases hsince.parts hparts with hbefore | hsend | ⟨fd, lost, hfile⟩
    · rcases hcalls with hfails | hline
      · exact hkeeps.noFailure hbefore h s₂ hruns hfails
      · exact hbefore (ha.of_runs hs hruns hline)
    · -- `handle_response` does not fail
      obtain ⟨s₃, hruns', htime⟩ := hsend
      obtain ⟨rfl, rfl⟩ := hruns.unique hruns'
      simp [Exchange.Fails] at hcalls
    · obtain ⟨h', s₃, hruns', hsends, -⟩ := hfile
      obtain ⟨rfl, rfl⟩ := hruns.unique hruns'
      cases h' with
      | handleResponseFile =>
          have htime : s₃.c.wev.timedout = false := hsends
          simp [Exchange.Fails, htime] at hcalls
      | handleResponse => simp [Exchange.Fails] at hcalls
      | _ => exact hsends
  relay := by
    intro xs heq hpage
    rw [heq] at hl
    obtain ⟨s₂, hruns, hfd, htime, hxs⟩ := hl
    rw [hxs]
    cases hsince.page hpage with
    | inl hbefore => exact hkeeps.noBytes hbefore s₂ hruns hfd htime
    | inr herr =>
        obtain ⟨h, s₃, hruns', hcalls⟩ := herr
        obtain ⟨rfl, rfl⟩ := hruns.unique hruns'
        rcases hcalls with hfails | hline
        · rcases hfails.2 with hlate | herror
          · exact nomatch htime.symm.trans hlate
          · exact bufferRecv_error herror
        · simp at hline
  file := by
    intro fd lost heq
    rw [heq] at hl
    obtain ⟨h, s₂, hruns, hsends, hfd, hlost⟩ := hl
    rw [hfd, hlost]
    exact hkeeps.file h s₂ hruns hsends

end

theorem answering_accepted (cfg : Config) (now : BitVec 32) (slot : Slot) (fd : Int) (ip : BitVec 32) :
    Answering (.accepted cfg now slot fd ip) := by
  refine .line ⟨⟨rfl, rfl, rfl, rfl⟩, .inl ?_, rfl, le_refl 0⟩
  change (EventS.addEvent (EventS.addTimer _ _ _)).handler = _
  rw [EventS.addEvent_handler, EventS.addTimer_handler]

/-- **One answer**: in a run from an accepted connection whose turns all keep to
one answer, `construct_err` is not called for a request once the client has
received something for it, and what the client receives for each request is the
beginning of one error page or of one genuine response. -/
theorem answers_lawful {cfg : Config} {ts : List Turn} {now : BitVec 32} {slot : Slot} {fd : Int}
    {ip : BitVec 32} {s' : Exchange}
    (halways : Exchange.Always cfg (Exchange.KeepsAnswer cfg) ts (.accepted cfg now slot fd ip))
    (hrun : Exchange.run cfg ts (.accepted cfg now slot fd ip) = .ok s') : Lawful AnswersOnce s'.log := by
  refine (Exchange.run_induction
    (I := fun s => InOrder s ∧ Lawful AnswersOnce s.log ∧ Answering s) ?_ halways
    ⟨inOrder_accepted cfg now slot fd ip, lawful_nil, answering_accepted cfg now slot fd ip⟩ hrun).2.1
  intro s t s' hI hkeeps hstep
  obtain ⟨hs, hlaw, ha⟩ := hI
  have hturn := step_induct
    (I := fun s₁ => (Lawful AnswersOnce s₁.log ∧ Answering s₁) ∧ SinceTurn cfg t s s₁) hs hstep ?_
    ⟨⟨hlaw, ha⟩, fun h => .inl h, fun h => .inl h⟩
  · exact ⟨hturn.1, hturn.2.1⟩
  · intro l s₁ s₂ hopen hs₁ hl hmove hboth
    obtain ⟨⟨hlaw₁, ha₁⟩, hsince⟩ := hboth
    exact ⟨ha₁.move hopen hs₁ hlaw₁ (hkeeps.admits ha hs hsince hl) hmove, hsince.move hl hmove⟩

/-- The turn finds that nothing has been received or constructed for the
request, and that there is no file. -/
def Exchange.blank (s : Exchange) (_ : Turn) : Bool :=
  decide (clientParts (requestDeeds s.log) = []) && decide (lastPage (requestDeeds s.log) = none) &&
    decide (s.resourceFd ≤ 0) &&
    [EventId.rev, .wev, .upRev, .upWev].all fun e => (s.event e).handler ≠ some .handleResponseFile

theorem Exchange.keepsAnswer_of_blank {cfg : Config} (s : Exchange) (t : Turn) (h : s.blank t = true) :
    s.KeepsAnswer cfg t := by
  simp only [Exchange.blank, Bool.and_eq_true, decide_eq_true_iff] at h
  obtain ⟨⟨⟨hparts, hpage⟩, hfd⟩, hhandlers⟩ := h
  refine ⟨fun hne => absurd hparts hne, fun hne => absurd hpage hne, fun h s₁ hruns hsends => ?_⟩
  obtain ⟨e, hdue⟩ := hruns.due
  have hhandler : (s.event e).handler = some h := (hdue.marked e).handler.symm.trans hdue.handler
  cases h with
  | handleResponseFile =>
      rw [List.all_eq_true] at hhandlers
      have hnot := hhandlers e (by cases e <;> simp)
      rw [hhandler] at hnot
      contradiction
  | handleResponse =>
      have hpos := hsends.2.2.2.2
      rw [hdue.same] at hpos
      exact absurd hpos (not_lt.mpr hfd)
  | _ => exact absurd hsends id

/-- A request for `/b`, to which the back end answers with two bytes, which are
sent. -/
def twoBytes : List Turn :=
  [⟨.poll, oneServer⟩, ⟨.ready .rev, { oneServer with recvLine := .bytes (getB '1') }⟩,
    ⟨.poll, oneServer⟩, ⟨.ready .upRev, { oneServer with recvUpstream := .bytes (text ['a', 'b']) }⟩,
    ⟨.poll, oneServer⟩, ⟨.ready .wev, oneServer⟩]

theorem answers_lawful_twoBytes :
    ∃ s', Exchange.run forwardsB twoBytes (.accepted forwardsB 0 0 5 0) = .ok s' ∧
      clientParts s'.log = (text ['a', 'b']).map .byte ∧ Lawful AnswersOnce s'.log := by
  have htest : Exchange.runTest forwardsB
      (fun s' => decide (clientParts s'.log = (text ['a', 'b']).map .byte)) twoBytes
      (.accepted forwardsB 0 0 5 0) = true := by decide +kernel
  obtain ⟨s', hrun, hs'⟩ := Exchange.exists_of_runTest htest
  refine ⟨s', hrun, decide_eq_true_iff.mp hs', answers_lawful ?_ hrun⟩
  exact Exchange.always_of_alwaysTest (p := Exchange.blank) Exchange.keepsAnswer_of_blank (by decide +kernel)

/-- The last deed is an error page, after the client has received something. -/
def endsInPage (log : List Deed) : Bool :=
  match log.getLast? with
  | some (.constructErr _ _) => decide (clientParts (requestDeeds log.dropLast) ≠ [])
  | _ => false

theorem not_lawful_of_endsInPage {log : List Deed} (h : endsInPage log = true) : ¬ Lawful AnswersOnce log := by
  unfold endsInPage at h
  split at h
  · next status page hlast =>
    intro hlaw
    have hlog : log = log.dropLast ++ [.constructErr status page] :=
      (List.dropLast_append_getLast? _ hlast).symm
    have hlaw' := (hlaw log.dropLast _ [] hlog).noPage status page rfl
    exact absurd hlaw' (decide_eq_true_iff.mp h)
  · contradiction

/-- The two bytes have been sent when reading from the back end fails, and an
error page is constructed. -/
theorem answers_twice :
    ∃ s', Exchange.run forwardsB
        (twoBytes ++ [⟨.poll, oneServer⟩, ⟨.ready .upRev, { oneServer with recvUpstream := .fail }⟩])
        (.accepted forwardsB 0 0 5 0) = .ok s' ∧ ¬ Lawful AnswersOnce s'.log := by
  have htest : Exchange.runTest forwardsB (fun s' => endsInPage s'.log)
      (twoBytes ++ [⟨.poll, oneServer⟩, ⟨.ready .upRev, { oneServer with recvUpstream := .fail }⟩])
      (.accepted forwardsB 0 0 5 0) = true := by decide +kernel
  obtain ⟨s', hrun, hs'⟩ := Exchange.exists_of_runTest htest
  exact ⟨s', hrun, not_lawful_of_endsInPage hs'⟩

end PWebServer
