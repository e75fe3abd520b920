import PWebServer.Http.Answers
import PWebServer.Http.ContentLength

/-!
# Http.Complete

`http_response_done` is called when the response is complete: what the client has
received for the request is then not the beginning of an answer but all of it
(`responses_complete`).

The pieces of the request's state that `Answering` leaves open are those that say
what is still missing: whether there is a file, and that its offset and the length
that is left add up to the length in the header.
-/

namespace PWebServer

open History

/-! ## the law -/

/-- The whole answer has gone to the client: the error page; or what the back end
has sent; or a header and as many bytes of the file as it declares. -/
def CompleteAnswer (ds : List Deed) : Prop :=
  match lastPage ds with
  | some page => clientParts ds = page.map .byte
  | none => (.openUpstream ∈ ds ∧ clientParts ds = (upstreamBytes ds).map .byte) ∨
      ∃ header size, .constructResponse header ∈ ds ∧ declaredLength header = some ((size : Nat) : Int) ∧
        clientParts ds = header.map .byte ++ (List.range size).map .file

/-- The law for each request of a connection. -/
def DoneWhenComplete (p : List Deed) (d : Deed) : Prop := d = .responseDone → CompleteAnswer (requestDeeds p)

section

variable {log ds : List Deed}

/-- Other deeds keep the law. -/
theorem lawful_undone (h : Lawful DoneWhenComplete log) (hds : .responseDone ∉ ds) :
    Lawful DoneWhenComplete (log ++ ds) := by
  refine h.append fun p d hd hdone => ?_
  rw [hdone] at hd
  exact absurd hd hds

end

/-! ## the file -/

/-- The header that `construct_response` makes declares the length of the file. -/
theorem declaredLength_constructResponse {version : Version} {status : Int} {ext : Extension}
    {resourceLen : Int} {b b' : Buffer}
    (h : constructResponseBuffer version status ext resourceLen b = .ok b') :
    declaredLength b'.pending = some (toInt32 resourceLen) := by
  rw [constructResponseBuffer_eq] at h
  cases h
  refine declaredLength_headerLines (fun l hl => ?_) _ _
  cases List.mem_cons.mp hl with
  | inl heq =>
      rw [heq]
      exact (statusLine_line version status).2
  | inr hin =>
      rw [List.mem_singleton.mp hin]
      exact (contentTypeLine_line ext).2

/-- A call that does not lose count takes from the length what it adds to the
offset, and returns `OK` with nothing left. -/
theorem sendFile_sum {size : Nat} {os os' : List Sendfile} {s s' : Sending} {want : Int} {ret : Option Ret}
    (h : sendFile size s want os = .ok (ret, s', os')) (hcount : losesCount size s want os = false)
    (hfits : toInt32 s.resourceOff = s.resourceOff) :
    s'.resourceOff + s'.resourceLen = s.resourceOff + s.resourceLen ∧
      toInt32 s'.resourceOff = s'.resourceOff ∧ (ret = some .ok → s'.resourceLen = 0) := by
  induction os generalizing s want with
  | nil =>
      cases h
      exact ⟨rfl, hfits, fun hret => by cases hret⟩
  | cons o os ih =>
      unfold losesCount at hcount
      cases o with
      | again k =>
          cases h
          rw [decide_eq_false_iff_not, not_not] at hcount
          simp only [Sending.advance, Sending.took, hcount]
          exact ⟨by omega, trivial, fun hret => by cases hret⟩
      | intr k =>
          dsimp only at hcount
          rw [Bool.or_eq_false_iff] at hcount
          have hnext := ih (s := s.took ((Sendfile.intr k).count size s.resourceOff want)) h hcount.2 hfits
          exact hnext
      | fail =>
          cases h
          exact ⟨rfl, hfits, fun hret => by cases hret⟩
      | complete =>
          rw [decide_eq_false_iff_not, not_not] at hcount
          unfold sendFile sendFileBody at h
          dsimp only at h
          split at h
          · contradiction
          · next hzero =>
            cases h
            simp only [Sending.advance, Sending.took, hcount] at hzero ⊢
            exact ⟨by omega, trivial, fun _ => not_not.mp hzero⟩

/-! ## what an answer is made from -/

/-- What is there to answer with, once the request line has been read. -/
structure Stocked (s : Exchange) : Prop where
  opened : s.LineRead → s.resourceFd ≤ 0 → lastPage (requestDeeds s.log) = none →
    .openUpstream ∈ requestDeeds s.log
  stocked : s.LineRead → s.r.upstream = none → s.r.responseDone = false → 0 < s.resourceFd
  fits : toInt32 s.file.resourceOff = s.file.resourceOff
  declared : ∀ header, .constructResponse header ∈ requestDeeds s.log →
    declaredLength header = some (toInt32 (s.file.resourceOff + s.file.resourceLen))
  fresh : s.Starts → ∀ header, .constructResponse header ∉ requestDeeds s.log

section

variable {cfg : Config} {l : Label} {s s' : Exchange}

theorem constructResponse_aside {ds : List Deed} {header : List UInt8} (h : ∀ d ∈ ds, d.answers = false) :
    .constructResponse header ∉ ds := fun hmem => nomatch h _ hmem

/-- The file stays as it is, and no header is constructed. -/
theorem Stocked.of_file {ds : List Deed} (h : Stocked s)
    (hlog : requestDeeds s'.log = requestDeeds s.log ++ ds)
    (hds : ∀ header, .constructResponse header ∉ ds) (hfile : s'.file = s.file)
    (hstarts : s'.Starts → s.Starts)
    (hopened : s'.LineRead → s'.resourceFd ≤ 0 → lastPage (requestDeeds s'.log) = none →
      .openUpstream ∈ requestDeeds s'.log)
    (hstocked : s'.LineRead → s'.r.upstream = none → s'.r.responseDone = false → 0 < s'.resourceFd) :
    Stocked s' := by
  have hheader : ∀ header, .constructResponse header ∈ requestDeeds s'.log →
      .constructResponse header ∈ requestDeeds s.log := fun header hmem => by
    rw [hlog] at hmem
    exact (List.mem_append.mp hmem).resolve_right (hds header)
  refine ⟨hopened, hstocked, ?_, ?_, ?_⟩
  · rw [hfile]
    exact h.fits
  · rw [hfile]
    exact fun header hmem => h.declared header (hheader header hmem)
  · exact fun hs' header hmem => h.fresh (hstarts hs') header (hheader header hmem)

theorem Stocked.aside (h : Stocked s) (ha : Aside s s') (hline : s'.LineRead → s.LineRead)
    (hstarts : s'.Starts → s.Starts) : Stocked s' := by
  obtain ⟨ds, hlog, hds⟩ := ha.deeds
  refine h.of_file hlog (fun header => constructResponse_aside hds) ha.file hstarts (fun hread hfd hpage => ?_) ?_
  · rw [hlog]
    rw [ha.resourceFd] at hfd
    rw [ha.page] at hpage
    exact List.mem_append_left ds (h.opened (hline hread) hfd hpage)
  · rw [ha.upstream, ha.done, ha.resourceFd]
    exact fun hread => h.stocked (hline hread)

/-- One deed that is part of the answer. -/
theorem Stocked.one {d : Deed} (h : Stocked s) (hlog : s'.log = s.log ++ [d]) (hclears : d.clears = false)
    (hd : ∀ header, .constructResponse header ≠ d) (hpage : d.page = none) (hfile : s'.file = s.file)
    (hfd : s'.resourceFd = s.resourceFd) (hr : s'.r = s.r)
    (hrev : s'.c.rev.handler = s.c.rev.handler) : Stocked s' := by
  have hdeeds := requestDeeds_one hlog hclears
  have hline : s'.LineRead → s.LineRead := by
    unfold Exchange.LineRead
    rw [hrev]
    exact id
  refine h.of_file hdeeds (fun header hmem => hd header (List.mem_singleton.mp hmem)) hfile ?_
    (fun hread hno hnone => ?_) ?_
  · unfold Exchange.Starts
    rw [hrev]
    exact id
  · rw [hdeeds, lastPage_append (lastPage_eq_none.mpr fun d' hd' => by rwa [List.mem_singleton.mp hd'])] at hnone
    rw [hfd] at hno
    rw [hdeeds]
    exact List.mem_append_left _ (h.opened (hline hread) hno hnone)
  · rw [hr, hfd]
    exact fun hread => h.stocked (hline hread)

/-- A move that logs nothing, and after which there is as much to answer with. -/
theorem Stocked.of_quiet (h : Stocked s) (hlog : s'.log = s.log) (hfile : s'.file = s.file)
    (hfd : s'.resourceFd = s.resourceFd) (hrev : s'.c.rev.handler = s.c.rev.handler)
    (hstocked : s'.LineRead → s'.r.upstream = none → s'.r.responseDone = false → 0 < s'.resourceFd) :
    Stocked s' := by
  have hdeeds : requestDeeds s'.log = requestDeeds s.log ++ [] := by rw [hlog, List.append_nil]
  refine h.of_file hdeeds (fun header hmem => nomatch hmem) hfile ?_ ?_ hstocked
  · unfold Exchange.Starts
    rw [hrev]
    exact id
  · unfold Exchange.LineRead
    rw [hrev, hfd, hlog]
    exact h.opened

theorem Stocked.quiet (h : Stocked s) (hlog : s'.log = s.log) (hfile : s'.file = s.file)
    (hfd : s'.resourceFd = s.resourceFd) (hup : s'.r.upstream = s.r.upstream)
    (hdone : s'.r.responseDone = s.r.responseDone) (hrev : s'.c.rev.handler = s.c.rev.handler) : Stocked s' := by
  refine h.of_quiet hlog hfile hfd hrev ?_
  unfold Exchange.LineRead
  rw [hrev, hup, hdone, hfd]
  exact h.stocked

/-- An error page is constructed. -/
theorem Stocked.err {c : Connection} {r : HttpRequest} {b : Buffer} {m : List UInt8} {up : Connection} {ds : List Deed}
    {status : Int} (h : Stocked s)
    (hc : c = s.c ∨ s.c.rev.handler = some .ngxHttpProcessRequestLine ∧
      c = { s.c with rev := { s.c.rev with handler := some .httpParseHeaders } })
    (hds : ∀ d ∈ ds, d = .balancer (.constructErr 502) ∨ ∃ us, d = .balancer (.connectTimedout us))
    (herr : Exchange.constructErr cfg
      { s with c := c, r := r, recvBuffer := b, recvBehind := m, up := up, log := s.log ++ ds } status = .ok s') :
    Stocked s' := by
  have hans := constructErr_answered herr
  have hfile : s'.file = s.file := by
    obtain ⟨b', -, hs'⟩ := constructErr_eq herr
    rw [hs']
    rfl
  have haside : ∀ d ∈ ds, d.answers = false ∧ d.clears = false := by
    intro d hd
    rcases hds d hd with heq | ⟨us, heq⟩
    · rw [heq]
      exact ⟨rfl, rfl⟩
    · rw [heq]
      exact ⟨rfl, rfl⟩
  have hlog : requestDeeds s'.log = requestDeeds s.log ++ (ds ++ [.constructErr status s'.sendBuffer.pending]) := by
    have hbefore : requestDeeds (s.log ++ ds) = requestDeeds s.log ++ ds :=
      requestDeeds_append fun d hd => (haside d hd).2
    rw [requestDeeds_one (constructErr_log herr) rfl, hbefore, List.append_assoc]
  refine h.of_file hlog (fun header hmem => ?_) hfile ?_ (fun _ _ hnone => ?_) fun _ _ hwaits => ?_
  · cases List.mem_append.mp hmem with
    | inl hin => exact constructResponse_aside (fun d hd => (haside d hd).1) hin
    | inr hin => exact nomatch List.mem_singleton.mp hin
  · unfold Exchange.Starts
    rw [hans.rev, EventS.delEvent_handler]
    rcases hc with heq | ⟨hrev, heq⟩
    · rw [heq]
      exact id
    · exact fun _ => .inr hrev
  · rw [requestDeeds_one (constructErr_log herr) rfl, lastPage_concat] at hnone
    contradiction
  · rw [hans.request] at hwaits
    contradiction

/-- The connection waits for another request. -/
theorem stocked_keptAlive (cfg : Config) (calls : Calls) (s : Exchange) : Stocked (keptAlive cfg calls s) := by
  have hstarts : (keptAlive cfg calls s).Starts := by
    refine .inr ?_
    unfold keptAlive
    exact EventS.addTimer_handler _ _ _
  have hlog : (keptAlive cfg calls s).log = s.log ++ [.discard s.places] ++ [.clearRequest s.r.curUpstream] := by
    unfold keptAlive
    rw [httpClearRequest_eq]
    simp
  have hdeeds : requestDeeds (keptAlive cfg calls s).log = [] := by
    rw [hlog]
    exact since_concat Deed.clears _ _
  have hnone : ∀ header, .constructResponse header ∉ requestDeeds (keptAlive cfg calls s).log := by
    rw [hdeeds]
    exact fun header hmem => nomatch hmem
  refine ⟨fun hline => absurd hstarts hline.not_starts, fun hline => absurd hstarts hline.not_starts, ?_,
    fun header hmem => absurd hmem (hnone header), fun _ => hnone⟩
  unfold keptAlive
  rw [httpClearRequest_eq]
  rfl

/-- The header of a file. -/
theorem Stocked.respond {r : HttpRequest} (h : Stocked s) (ha : Answering s) (hopen : s.closed = false)
    (hrev : s.c.rev.handler = some .requestHandleBody) (hreads : s.Reads) (hup : s.r.upstream = none)
    (hdone : s.r.responseDone = false)
    (hres : Exchange.constructResponse { s with
      c := { s.c with
        rev := s.c.rev.delEvent
        wev := EventS.addEvent { s.c.wev with handler := some .handleResponse } }
      r := r } = .ok s') : Stocked s' := by
  have hline : s.LineRead := .inr hrev
  have hfile : HasFile s := by
    cases ha with
    | line h => exact absurd h.starts hline.not_starts
    | hasFile h => exact h
    | file h => exact nomatch h.idle.symm.trans (hreads.active hdone)
    | backEnd h => exact absurd hdone (by simp [h.source.resolve_left (not_not.mpr hup)])
    | page h => exact nomatch h.done.symm.trans hdone
    | closed h => exact nomatch h.symm.trans hopen
  have hfd := h.stocked hline hup hdone
  have hoff : s.file.resourceOff = 0 := by
    have hnone := hfile.file.sent
    rw [hfile.sent] at hnone
    have hzero := List.range_eq_nil.mp hnone.symm
    have hpos := hfile.file.off
    omega
  obtain ⟨b, hb, hs'⟩ := constructResponse_eq hres
  have hdeeds : requestDeeds s'.log = requestDeeds s.log ++ [.constructResponse b.pending] :=
    requestDeeds_one (by rw [hs']; rfl) rfl
  have hnot : ¬ s'.Starts := by
    refine Exchange.LineRead.not_starts (.inr ?_)
    rw [hs']
    exact (EventS.delEvent_handler _).trans hrev
  refine ⟨fun _ hno => ?_, fun _ _ _ => ?_, ?_, fun header hmem => ?_, fun hs => absurd hs hnot⟩
  · rw [hs'] at hno
    exact absurd hfd (not_lt.mpr hno)
  · rw [hs']
    exact hfd
  · rw [hs']
    exact h.fits
  · rw [hdeeds] at hmem
    have hsame : s'.file = s.file := by rw [hs']; rfl
    rw [hsame]
    cases List.mem_append.mp hmem with
    | inl hold => exact h.declared header hold
    | inr hnew =>
        cases List.mem_singleton.mp hnew
        rw [hoff, zero_add]
        exact declaredLength_constructResponse hb

/-- Bytes of the file go out. -/
theorem Stocked.sendFile {calls : Calls} {ret : Option Ret} {file : Sending} {os : List Sendfile}
    (h : Stocked s) (hfd : 0 < s.resourceFd) (hcount : s.fileLost calls = false)
    (hfile : PWebServer.sendFile s.fileSize s.file s.file.resourceLen calls.sendfile = .ok (ret, file, os))
    (hs' : s' = { s.tell (.fileToClient (file.sent.drop s.file.sent.length)) with file := file }) :
    Stocked s' ∧ (ret = some .ok → s'.file.resourceLen = 0) := by
  obtain ⟨hsum, hfits, hzero⟩ := sendFile_sum hfile hcount h.fits
  rw [hs']
  obtain ⟨t, ht⟩ : ∃ t, t = s.tell (.fileToClient (file.sent.drop s.file.sent.length)) := ⟨_, rfl⟩
  have hlog : t.log = s.log ++ [.fileToClient (file.sent.drop s.file.sent.length)] := ht ▸ rfl
  have hdeeds : requestDeeds (s.log ++ [.fileToClient (file.sent.drop s.file.sent.length)]) =
      requestDeeds s.log ++ [.fileToClient (file.sent.drop s.file.sent.length)] :=
    hlog ▸ requestDeeds_one hlog rfl
  have hheader : ∀ header, .constructResponse header ∈
      requestDeeds (s.log ++ [.fileToClient (file.sent.drop s.file.sent.length)]) →
      .constructResponse header ∈ requestDeeds s.log := fun header hmem => by
    rw [hdeeds] at hmem
    exact (List.mem_append.mp hmem).resolve_right fun hnew => nomatch List.mem_singleton.mp hnew
  refine ⟨⟨fun _ hno => absurd hfd (not_lt.mpr hno), fun _ _ _ => hfd, hfits, fun header hmem => ?_,
    fun hstarts header hmem => h.fresh hstarts header (hheader header hmem)⟩, hzero⟩
  dsimp only
  rw [hsum]
  exact h.declared header (hheader header hmem)

/-- Every move that keeps to one answer. -/
theorem Stocked.move (h : Stocked s) (ha : Answering s) (hopen : s.closed = false) (hs : InOrder s)
    (hl : Answering.Admits s l) (hmove : Move cfg l s s') : s'.closed = true ∨ Stocked s' := by
  have hsame : Aside s s' → s'.c.rev.handler = s.c.rev.handler → s'.closed = true ∨ Stocked s' := by
    intro haside hrev
    refine .inr (h.aside haside ?_ ?_)
    · unfold Exchange.LineRead
      rw [hrev]
      exact id
    · unfold Exchange.Starts
      rw [hrev]
      exact id
  cases hmove with
  | ran | pass => exact hsame (.of_client (aside_of_one rfl ⟨rfl, rfl⟩) rfl rfl rfl rfl rfl rfl) rfl
  | recv | state | attached => exact hsame (.of_client (aside_of_log rfl) rfl rfl rfl rfl rfl rfl) rfl
  | mark hrev hwev => exact hsame (Move.aside_mark hrev hwev) hrev.handler
  | parse hrev hbuf hup hdone => exact hsame (.of_client (aside_of_log rfl) rfl rfl rfl rfl hup hdone) rfl
  | uriDone =>
      refine hsame (Move.aside_uriDone s) ?_
      unfold Exchange.uriDone
      dsimp only
  | timeRev =>
      exact hsame (.of_rev (EventS.addTimer_handler _ _ _) (fun _ => .inl (EventS.addTimer_active _ _ _))
        (aside_of_log rfl) rfl rfl rfl rfl rfl) (EventS.addTimer_handler _ _ _)
  | lineBegins hrev =>
      exact .inr (h.aside (Move.aside_lineBegins hrev) (fun hline => absurd (.inr rfl) hline.not_starts)
        fun _ => .inl hrev)
  | headersRead hrev =>
      exact .inr (h.aside (Move.aside_headersRead hrev) (fun _ => .inl hrev)
        fun hstarts => absurd hstarts (Exchange.LineRead.not_starts (.inr rfl)))
  | rewind =>
      exact hsame (.of_rev (EventS.delEvent_handler _) (fun _ => .inr (EventS.delEvent_active _))
        (aside_of_one rfl ⟨rfl, rfl⟩) rfl rfl rfl rfl rfl) (EventS.delEvent_handler _)
  | reconnect hfd hcur hsel =>
      refine hsame (.of_client ⟨_, rfl, fun d hd => aside_of_acts hd⟩ rfl rfl rfl rfl ?_ ?_) rfl
      · rw [hsel.frame]
        rfl
      · rw [hsel.frame]
        rfl
  | passAll hfd => exact hsame (Move.aside_passAll hs.handled hfd _ _) (EventS.addEvent_handler _)
  | timeWev => exact hsame (.of_wev (EventS.addTimer_handler _ _ _) fun _ => EventS.addTimer_active _ _ _) rfl
  | delWev hwrites hup =>
      exact hsame (.of_wev (EventS.delEvent_handler _) fun hnone => absurd hnone hup) rfl
  | openFile hrev hdone hr hfd =>
      refine .inr ⟨fun _ hno => absurd hfd (not_lt.mpr hno), fun _ _ _ => hfd, rfl, fun header hmem => ?_,
        fun hstarts => absurd hstarts (Exchange.LineRead.not_starts (.inl rfl))⟩
      exact absurd hmem (h.fresh (.inr hrev) header)
  | forward hrev hdone hr hbuf hsel =>
      have hds : ∀ d ∈ Deed.openUpstream :: List.map Deed.balancer ‹List Act›,
          d.answers = false ∧ d.clears = false := by
        intro d hd
        cases hd with
        | head => exact ⟨rfl, rfl⟩
        | tail _ hact => exact aside_of_acts hact
      have hdeeds : requestDeeds (s.log ++ _) = _ := requestDeeds_append fun d hd => (hds d hd).2
      refine .inr (h.of_file hdeeds (fun header => constructResponse_aside fun d hd => (hds d hd).1) rfl
        (fun hstarts => absurd hstarts (Exchange.LineRead.not_starts (.inl rfl))) (fun _ _ _ => ?_)
        fun _ hnone => ?_)
      · dsimp only [Exchange.onRev]
        rw [hdeeds]
        exact List.mem_append_right _ List.mem_cons_self
      · dsimp only at hnone
        rw [hsel.frame] at hnone
        exact absurd hnone (Option.some_ne_none _)
  | err c r b m up ds status hc hline hcur hup hds herr =>
      exact .inr (h.err hc hds herr)
  | respond hrev hreads hup hdone hres => exact .inr (h.respond ha hopen hrev hreads hup hdone hres)
  | await hrev hup hdone =>
      have hsame' : ((s.onRev EventS.delEvent).onWev fun ev =>
          { ev with handler := some .handleResponse }).c.rev.handler = s.c.rev.handler := EventS.delEvent_handler _
      exact .inr (h.quiet rfl rfl rfl rfl rfl hsame')
  | relay hfd hb => exact .inr (h.one rfl rfl (fun header heq => nomatch heq) rfl rfl rfl rfl rfl)
  | upstreamEof hfd =>
      exact .inr (h.of_quiet rfl rfl rfl rfl fun _ _ hwaits => nomatch hwaits)
  | send hwrites hwev hb => exact .inr (h.one rfl rfl (fun header heq => nomatch heq) rfl rfl rfl rfl rfl)
  | toFile hwrites hwev hbuf hup hfd hdone => exact .inr (h.quiet rfl rfl rfl rfl rfl rfl)
  | sendFile calls hwrites hwev hfile =>
      obtain ⟨hfd, hcount⟩ := hl.file _ _ rfl
      exact .inr (h.sendFile hfd hcount hfile rfl).1
  | done calls hwrites hdone hend =>
      cases httpResponseDone_cases hend with
      | inl hkept =>
          refine .inr ?_
          rw [hkept.2]
          exact stocked_keptAlive cfg calls _
      | inr hclosed =>
          rw [hclosed.2, httpCloseRequest_eq]
          exact .inl rfl
  | close calls =>
      rw [httpCloseRequest_eq]
      exact .inl rfl
  | drop => exact .inl rfl

/-! ## the end of a response -/

/-- A response that ends has gone to the client as a whole. -/
theorem Answering.complete (ha : Answering s) (hopen : s.closed = false) (hs : InOrder s) (h : Stocked s)
    (hwrites : s.Writes)
    (hend : s.c.wev.handler = some .handleResponseFile ∧ 0 < s.resourceFd ∧ s.file.resourceLen = 0 ∨
      s.c.wev.handler = some .handleResponse ∧ s.sendBuffer = {} ∧
        (s.r.responseDone = true ∨ s.r.upstream = none ∧ ¬ 0 < s.resourceFd)) :
    CompleteAnswer (requestDeeds s.log) := by
  have hpending : s.sendBuffer = {} → s.sendBuffer.pending = [] := fun hbuf => by
    rw [hbuf]
    rfl
  unfold CompleteAnswer
  rcases ha.of_writes hopen (hs.flagged hopen) hwrites with ha | ha | ha
  · -- a header and a file
    rw [ha.page]
    obtain ⟨header, hheader, hparts⟩ := ha.parts
    have hfile : 0 < s.resourceFd := h.stocked ha.line ha.detached ha.waits
    rcases hend with ⟨hwev, -, hlen⟩ | ⟨hwev, hbuf, hdone | ⟨-, hno⟩⟩
    · have hbuf : s.sendBuffer = {} := by
        rcases ha.stage with hstage | hstage
        · exact nomatch hstage.1.symm.trans hwev
        · exact hstage.2
      refine .inr ⟨header, s.file.resourceOff.toNat, hheader, ?_, ?_⟩
      · rw [h.declared header hheader, hlen, add_zero, h.fits, Int.toNat_of_nonneg ha.file.off]
      · rw [hpending hbuf, List.map_nil, List.append_nil] at hparts
        rw [hparts, ← ha.file.sent]
    · exact nomatch hdone.symm.trans ha.waits
    · exact absurd hfile hno
  · -- what a back end has sent
    rw [ha.page]
    rcases hend with ⟨-, hfile, -⟩ | ⟨-, hbuf, -⟩
    · exact absurd hfile (not_lt.mpr ha.noFile)
    · have hparts := ha.parts
      rw [hpending hbuf, List.map_nil, List.append_nil] at hparts
      exact .inl ⟨h.opened ha.line ha.noFile ha.page, hparts⟩
  · -- an error page
    obtain ⟨page, hpage, hparts⟩ := ha.parts
    rw [hpage]
    rcases hend with ⟨hwev, -⟩ | ⟨-, hbuf, -⟩
    · exact nomatch ha.wev.symm.trans hwev
    · rwa [hpending hbuf, List.map_nil, List.append_nil] at hparts

/-- What a move logs that does not end a response. -/
theorem Move.undone (hmove : Move cfg l s s') (hl : ∀ keepAlive us, l ≠ .done keepAlive us) :
    ∃ ds, s'.log = s.log ++ ds ∧ .responseDone ∉ ds := by
  have hone : ∀ d : Deed, .responseDone ≠ d → .responseDone ∉ [d] := fun d hd hmem =>
    hd (List.mem_singleton.mp hmem)
  have hacts : ∀ acts : List Act, Deed.responseDone ∉ acts.map Deed.balancer := fun acts hmem => by
    obtain ⟨a, -, ha⟩ := List.mem_map.mp hmem
    contradiction
  cases hmove with
  | mark | recv | parse | uriDone | state | timeRev | lineBegins | openFile | await | attached |
    upstreamEof | timeWev | delWev | toFile | drop =>
      exact ⟨[], (List.append_nil _).symm, fun hd => nomatch hd⟩
  | ran | headersRead | rewind | pass | relay | send | sendFile =>
      exact ⟨[_], rfl, hone _ fun heq => nomatch heq⟩
  | passAll =>
      refine ⟨[_, _], List.append_assoc _ _ _, fun hmem => ?_⟩
      cases hmem with
      | tail _ hmem => exact nomatch List.mem_singleton.mp hmem
  | forward =>
      refine ⟨_, rfl, fun hmem => ?_⟩
      cases hmem with
      | tail _ hmem => exact hacts _ hmem
  | reconnect => exact ⟨_, rfl, hacts _⟩
  | err c r b m up ds status hc hline hcur hup hds h =>
      refine ⟨ds ++ [.constructErr status s'.sendBuffer.pending], ?_, fun hmem => ?_⟩
      · rw [constructErr_log h, List.append_assoc]
      · cases List.mem_append.mp hmem with
        | inl hold => rcases hds _ hold with heq | ⟨us, heq⟩ <;> contradiction
        | inr hnew => exact nomatch List.mem_singleton.mp hnew
  | respond hrev hreads hup hdone h =>
      obtain ⟨b, -, hs'⟩ := constructResponse_eq h
      rw [hs']
      exact ⟨[_], rfl, hone _ fun heq => nomatch heq⟩
  | done => exact absurd rfl (hl _ _)
  | close calls =>
      obtain ⟨ds, hlog, hds⟩ := httpCloseRequest_log calls s
      exact ⟨ds, hlog, fun hmem => nomatch hds _ hmem⟩

end

/-! ## turns -/

/-- An exchange in order, with as much of its answer as it says. -/
structure Answerable (s : Exchange) : Prop where
  inOrder : InOrder s
  lawful : Lawful AnswersOnce s.log
  answering : Answering s
  stocked : s.closed = true ∨ Stocked s
  done : Lawful DoneWhenComplete s.log

section

variable {cfg : Config} {calls : Calls} {t : Turn} {l : Label} {s s₁ s' : Exchange}

/-- Most moves are admitted by every turn. -/
theorem Answering.Admits.of_other (herr : l ≠ .err) (hrelay : ∀ xs, l ≠ .relay xs)
    (hfile : ∀ fd lost, l ≠ .sendFile fd lost) : Answering.Admits s l :=
  ⟨fun heq => absurd heq herr, fun xs heq => absurd heq (hrelay xs), fun fd lost heq => absurd heq (hfile fd lost)⟩

theorem Answerable.move (h : Answerable s) (hopen : s.closed = false) (hl : Answering.Admits s l)
    (hmove : Move cfg l s s') (hundone : ∀ keepAlive us, l ≠ .done keepAlive us) : Answerable s' := by
  obtain ⟨ds, hlog, hds⟩ := hmove.undone hundone
  have hstocked := h.stocked.resolve_left (Bool.eq_false_iff.mp hopen)
  obtain ⟨hlaw, hans⟩ := h.answering.move hopen h.inOrder h.lawful hl hmove
  refine ⟨h.inOrder.move hopen hmove, hlaw, hans, hstocked.move h.answering hopen h.inOrder hl hmove, ?_⟩
  rw [hlog]
  exact lawful_undone h.done hds

/-- A move about something else. -/
theorem Answerable.quiet (h : Answerable s) (hopen : s.closed = false) (hmove : Move cfg .quiet s s') :
    Answerable s' := by
  refine h.move hopen (.of_other ?_ ?_ ?_) hmove ?_
  · exact fun heq => nomatch heq
  · exact fun _ heq => nomatch heq
  · exact fun _ _ heq => nomatch heq
  · exact fun _ _ heq => nomatch heq

/-- The end of a response. -/
theorem Answerable.end (h : Answerable s) (hopen : s.closed = false) (hwrites : s.Writes)
    (hend : s.c.wev.handler = some .handleResponseFile ∧ 0 < s.resourceFd ∧ s.file.resourceLen = 0 ∨
      s.c.wev.handler = some .handleResponse ∧ s.sendBuffer = {} ∧
        (s.r.responseDone = true ∨ s.r.upstream = none ∧ ¬ 0 < s.resourceFd))
    (hdone : Exchange.httpResponseDone cfg calls { s with r := { s.r with responseDone := true } } = .ok s') :
    Answerable s' := by
  have hstocked := h.stocked.resolve_left (Bool.eq_false_iff.mp hopen)
  have hmove : Move cfg (.done s.r.keepAlive s.r.curUpstream) s s' :=
    .done calls hwrites (hend.imp And.left id) hdone
  have hl : Answering.Admits s (.done s.r.keepAlive s.r.curUpstream) := by
    refine .of_other ?_ ?_ ?_
    · exact fun heq => nomatch heq
    · exact fun _ heq => nomatch heq
    · exact fun _ _ heq => nomatch heq
  obtain ⟨hlaw, hans⟩ := h.answering.move hopen h.inOrder h.lawful hl hmove
  refine ⟨h.inOrder.move hopen hmove, hlaw, hans, hstocked.move h.answering hopen h.inOrder hl hmove, ?_⟩
  obtain ⟨ds, hlog, hds, -⟩ := httpResponseDone_log hdone
  have hcomplete := h.answering.complete hopen h.inOrder hstocked hwrites hend
  rw [hlog, ← List.singleton_append, ← List.append_assoc]
  refine lawful_undone (lawful_concat.mpr ⟨h.done, fun _ => hcomplete⟩) fun hmem => ?_
  exact nomatch hds _ hmem

/-- The rest of a file goes out. -/
theorem Answerable.handleResponseFile (h : Answerable s) (hopen : s.closed = false) (hwrites : s.Writes)
    (hwev : s.c.wev.handler = some .handleResponseFile) (htime : s.c.wev.timedout = false)
    (hfd : 0 < s.resourceFd) (hcount : s.fileLost calls = false) (hcompletes : s.FileCompletes calls)
    (hcall : s.handleResponseFile cfg calls = .ok s') : Answerable s' := by
  obtain ⟨file, os, hfile⟩ := hcompletes
  unfold Exchange.handleResponseFile at hcall
  dsimp only at hcall
  rw [if_neg (by simp [Exchange.tell, htime])] at hcall
  obtain ⟨⟨ret, file', os'⟩, hfile', hcall⟩ := bind_ok hcall
  have hsame : (ret, file', os') = (some .ok, file, os) := Except.ok.inj (hfile'.symm.trans hfile)
  cases hsame
  have hstarted : Move cfg .quiet s (s.tell (.ran .handleResponseFile)) := .ran s _
  have hran := h.quiet hopen hstarted
  have hadmits : Answering.Admits (s.tell (.ran .handleResponseFile)) (.sendFile s.resourceFd (s.fileLost calls)) := by
    refine ⟨?_, ?_, fun fd lost heq => ?_⟩
    · exact fun heq => by cases heq
    · exact fun _ heq => by cases heq
    · cases heq
      exact ⟨hfd, hcount⟩
  have hmove : Move cfg (.sendFile s.resourceFd (s.fileLost calls)) (s.tell (.ran .handleResponseFile)) _ :=
    .sendFile (s := s.tell (.ran .handleResponseFile)) calls ⟨hwrites.ready, hwrites.active⟩ hwev hfile'
  have hsent := hran.move hopen hadmits hmove fun _ _ heq => by cases heq
  have hlen : file.resourceLen = 0 :=
    ((hran.stocked.resolve_left (Bool.eq_false_iff.mp hopen)).sendFile hfd hcount hfile' rfl).2 rfl
  exact hsent.end hopen ⟨hwrites.ready, hwrites.active⟩ (.inl ⟨hwev, hfd, hlen⟩) hcall

/-- What was in the send buffer has gone out: the response ends, or a file that
ends it follows. -/
theorem Answerable.sent (h : Answerable s) (hopen : s.closed = false) (hwrites : s.Writes)
    (hwev : s.c.wev.handler = some .handleResponse) (hbuf : s.sendBuffer = {})
    (htime : s.c.wev.timedout = false)
    (hrest : s.r.responseDone = true ∨ s.r.upstream = none ∧ (0 < s.resourceFd → s.FileCompletes calls))
    (hcount : s.r.responseDone = false → s.r.upstream = none → 0 < s.resourceFd → s.fileLost calls = false)
    (hcall : (if s.r.responseDone then Exchange.httpResponseDone cfg calls s
      else if s.r.upstream ≠ none then pure (s.onWev EventS.delEvent)
      else if 0 < s.resourceFd then
        Exchange.handleResponseFile cfg calls
          (s.onWev fun ev => { ev with handler := some .handleResponseFile })
      else Exchange.httpResponseDone cfg calls { s with r := { s.r with responseDone := true } }) = .ok s') :
    Answerable s' := by
  split at hcall
  · next hdone =>
    rw [← Exchange.done_self hdone] at hcall
    exact h.end hopen hwrites (.inr ⟨hwev, hbuf, .inl hdone⟩) hcall
  · next hdone =>
    obtain ⟨hup, hfile⟩ := hrest.resolve_left hdone
    rw [if_neg (not_not.mpr hup)] at hcall
    split at hcall
    · next hfd =>
      have hwaits := Bool.eq_false_iff.mpr hdone
      have hmove : Move cfg .quiet s _ := .toFile hwrites hwev hbuf hup hfd hwaits
      exact (h.quiet hopen hmove).handleResponseFile hopen ⟨hwrites.ready, hwrites.active⟩ rfl htime hfd
        (hcount hwaits hup hfd) (hfile hfd) hcall
    · next hfd => exact h.end hopen hwrites (.inr ⟨hwev, hbuf, .inr ⟨hup, hfd⟩⟩) hcall

/-- What is in the send buffer goes out. -/
theorem Answerable.handleResponse (h : Answerable s) (hopen : s.closed = false) (hwrites : s.Writes)
    (hwev : s.c.wev.handler = some .handleResponse) (hcompletes : s.Completes calls .handleResponse)
    (hfile : s.SendsFile calls .handleResponse → s.fileLost calls = false)
    (hcall : s.handleResponse cfg calls = .ok s') : Answerable s' := by
  obtain ⟨htime, hret, hrest⟩ := hcompletes
  have hstarted : Move cfg .quiet s (s.tell (.ran .handleResponse)) := .ran s _
  have hran := h.quiet hopen hstarted
  unfold Exchange.handleResponse at hcall
  dsimp only at hcall
  rw [if_neg (by simp [Exchange.tell, htime])] at hcall
  cases hb : bufferSend (s.tell (.ran .handleResponse)).sendBuffer calls.send with
  | mk err rest =>
      obtain ⟨xs, b⟩ := rest
      rw [hb] at hcall
      have herr : err = .ok := (congrArg Prod.fst hb).symm.trans hret
      subst herr
      have hmove : Move cfg .send (s.tell (.ran .handleResponse)) _ :=
        .send (s := s.tell (.ran .handleResponse)) ⟨hwrites.ready, hwrites.active⟩ hwev hb
      have hadmits : Answering.Admits (s.tell (.ran .handleResponse)) .send := by
        refine .of_other ?_ ?_ ?_
        · exact fun heq => by cases heq
        · exact fun _ heq => by cases heq
        · exact fun _ _ heq => by cases heq
      have hsent := hran.move hopen hadmits hmove fun _ _ heq => by cases heq
      exact hsent.sent hopen ⟨hwrites.ready, hwrites.active⟩ hwev (bufferSend_ok hb).1 htime hrest
        (fun hwaits hup hfd => hfile ⟨htime, hret, hwaits, hup, hfd⟩) hcall

/-- A turn that keeps to one answer. -/
theorem Answerable.step (h : Answerable s) (hkeeps : s.KeepsAnswer cfg t) (hstep : s.step cfg t = .ok s') :
    Answerable s' := by
  by_cases hcompletes : ∃ h s₁, s.Runs t h s₁ ∧ s₁.Completes t.calls h
  · obtain ⟨handler, s₁, hruns, hcompletes⟩ := hcompletes
    have hmark : Move cfg .quiet s s₁ := hruns.move
    have h₁ := h.quiet hruns.open hmark
    have hopen := hruns.closed.trans hruns.open
    have hcall : s₁.call cfg t.calls handler = .ok s' := by rwa [← hruns.step]
    obtain ⟨e, hdue⟩ := hruns.due
    have hwev : handler = .handleResponse ∨ handler = .handleResponseFile → e = .wev := by
      intro hresponds
      have hhandler := hdue.handler
      cases e with
      | wev => rfl
      | rev => rcases h₁.inOrder.handled.rev handler hhandler with rfl | rfl | rfl | rfl <;> simp at hresponds
      | upRev =>
          rw [h₁.inOrder.handled.upRev handler hhandler] at hresponds
          simp at hresponds
      | upWev => rcases h₁.inOrder.handled.upWev handler hhandler with rfl | rfl <;> simp at hresponds
    cases handler with
    | handleResponse =>
        rw [hwev (.inl rfl)] at hdue
        exact h₁.handleResponse hopen (hdue.writes (h.inOrder.flagged hruns.open)) hdue.handler hcompletes
          (fun hsends => (hkeeps.file _ s₁ hruns hsends).2) hcall
    | handleResponseFile =>
        rw [hwev (.inr rfl)] at hdue
        obtain ⟨htime, hfile⟩ := hcompletes
        obtain ⟨hfd, hcount⟩ := hkeeps.file _ s₁ hruns htime
        exact h₁.handleResponseFile hopen (hdue.writes (h.inOrder.flagged hruns.open)) hdue.handler htime hfd hcount
          hfile hcall
    | _ => exact absurd hcompletes id
  · have hturn := step_induct (I := fun s₁ => Answerable s₁ ∧ SinceTurn cfg t s s₁) h.inOrder hstep ?_
      ⟨h, fun h => .inl h, fun h => .inl h⟩
    · exact hturn.2.1
    · intro l s₁ s₂ hopen hs₁ hl hmove hboth
      obtain ⟨h₁, hsince⟩ := hboth
      refine ⟨h₁.move hopen (hkeeps.admits h.answering h.inOrder hsince hl) hmove fun keepAlive us heq => ?_,
        hsince.move hl hmove⟩
      rw [heq] at hl
      obtain ⟨handler, s₃, hruns, hdone, -⟩ := hl
      exact hcompletes ⟨handler, s₃, hruns, hdone⟩

end

/-- **Complete responses**: in a run from an accepted connection whose turns all
keep to one answer, whenever a response is done the client has received all of
it, for each request of the connection. -/
theorem responses_complete {cfg : Config} {ts : List Turn} {now : BitVec 32} {slot : Slot} {fd : Int}
    {ip : BitVec 32} {s' : Exchange}
    (halways : Exchange.Always cfg (Exchange.KeepsAnswer cfg) ts (.accepted cfg now slot fd ip))
    (hrun : Exchange.run cfg ts (.accepted cfg now slot fd ip) = .ok s') : Lawful DoneWhenComplete s'.log := by
  have hinit : Answerable (.accepted cfg now slot fd ip) := by
    have hstarts : (Exchange.accepted cfg now slot fd ip).Starts := by
      refine .inl ?_
      change (EventS.addEvent (EventS.addTimer _ _ _)).handler = _
      rw [EventS.addEvent_handler, EventS.addTimer_handler]
    refine ⟨inOrder_accepted cfg now slot fd ip, lawful_nil, answering_accepted cfg now slot fd ip, .inr ?_,
      lawful_nil⟩
    exact ⟨fun hline => absurd hstarts hline.not_starts, fun hline => absurd hstarts hline.not_starts, rfl,
      (fun header hmem => nomatch hmem), fun _ header hmem => nomatch hmem⟩
  exact (Exchange.run_induction (I := Answerable) (fun s t s' h hkeeps hstep => h.step hkeeps hstep) halways hinit
    hrun).done

/-- A request for `/b`, to which the back end answers with two bytes before it
closes the connection. -/
def twoBytesDone : List Turn :=
  [⟨.poll, oneServer⟩, ⟨.ready .rev, { oneServer with recvLine := .bytes (getB '1') }⟩,
    ⟨.poll, oneServer⟩, ⟨.ready .upRev, { oneServer with recvUpstream := .bytes (text ['a', 'b']) }⟩,
    ⟨.poll, oneServer⟩, ⟨.ready .upRev, { oneServer with recvUpstream := .eof }⟩,
    ⟨.poll, oneServer⟩, ⟨.ready .wev, oneServer⟩]

theorem responses_complete_twoBytes :
    ∃ s', Exchange.run forwardsB twoBytesDone (.accepted forwardsB 0 0 5 0) = .ok s' ∧
      .responseDone ∈ s'.log ∧ clientParts s'.log = (text ['a', 'b']).map .byte ∧
        Lawful DoneWhenComplete s'.log := by
  have htest : Exchange.runTest forwardsB
      (fun s' => decide (.responseDone ∈ s'.log ∧ clientParts s'.log = (text ['a', 'b']).map .byte)) twoBytesDone
      (.accepted forwardsB 0 0 5 0) = true := by decide +kernel
  obtain ⟨s', hrun, hs'⟩ := Exchange.exists_of_runTest htest
  obtain ⟨hdone, hparts⟩ := of_decide_eq_true hs'
  refine ⟨s', hrun, hdone, hparts, responses_complete ?_ hrun⟩
  exact Exchange.always_of_alwaysTest (p := Exchange.blank) Exchange.keepsAnswer_of_blank (by decide +kernel)

end PWebServer
