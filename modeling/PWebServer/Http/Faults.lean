import PWebServer.Http.ContentLength
import PWebServer.Http.Handlers

/-!
# Http.Faults

The assertions of the handlers.  As long as there is memory for the ring, of all
the `ABORT_ON`s on the way of an exchange two can fail: that of the request line,
when the line fills the buffer, and that of `send_file`, when `sendfile` is through
before the length is used up.  An answer never overruns the send buffer,
`http_response_done` is called for complete responses only, and no request is
passed on twice.
-/

namespace PWebServer

open Function

/-- Where a fault comes from. -/
theorem bind_error {α β : Type} {x : Except Fault α} {f : α → Except Fault β} {e : Fault}
    (h : (x >>= f) = .error e) : x = .error e ∨ ∃ a, x = .ok a ∧ f a = .error e := by
  cases x with
  | error e' => exact .inl (congrArg _ (Except.error.inj h))
  | ok a => exact .inr ⟨a, rfl, h⟩

theorem deref_fault {α : Type} {p : Option α} {e : Fault} (h : deref p = .error e) : e = .null := by
  cases p with
  | none => exact (Except.error.inj h).symm
  | some a => contradiction

/-! ## what never aborts -/

section

variable {o : Outside} {block : Option (Nat → BitVec 64)} {servers : Servers} {rings : Nat → Option Ring}
  {r : HttpRequest} {target : Option (List UInt8)}

theorem initBeforeRound_fault {now : BitVec 32} {e : Fault}
    (h : initBeforeRound now block servers r target = .error e) : e = .null ∨ e = .bounds := by
  unfold initBeforeRound at h
  by_cases hd : r.curServerDomain = none
  · cases target with
    | none =>
        simp only [hd, bind, Except.bind, deref_none, if_true] at h
        exact .inl (Except.error.inj h).symm
    | some name =>
        simp only [hd, bind, Except.bind, deref_some, pure, Except.pure, if_true] at h
        split at h
        · exact .inr (Except.error.inj h).symm
        · split at h <;> contradiction
  · simp only [hd, bind, Except.bind, pure, Except.pure, if_false] at h
    split at h
    · exact .inr (Except.error.inj h).symm
    · split at h <;> contradiction

theorem selectByRound_fault {e : Fault} (h : selectByRound o block servers rings r target = .error e) :
    e = .null ∨ e = .bounds := by
  unfold selectByRound at h
  obtain hround | ⟨v, -, h⟩ := bind_error h
  · unfold getServerByRound at hround
    obtain hinit | ⟨⟨ret, r₁, servers₁⟩, -, hround⟩ := bind_error hround
    · exact initBeforeRound_fault hinit
    · dsimp only at hround
      split at hround
      · contradiction
      · obtain hdomain | ⟨domain, -, hround⟩ := bind_error hround
        · exact .inl (deref_fault hdomain)
        · split at hround
          · contradiction
          · split at hround <;> contradiction
  · contradiction

theorem hashLookup_fault {e : Fault} (hcycle : o.cycle ≠ none)
    (h : hashLookup o servers rings r target = .error e) : e = .null ∨ e = .bounds := by
  unfold hashLookup at h
  obtain hinit | ⟨⟨r₁, servers₁, rings₁⟩, -, h⟩ := bind_error h
  · unfold initBeforeConsistentHashGet at hinit
    obtain hround | ⟨⟨ret, r₁, servers₁⟩, -, hinit⟩ := bind_error hinit
    · exact initBeforeRound_fault hround
    · obtain hdomain | ⟨domain, -, hinit⟩ := bind_error hinit
      · exact .inl (deref_fault hdomain)
      · dsimp only at hinit
        split at hinit
        · contradiction
        · obtain hold | ⟨old, -, hinit⟩ := bind_error hinit
          · unfold ringBlock at hold
            split at hold
            · split at hold
              · next hnone => exact absurd hnone hcycle
              · contradiction
            · obtain hring | ⟨ring, -, hold⟩ := bind_error hold
              · exact .inl (deref_fault hring)
              · contradiction
          · contradiction
  · obtain hdomain | ⟨domain, -, h⟩ := bind_error h
    · exact .inl (deref_fault hdomain)
    · obtain honce | ⟨us, -, h⟩ := bind_error h
      · unfold getServerByConsistentHashOnce at honce
        obtain hring | ⟨ring, -, honce⟩ := bind_error honce
        · exact .inl (deref_fault hring)
        · obtain htarget | ⟨i, -, honce⟩ := bind_error honce
          · exact .inl (deref_fault htarget)
          · contradiction
      · contradiction

/-- A selection aborts only if there is no memory for the ring. -/
theorem tryConnectUpstream_fault {lb : LoadBalance} {e : Fault} (hring : lb = .roundMode ∨ o.cycle ≠ none)
    (h : PWebServer.tryConnectUpstream lb o servers rings r target = .error e) : e = .null ∨ e = .bounds := by
  cases lb with
  | roundMode => exact selectByRound_fault h
  | consistentHash =>
      unfold PWebServer.tryConnectUpstream getServerByConsistentHash at h
      dsimp only at h
      split at h
      · exact selectByRound_fault h
      · obtain hlookup | ⟨⟨r₁, servers₁, rings₁, domain, us⟩, -, h⟩ := bind_error h
        · exact hashLookup_fault (hring.resolve_left (by simp)) hlookup
        · dsimp only at h
          cases us with
          | none => exact selectByRound_fault h
          | some i =>
              dsimp only at h
              split at h
              · contradiction
              · obtain hround | ⟨sel, -, h⟩ := bind_error h
                · exact selectByRound_fault hround
                · contradiction

end

/-- A line of the header faults in two ways only. -/
theorem handleHeader_fault {r : HttpRequest} {b : Buffer} {m : List UInt8} {e : Fault}
    (h : handleHeader r b m = .error e) : e = .null ∨ e = .bounds := by
  unfold handleHeader at h
  split at h
  · exact .inr (Except.error.inj h).symm
  refine .inl ?_
  obtain hb | ⟨b₁, -, h⟩ := bind_error h
  · obtain hc | ⟨c, -, hb⟩ := bind_error hb
    · exact deref_fault hc
    · contradiction
  · dsimp only at h
    split at h
    · contradiction
    · obtain hr | ⟨r₁, -, h⟩ := bind_error h
      · unfold headerParser at hr
        split at hr
        · obtain hc | ⟨c, -, hr⟩ := bind_error hr
          · exact deref_fault hc
          · split at hr
            · contradiction
            · split at hr <;> contradiction
        · contradiction
      · contradiction

theorem headersLoop_fault {r : HttpRequest} {b : Buffer} {m : List UInt8} {e : Fault}
    (h : headersLoop r b m = .error e) : e = .null ∨ e = .bounds := by
  fun_induction headersLoop r b m with
  | case1 => contradiction
  | case2 => contradiction
  | case3 r b m hdone r' b' hcall hname f hline =>
      cases h
      exact handleHeader_fault hline
  | case4 r b m hdone r' b' hcall hname r'' b'' m'' hline ih => exact ih h
  | case5 => contradiction
  | case6 =>
      obtain hb | ⟨b₁, -, h⟩ := bind_error h
      · obtain hc | ⟨c, -, hb⟩ := bind_error hb
        · exact .inl (deref_fault hc)
        · contradiction
      · contradiction

section

variable {cfg : Config} {calls : Calls} {s s' : Exchange} {e : Fault}

/-- An error page fits the send buffer, whatever was in it. -/
theorem constructErr_total (cfg : Config) (s : Exchange) {status : Int} (hpage : (errPage status).isSome = true) :
    ∃ s', s.constructErr cfg status = .ok s' := by
  obtain ⟨page, hpage⟩ := Option.isSome_iff_exists.mp hpage
  unfold Exchange.constructErr
  rw [constructErrBuffer_eq hpage]
  exact ⟨_, rfl⟩

theorem constructErr_faults {status : Int} (hpage : (errPage status).isSome = true) :
    s.constructErr cfg status ≠ .error e := by
  obtain ⟨s', hs'⟩ := constructErr_total cfg s hpage
  rw [hs']
  simp

/-- The header of a file fits the send buffer, whatever was in it. -/
theorem constructResponse_total (s : Exchange) : ∃ s', s.constructResponse = .ok s' := by
  unfold Exchange.constructResponse
  rw [constructResponseBuffer_eq]
  exact ⟨_, rfl⟩

/-- The acts of a selection do not fault. -/
theorem applyActs_total (cfg : Config) (calls : Calls) (k : Nat) {acts : List Act}
    (h : ∀ status, .constructErr status ∈ acts → status = 502) (s : Exchange) :
    ∃ s', s.applyActs cfg calls k acts = .ok s' := by
  induction acts generalizing k s with
  | nil => exact ⟨s, rfl⟩
  | cons a acts ih =>
      have hrest : ∀ status, .constructErr status ∈ acts → status = 502 := fun status hmem =>
        h status (List.mem_cons_of_mem a hmem)
      cases a with
      | constructErr status =>
          obtain rfl := h status List.mem_cons_self
          have hpage : (errPage (502 : Nat)).isSome = true := rfl
          obtain ⟨s₁, hs₁⟩ := constructErr_total cfg (s.tell (.balancer (.constructErr 502))) hpage
          obtain ⟨s', hs'⟩ := ih k hrest s₁
          refine ⟨s', ?_⟩
          rw [Exchange.applyActs]
          simp only [hs₁, bind, Except.bind]
          exact hs'
      | tryConnect us ret => exact ih _ hrest _
      | connectFailed us | connectTimedout us | free us => exact ih k hrest _

theorem Chooses.statuses {r r' : HttpRequest} {acts : List Act} (h : Chooses r r' acts) :
    ∀ status, .constructErr status ∈ acts → status = 502 := by
  intro status hmem
  cases h with
  | inl hkept => exact absurd hmem (hkept.quiet status)
  | inr hgives =>
      obtain ⟨r₁, acts₁, hkept, -, rfl⟩ := hgives
      rcases List.mem_append.mp hmem with hmem | hmem
      · exact absurd hmem (hkept.quiet status)
      · simpa using hmem

/-! ## the handlers that never fault -/

theorem httpResponseDone_faults (hdone : s.r.responseDone = true) : s.httpResponseDone cfg calls ≠ .error e := by
  unfold Exchange.httpResponseDone
  rw [if_neg (by simp [hdone])]
  dsimp only
  intro h
  split at h <;> contradiction

theorem requestHandleBody_faults : s.requestHandleBody cfg calls ≠ .error e := by
  intro h
  unfold Exchange.requestHandleBody at h
  dsimp only at h
  split at h
  · exact constructErr_faults rfl h
  · split at h
    · contradiction
    · split at h
      · split at h
        · contradiction
        · split at h <;> contradiction
      · split at h
        · split at h
          · contradiction
          · next s₂ _ _ _ =>
            obtain ⟨s₃, hs₃⟩ := constructResponse_total { ((s₂.onRev EventS.delEvent).onWev fun ev =>
              { ev with handler := some .handleResponse }).onWev EventS.addEvent with
              r := { s₂.r with status := 200 } }
            obtain hs | ⟨s₄, -, h⟩ := bind_error h
            · rw [show s₂.r = (((s₂.onRev EventS.delEvent).onWev fun ev =>
                { ev with handler := some .handleResponse }).onWev EventS.addEvent).r from rfl] at hs₃
              exact absurd (hs₃.symm.trans hs) (by simp)
            · contradiction
        · split at h <;> contradiction
      · exact constructErr_faults rfl h

theorem httpProxyPass_faults : s.httpProxyPass cfg calls ≠ .error e := by
  intro h
  unfold Exchange.httpProxyPass at h
  dsimp only at h
  split at h
  · contradiction
  · split at h
    · exact constructErr_faults rfl h
    · have hend : ∀ s₁ : Exchange, (if s₁.up.rev.timerSet then pure s₁
          else pure (s₁.onUpRev (EventS.addTimer calls.now cfg.upstreamTimeout)) : Except Fault Exchange) ≠
            .error e := by
        intro s₁ h
        split at h <;> contradiction
      split at h
      · exact hend _ h
      · obtain herr | ⟨s₁, -, h⟩ := bind_error h
        · exact constructErr_faults rfl herr
        · exact hend _ h
      · exact hend _ h

theorem httpRecvUpstream_faults : s.httpRecvUpstream cfg calls ≠ .error e := by
  intro h
  unfold Exchange.httpRecvUpstream at h
  dsimp only at h
  split at h
  · contradiction
  · split at h
    · exact constructErr_faults rfl h
    · split at h
      · contradiction
      · exact constructErr_faults rfl h
      · contradiction

/-! ## the handlers that dereference -/

theorem httpParseHeaders_fault (h : s.httpParseHeaders cfg calls = .error e) : e = .null ∨ e = .bounds := by
  unfold Exchange.httpParseHeaders at h
  dsimp only at h
  split at h
  · exact absurd h (constructErr_faults rfl)
  · split at h
    · contradiction
    · obtain hd | ⟨d, -, h⟩ := bind_error h
      · exact headersLoop_fault hd
      · split at h
        · split at h <;> contradiction
        · split at h
          · obtain herr | ⟨s₁, -, h⟩ := bind_error h
            · exact absurd herr (constructErr_faults rfl)
            · exact absurd h requestHandleBody_faults
          · exact absurd h requestHandleBody_faults
        · contradiction

theorem tryConnectUpstream_faults {target : Option (List UInt8)}
    (hring : cfg.loadBalance = .roundMode ∨ calls.outside.cycle ≠ none) (hcur : s.r.curUpstream = none)
    (h : s.tryConnectUpstream cfg calls target = .error e) : e = .null ∨ e = .bounds := by
  obtain hsel | ⟨sel, hsel, h⟩ := bind_error h
  · exact tryConnectUpstream_fault (by exact hring) hsel
  · obtain ⟨s', hs'⟩ :=
      applyActs_total cfg calls 0 (tryConnectUpstream_chooses hcur hsel).statuses { s with r := sel.r }
    exact absurd (hs'.symm.trans h) (by simp)

theorem processConnectionResultOfUpstream_fault
    (hring : cfg.loadBalance = .roundMode ∨ calls.outside.cycle ≠ none)
    (h : s.processConnectionResultOfUpstream cfg calls = .error e) : e = .null ∨ e = .bounds := by
  unfold Exchange.processConnectionResultOfUpstream at h
  dsimp only at h
  split at h
  · contradiction
  · split at h
    · obtain hus | ⟨us, -, h⟩ := bind_error h
      · exact .inl (deref_fault hus)
      · exact absurd h (constructErr_faults rfl)
    · split at h
      · exact absurd h (constructErr_faults rfl)
      · obtain hus | ⟨us, -, h⟩ := bind_error h
        · exact .inl (deref_fault hus)
        · split at h
          · contradiction
          · refine tryConnectUpstream_faults ?_ ?_ h
            · exact hring
            · rfl

theorem requestProcessUri_fault (hring : cfg.loadBalance = .roundMode ∨ calls.outside.cycle ≠ none)
    (hup : s.r.upstream = none) (hcur : s.r.curUpstream = none)
    (h : s.requestProcessUri cfg calls = .error e) : e = .null ∨ e = .bounds := by
  unfold Exchange.requestProcessUri at h
  split at h
  · rw [if_neg (not_not.mpr hup)] at h
    cases hslot : calls.slot with
    | none =>
        rw [hslot] at h
        exact .inl (Except.error.inj h).symm
    | some slot =>
        rw [hslot] at h
        obtain hs | ⟨s₁, -, h⟩ := bind_error h
        · exact tryConnectUpstream_faults hring (by exact hcur) hs
        · contradiction
  · split at h
    · exact absurd h (constructErr_faults rfl)
    · split at h
      · split at h
        · exact absurd h (constructErr_faults rfl)
        · contradiction
      · contradiction

/-! ## the handlers that abort -/

/-- The request line is not complete, and there is no room for more of it. -/
def Exchange.LineTooLong (calls : Calls) (s : Exchange) : Prop :=
  s.c.rev.timedout = false ∧ (bufferRecv s.recvBuffer calls.recvLine).1 = .again ∧
    (parseRequestLine s.r (bufferRecv s.recvBuffer calls.recvLine).2.2).1 = .again ∧
    (parseRequestLine s.r (bufferRecv s.recvBuffer calls.recvLine).2.2).2.2.full = true

theorem Exchange.lineTooLong_congr (htime : s'.c.rev.timedout = s.c.rev.timedout) (hr : s'.r = s.r)
    (hbuf : s'.recvBuffer = s.recvBuffer) : s'.LineTooLong calls ↔ s.LineTooLong calls := by
  unfold Exchange.LineTooLong
  rw [htime, hr, hbuf]

/-- `sendfile` is through, and not all of `resource_len` has been used up. -/
def Exchange.FileTooShort (calls : Calls) (s : Exchange) : Prop :=
  sendFile s.fileSize s.file s.file.resourceLen calls.sendfile = .error .abort

/-- When a handler aborts. -/
def Exchange.Aborts (calls : Calls) (s : Exchange) (h : EventHandler) : Prop :=
  (h = .httpInitRequest ∨ h = .ngxHttpProcessRequestLine) ∧ s.LineTooLong calls ∨
    s.SendsFile calls h ∧ s.FileTooShort calls

theorem handleResponseFile_aborts_iff :
    s.handleResponseFile cfg calls = .error .abort ↔ s.c.wev.timedout = false ∧ s.FileTooShort calls := by
  unfold Exchange.handleResponseFile
  dsimp only
  constructor
  · intro h
    split at h
    · exact absurd h (constructErr_faults rfl)
    · next htime =>
      refine ⟨Bool.eq_false_iff.mpr htime, ?_⟩
      obtain hfile | ⟨⟨ret, file, os⟩, -, h⟩ := bind_error h
      · exact hfile
      · cases ret with
        | none => exact absurd (Except.error.inj h) (by simp)
        | some ret =>
            cases ret with
            | ok => exact absurd h (httpResponseDone_faults rfl)
            | error => contradiction
            | again | invalidRequest =>
                dsimp only at h
                split at h <;> contradiction
  · rintro ⟨htime, hshort⟩
    rw [if_neg (by exact Bool.eq_false_iff.mp htime)]
    unfold Exchange.FileTooShort at hshort
    exact (congrArg (· >>= _) hshort).trans rfl

theorem handleResponse_aborts_iff :
    s.handleResponse cfg calls = .error .abort ↔ s.SendsFile calls .handleResponse ∧ s.FileTooShort calls := by
  unfold Exchange.handleResponse Exchange.SendsFile
  have hsend : bufferSend (s.tell (.ran .handleResponse)).sendBuffer calls.send =
      bufferSend s.sendBuffer calls.send := rfl
  dsimp only
  rw [hsend]
  generalize bufferSend s.sendBuffer calls.send = out
  obtain ⟨err, xs, b⟩ := out
  dsimp only
  constructor
  · intro h
    split at h
    · contradiction
    · next htime =>
      cases err with
      | ok =>
          dsimp only at h
          split at h
          · next hdone => exact absurd h (httpResponseDone_faults hdone)
          · next hdone =>
            split at h
            · contradiction
            · next hup =>
              split at h
              · next hfd =>
                exact ⟨⟨Bool.eq_false_iff.mpr htime, rfl, Bool.eq_false_iff.mpr hdone, not_not.mp hup, hfd⟩,
                  (handleResponseFile_aborts_iff.mp h).2⟩
              · exact absurd h (httpResponseDone_faults rfl)
      | again | error | invalidRequest => contradiction
  · rintro ⟨⟨htime, rfl, hdone, hup, hfd⟩, hshort⟩
    rw [if_neg (by exact Bool.eq_false_iff.mp htime)]
    dsimp only
    rw [if_neg (by exact Bool.eq_false_iff.mp hdone), if_neg (by exact not_not.mpr hup), if_pos (by exact hfd)]
    refine handleResponseFile_aborts_iff.mpr ⟨?_, ?_⟩
    · exact htime
    · exact hshort

theorem bufferRecv_ret (b : Buffer) (o : Recv) :
    (bufferRecv b o).1 = .again ∨ (bufferRecv b o).1 = .ok ∨ (bufferRecv b o).1 = .error := by
  unfold bufferRecv
  split
  · exact .inl rfl
  · cases o with
    | bytes xs => exact .inl rfl
    | again => exact .inl rfl
    | eof => exact .inr (.inl rfl)
    | fail => exact .inr (.inr rfl)

theorem ngxHttpProcessRequestLine_aborts_iff (hring : cfg.loadBalance = .roundMode ∨ calls.outside.cycle ≠ none)
    (hup : s.r.upstream = none) (hcur : s.r.curUpstream = none) :
    s.ngxHttpProcessRequestLine cfg calls = .error .abort ↔ s.LineTooLong calls := by
  unfold Exchange.ngxHttpProcessRequestLine Exchange.LineTooLong
  have hret : ((s.tell (.ran .ngxHttpProcessRequestLine)).recvClient calls.recvLine).1 =
      (bufferRecv s.recvBuffer calls.recvLine).1 := rfl
  have hr : ((s.tell (.ran .ngxHttpProcessRequestLine)).recvClient calls.recvLine).2.r = s.r := rfl
  have hb : ((s.tell (.ran .ngxHttpProcessRequestLine)).recvClient calls.recvLine).2.recvBuffer =
      (bufferRecv s.recvBuffer calls.recvLine).2.2 := rfl
  dsimp only
  constructor
  · intro h
    split at h
    · exact absurd h (constructErr_faults rfl)
    · next htime =>
      split at h
      · contradiction
      · next hn =>
        rw [hr, hb] at h
        cases hparse : parseRequestLine s.r (bufferRecv s.recvBuffer calls.recvLine).2.2 with
        | mk ret rest =>
            obtain ⟨r, b⟩ := rest
            have hframe := parseRequestLine_frame hparse
            have hup' : r.upstream = none := by rw [hframe]; exact hup
            have hcur' : r.curUpstream = none := by rw [hframe]; exact hcur
            rw [hparse] at h
            cases ret with
            | ok =>
                obtain hs | ⟨s₁, -, h⟩ := bind_error h
                · have hfault := requestProcessUri_fault hring (by exact hup') (by exact hcur') hs
                  simp at hfault
                · exact absurd (httpParseHeaders_fault h) (by simp)
            | again =>
                dsimp only at h
                split at h
                · next hfull =>
                  refine ⟨Bool.eq_false_iff.mpr htime, ?_, rfl, hfull⟩
                  rw [hret] at hn
                  exact (bufferRecv_ret s.recvBuffer calls.recvLine).resolve_right fun hover => hn hover.symm
                · contradiction
            | error | invalidRequest => exact absurd h (constructErr_faults rfl)
  · rintro ⟨htime, hagain, hcall, hfull⟩
    rw [if_neg (by exact Bool.eq_false_iff.mp htime), hret, hagain, hr, hb, if_neg (by simp)]
    cases hparse : parseRequestLine s.r (bufferRecv s.recvBuffer calls.recvLine).2.2 with
    | mk ret rest =>
        obtain ⟨r, b⟩ := rest
        rw [hparse] at hcall hfull
        obtain rfl : ret = .again := hcall
        dsimp only
        rw [if_pos (by exact hfull)]

theorem httpInitRequest_aborts_iff (hring : cfg.loadBalance = .roundMode ∨ calls.outside.cycle ≠ none)
    (hup : s.r.upstream = none) (hcur : s.r.curUpstream = none) :
    s.httpInitRequest cfg calls = .error .abort ↔ s.LineTooLong calls := by
  unfold Exchange.httpInitRequest
  dsimp only
  constructor
  · intro h
    split at h
    · contradiction
    · have hlong := (ngxHttpProcessRequestLine_aborts_iff hring (by exact hup) (by exact hcur)).mp h
      exact (Exchange.lineTooLong_congr rfl rfl rfl).mp hlong
  · intro hlong
    rw [if_neg (by exact Bool.eq_false_iff.mp hlong.1)]
    refine (ngxHttpProcessRequestLine_aborts_iff hring (by exact hup) (by exact hcur)).mpr ?_
    exact (Exchange.lineTooLong_congr rfl rfl rfl).mpr hlong

/-! ## turns -/

theorem call_aborts_iff {h : EventHandler} {i : EventId}
    (hring : cfg.loadBalance = .roundMode ∨ calls.outside.cycle ≠ none) (hs : Handled s)
    (hhandler : (s.event i).handler = some h) :
    s.call cfg calls h = .error .abort ↔ s.Aborts calls h := by
  unfold Exchange.Aborts
  cases i with
  | rev =>
      rcases hs.rev h hhandler with rfl | rfl | rfl | rfl
      · have hstart := hs.start (.inl hhandler)
        simpa [Exchange.call, Exchange.SendsFile] using httpInitRequest_aborts_iff hring hstart.2 hstart.1
      · have hstart := hs.start (.inr hhandler)
        simpa [Exchange.call, Exchange.SendsFile] using ngxHttpProcessRequestLine_aborts_iff hring hstart.2 hstart.1
      · simpa [Exchange.call, Exchange.SendsFile] using fun hfault => absurd (httpParseHeaders_fault hfault) (by simp)
      · simpa [Exchange.call, Exchange.SendsFile] using fun hfault => absurd hfault requestHandleBody_faults
  | wev =>
      rcases hs.wev h hhandler with rfl | rfl
      · simpa [Exchange.call] using handleResponse_aborts_iff
      · simpa [Exchange.call, Exchange.SendsFile] using handleResponseFile_aborts_iff
  | upRev =>
      obtain rfl := hs.upRev h hhandler
      simpa [Exchange.call, Exchange.SendsFile] using fun hfault => absurd hfault httpRecvUpstream_faults
  | upWev =>
      rcases hs.upWev h hhandler with rfl | rfl
      · simpa [Exchange.call, Exchange.SendsFile] using fun hfault => absurd hfault httpProxyPass_faults
      · simpa [Exchange.call, Exchange.SendsFile] using fun hfault =>
          absurd (processConnectionResultOfUpstream_fault hring hfault) (by simp)

/-- A turn of an exchange that is in order aborts if its handler does. -/
theorem step_aborts_iff {t : Turn} (hring : cfg.loadBalance = .roundMode ∨ t.calls.outside.cycle ≠ none)
    (hs : InOrder s) :
    s.step cfg t = .error .abort ↔ ∃ h s₁, s.Runs t h s₁ ∧ s₁.Aborts t.calls h := by
  have hcall : ∀ {h : EventHandler} {s₁ : Exchange}, s.Runs t h s₁ →
      (s₁.call cfg t.calls h = .error .abort ↔ s₁.Aborts t.calls h) := by
    intro h s₁ hruns
    obtain ⟨i, hdue⟩ := hruns.due
    have hmove : Move cfg .quiet s s₁ := hruns.move
    exact call_aborts_iff hring (hs.handled.move hmove) hdue.handler
  constructor
  · intro hstep
    unfold Exchange.step at hstep
    split at hstep
    · contradiction
    · next hopen =>
      have hclosed : s.closed = false := Bool.eq_false_iff.mpr hopen
      split at hstep
      · contradiction
      · next i ht =>
        split at hstep
        · next hfetched =>
          have hsame : ((s.onEvent i fun ev => { ev with fetched := false }).event i).handler =
              (s.event i).handler := by cases i <;> rfl
          dsimp only at hstep
          rw [hsame] at hstep
          split at hstep
          · contradiction
          · next h hhandler =>
            have hruns := Exchange.Runs.ready hclosed ht hfetched hhandler
            exact ⟨h, _, hruns, (hcall hruns).mp hstep⟩
        · contradiction
      · next i ht =>
        split at hstep
        · next hset =>
          obtain hnull | ⟨h, hhandler, hstep⟩ := bind_error hstep
          · exact absurd (deref_fault hnull) (by simp)
          · have hruns := Exchange.Runs.expire hclosed ht hset (deref_ok hhandler)
            exact ⟨h, _, hruns, (hcall hruns).mp hstep⟩
        · contradiction
  · rintro ⟨h, s₁, hruns, haborts⟩
    rw [hruns.step]
    exact (hcall hruns).mpr haborts

/-- **Assertions**: whatever the turns were, the next one aborts the worker only
if it reads a request line that fills the buffer, or if it sends a file that is
shorter than its length was; and then it does. -/
theorem run_aborts_iff {ts : List Turn} {t : Turn} {now : BitVec 32} {slot : Slot} {fd : Int} {ip : BitVec 32}
    (hring : cfg.loadBalance = .roundMode ∨ t.calls.outside.cycle ≠ none)
    (hrun : Exchange.run cfg ts (Exchange.accepted cfg now slot fd ip) = .ok s) :
    s.step cfg t = .error .abort ↔ ∃ h s₁, s.Runs t h s₁ ∧ s₁.Aborts t.calls h := by
  refine step_aborts_iff hring (run_induct (I := fun _ => True) ?_ (Exchange.always_true cfg ts _)
    (inOrder_accepted cfg now slot fd ip) trivial hrun).1
  exact fun _ _ _ _ _ _ _ _ _ _ _ _ => trivial

end

/-- `Hos` comes in front of the write event that clears the buffer, `t: x`
behind it. -/
def cutName : List Turn :=
  [⟨.poll, oneServer⟩, ⟨.ready .rev, { oneServer with
      outside := { oneServer.outside with conn := fun _ => .again }
      recvLine := .bytes (text ['G', 'E', 'T', ' ', '/', 'b', ' ', 'H', 'T', 'T', 'P', '/', '1', '.', '1', '\r', '\n',
        'H', 'o', 's']) }⟩,
    ⟨.poll, oneServer⟩, ⟨.ready .upWev, oneServer⟩, ⟨.poll, oneServer⟩, ⟨.ready .upWev, oneServer⟩,
    ⟨.poll, oneServer⟩, ⟨.ready .rev, { oneServer with recvHeaders := .bytes (text ['t', ':', ' ', 'x', '\r', '\n']) }⟩]

-- the name ends before it begins: the end of the worker, but not by an assertion
example : (Exchange.run forwardsB cutName (.accepted forwardsB 0 0 5 0)).map (fun _ => ()) = .error .bounds := by
  decide +kernel

/-- The header goes out; the `sendfile` of the file is interrupted after a byte. -/
def interruptedOnce : Turn := ⟨.ready .wev, { oneServer with sendfile := [.intr 1, .complete] }⟩

theorem run_aborts_interruptedOnce :
    ∃ s, Exchange.run forwardsB readsFile (.accepted forwardsB 0 0 5 0) = .ok s ∧
      s.step forwardsB interruptedOnce = .error .abort ∧
        ∃ h s₁, s.Runs interruptedOnce h s₁ ∧ s₁.Aborts interruptedOnce.calls h := by
  have htest : Exchange.runTest forwardsB
      (fun s => match s.step forwardsB interruptedOnce with
        | .error f => decide (f = .abort)
        | .ok _ => false)
      readsFile (.accepted forwardsB 0 0 5 0) = true := by decide +kernel
  obtain ⟨s, hrun, hstep⟩ := Exchange.exists_of_runTest htest
  split at hstep
  · next f heq =>
    obtain rfl := of_decide_eq_true hstep
    exact ⟨s, hrun, heq, (run_aborts_iff (.inl rfl) hrun).mp heq⟩
  · contradiction

end PWebServer
