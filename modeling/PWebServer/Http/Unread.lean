import PWebServer.Http.Frames
import PWebServer.Lib.Lockstep
import PWebServer.Module.ConsistentHash

/-!
# Http.Unread

What is not read of a request: its connection, and up to the first line of the
header the name that was left in it.  The parsers and the balancer do the same
with two requests that differ in no more, and leave two such requests.
-/

namespace PWebServer

open Scan Function

/-- Another connection, and another name of a header line. -/
def HttpRequest.stamped (r : HttpRequest) (connection : Option Slot) (name : Str) : HttpRequest :=
  { r with connection := connection, headerName := name }

/-- What is done to the request of a call of a parser. -/
def onParsed (f : HttpRequest → HttpRequest) (out : Ret × HttpRequest × Buffer) : Ret × HttpRequest × Buffer :=
  (out.1, f out.2.1, out.2.2)

section

variable {r r' : HttpRequest} {b b' : Buffer} {m m' : List UInt8} {o : Option Slot} {n : Str}

/-! ## the parsers -/

/-- A representation of the request that every step respects. -/
theorem parseCall_map {body : HttpRequest → List UInt8 → UInt8 → UInt8 × Next HttpRequest Ret}
    {finish : HttpRequest → Nat → HttpRequest} (f : HttpRequest → HttpRequest)
    (hbody : ∀ r before ch, body (f r) before ch = ((body r before ch).1, (body r before ch).2.map f))
    (hfinish : ∀ r p, finish (f r) p = f (finish r p)) (r : HttpRequest) (b : Buffer) :
    parseCall body finish (f r) b = onParsed f (parseCall body finish r b) := by
  rw [parseCall, parseCall, scan_map f hbody]
  unfold callResult Outcome.map
  rcases (scan body (b.bytes.take b.begin) (b.bytes.drop b.begin) r).res with _ | ret
  · rfl
  · cases ret with
    | ok =>
        dsimp only
        rw [hfinish]
        rfl
    | error | again | invalidRequest => rfl

theorem requestLineBody_stamped (r : HttpRequest) (before : List UInt8) (ch : UInt8) :
    requestLineBody (r.stamped o n) before ch = (requestLineBody r before ch).map (·.stamped o n) := by
  have hstamped := requestLineBody_withLine (r.stamped o n) r before ch
  have hself := requestLineBody_withLine r r before ch
  change requestLineBody (r.stamped o n) before ch = _ at hstamped
  change requestLineBody r before ch = _ at hself
  rw [hstamped]
  -- what the step leaves is in the line's own fields, so it can be stamped afterwards
  cases hstep : requestLineBody r before ch with
  | go s =>
      rw [hstep] at hself
      rw [hself]
      rfl
  | stop ret s =>
      rw [hstep] at hself
      rw [hself]
      rfl

theorem parseRequestLine_stamped (r : HttpRequest) (b : Buffer) :
    parseRequestLine (r.stamped o n) b = onParsed (·.stamped o n) (parseRequestLine r b) := by
  rw [parseRequestLine_eq, parseRequestLine_eq]
  refine parseCall_map (·.stamped o n) (fun r before ch => ?_) (fun _ _ => rfl) r b
  simp only [lineBody, requestLineBody_stamped]

/-- The name is read from the second byte of a line on. -/
theorem headerBody_stamped (r : HttpRequest) (before : List UInt8) (ch : UInt8) :
    headerBody (r.stamped o r.headerName) before ch =
      ((headerBody r before ch).1, (headerBody r before ch).2.map fun r => r.stamped o r.headerName) := by
  obtain ⟨_, _, _, _, _, _, _, _, _, state, _, _, _, _, _, _⟩ := r
  cases state <;> simp only [headerBody, HttpRequest.stamped] <;>
    first
    | rfl
    | (split_ifs <;> rfl)

/-- The first byte of a line writes the name. -/
theorem headerBody_stamped_begin (hbegin : r.state = .hdBegin) (before : List UInt8) (ch : UInt8) :
    headerBody (r.stamped o n) before ch = headerBody (r.stamped o r.headerName) before ch := by
  obtain ⟨_, _, _, _, _, _, _, _, _, state, _, _, _, _, _, _⟩ := r
  cases hbegin
  simp only [headerBody, HttpRequest.stamped]

theorem parseHeader_stamped_same (r : HttpRequest) (b : Buffer) :
    parseHeader (r.stamped o r.headerName) b =
      onParsed (fun r => r.stamped o r.headerName) (parseHeader r b) := by
  rw [parseHeader_eq, parseHeader_eq]
  exact parseCall_map (fun r => r.stamped o r.headerName) headerBody_stamped (fun _ _ => rfl) r b

/-- A name that is left from before is gone as soon as there is a byte. -/
theorem parseHeader_stamped_begin (hbegin : r.state = .hdBegin) (b : Buffer) (hmore : b.bytes.drop b.begin ≠ []) :
    parseHeader (r.stamped o n) b = parseHeader (r.stamped o r.headerName) b := by
  rw [parseHeader_eq, parseHeader_eq, parseCall, parseCall]
  cases hrest : b.bytes.drop b.begin with
  | nil => exact absurd hrest hmore
  | cons ch rest =>
      unfold scan
      rw [headerBody_stamped_begin hbegin]

/-- The requests of a call of `parse_header` may differ in the name before the
first byte of a line only. -/
theorem parseHeader_stamped (h : n = r.headerName ∨ r.state = .hdBegin) (b : Buffer) :
    ∃ n', parseHeader (r.stamped o n) b = onParsed (·.stamped o n') (parseHeader r b) ∧
      (n' = (parseHeader r b).2.1.headerName ∨
        (parseHeader r b).1 = .again ∧ (parseHeader r b).2.1.state = .hdBegin) := by
  by_cases hmore : b.bytes.drop b.begin = []
  · refine ⟨n, ?_⟩
    have hwaits : ∀ r, parseHeader r b = (.again, r, ⟨b.bytes.take b.begin ++ [], b.bytes.length⟩) := fun r => by
      rw [parseHeader_eq, parseCall, hmore]
      rfl
    rw [hwaits, hwaits]
    exact ⟨rfl, h.imp_right fun hbegin => ⟨rfl, hbegin⟩⟩
  · refine ⟨(parseHeader r b).2.1.headerName, ?_, .inl rfl⟩
    have hsame : parseHeader (r.stamped o n) b = parseHeader (r.stamped o r.headerName) b := by
      cases h with
      | inl heq => rw [heq]
      | inr hbegin => exact parseHeader_stamped_begin hbegin b hmore
    rw [hsame, parseHeader_stamped_same]
    rfl

/-- A call that has come to the end of a line. -/
theorem parseHeader_stamped_line {ret : Ret} (h : n = r.headerName ∨ r.state = .hdBegin)
    (hcall : parseHeader r b = (ret, r', b')) (hret : ret ≠ .again) :
    parseHeader (r.stamped o n) b = (ret, r'.stamped o r'.headerName, b') := by
  obtain ⟨n', hcall', hname⟩ := parseHeader_stamped (o := o) h b
  rw [hcall] at hcall' hname
  rw [hcall', hname.resolve_right fun hwaits => hret hwaits.1]
  rfl

/-! ## the header -/

theorem headerHandleGeneric_stamped (r : HttpRequest) (offset : HeaderOffset) :
    headerHandleGeneric (r.stamped o n) offset = (headerHandleGeneric r offset).stamped o n := by
  cases offset <;> rfl

theorem headerHandleConnection_stamped (r : HttpRequest) (offset : HeaderOffset) (data : List UInt8) :
    headerHandleConnection (r.stamped o n) offset data =
      (headerHandleConnection r offset data).map (·.stamped o n) := by
  unfold headerHandleConnection
  rw [headerHandleGeneric_stamped]
  generalize headerHandleGeneric r offset = q
  have hvalue : (q.stamped o n).headers.connection.c = q.headers.connection.c := rfl
  dsimp only
  rw [hvalue]
  cases q.headers.connection.c with
  | none => rfl
  | some c =>
      simp only [deref_some, bind, Except.bind]
      split_ifs <;> rfl

theorem headerParser_stamped (r : HttpRequest) (offset : HeaderOffset) (data : List UInt8) :
    headerParser (r.stamped o n) offset data = (headerParser r offset data).map (·.stamped o n) := by
  cases offset with
  | connection => exact headerHandleConnection_stamped r .connection data
  | accept | cookie | date => rfl

/-- What is done with a line that has been read. -/
theorem handleHeader_stamped (r : HttpRequest) (b : Buffer) (m : List UInt8) :
    handleHeader (r.stamped o r.headerName) b m =
      (handleHeader r b m).map fun out => (out.1.stamped o r.headerName, out.2) := by
  have hname : (r.stamped o r.headerName).headerName = r.headerName := rfl
  unfold handleHeader
  rw [hname]
  split_ifs
  · rfl
  cases b.terminate m r.headerName with
  | error f => rfl
  | ok out =>
      cases hval : headerFind (r.headerName.text (b.bytes ++ m)) with
      | none =>
          simp only [bind, Except.bind]
          rfl
      | some offset =>
          simp only [bind, Except.bind, headerParser_stamped]
          cases headerParser r offset (out.1.bytes ++ out.2) <;> rfl

/-- It keeps the name. -/
theorem handleHeader_headerName (h : handleHeader r b m = .ok (r', b', m')) : r'.headerName = r.headerName := by
  have hself : handleHeader r b m =
      (handleHeader r b m).map fun out => (out.1.stamped r.connection r.headerName, out.2) :=
    handleHeader_stamped r b m
  rw [h] at hself
  have hfirst : r' = r'.stamped r.connection r.headerName := congrArg Prod.fst (Except.ok.inj hself)
  rw [hfirst]
  rfl

/-- What is the same of two ends of the loop over the header. -/
structure HeadersConn.Alike (d d' : HeadersConn) : Prop where
  status : d.status = d'.status
  b : d.b = d'.b
  behind : d.behind = d'.behind
  r : d.r = d'.r.stamped d.r.connection d.r.headerName
  name : d'.r.responseDone = false → d.r.headerName = d'.r.headerName ∨ d'.r.state = .hdBegin

open Lockstep in
/-- The loop over the header. -/
theorem headersLoop_stamped (h : r.responseDone = false → n = r.headerName ∨ r.state = .hdBegin) :
    Agree HeadersConn.Alike (headersLoop (r.stamped o n) b m) (headersLoop r b m) := by
  induction r, b, m using headersLoop.induct generalizing n with
  | case1 r b m hdone =>
      have hdone' : (r.stamped o n).responseDone = true := hdone
      rw [headersLoop_done hdone, headersLoop_done hdone']
      exact .ok ⟨rfl, rfl, rfl, rfl, fun hnot => absurd hdone (Bool.eq_false_iff.mp hnot)⟩
  | case2 r b m hdone r' b' hcall hname =>
      replace hdone := Bool.eq_false_iff.mpr hdone
      have hcall' := parseHeader_stamped_line (o := o) (h hdone) hcall (by decide)
      rw [headersLoop_blank hdone hcall hname, headersLoop_blank (show (r.stamped o n).responseDone = false from hdone)
        hcall' hname]
      exact .ok ⟨rfl, rfl, rfl, rfl, fun _ => .inl rfl⟩
  | case3 r b m hdone r' b' hcall hname f hline =>
      replace hdone := Bool.eq_false_iff.mpr hdone
      have hcall' := parseHeader_stamped_line (o := o) (h hdone) hcall (by decide)
      have hline' := handleHeader_stamped (o := o) r' b' m
      rw [headersLoop_eq hdone, hcall, headersLoop_eq (show (r.stamped o n).responseDone = false from hdone), hcall']
      have hname' : (r'.stamped o r'.headerName).headerName.c ≠ none := hname
      rw [hline] at hline'
      dsimp only
      rw [if_neg hname, if_neg hname', hline, hline']
      exact .error f
  | case4 r b m hdone r' b' hcall hname r'' b'' m'' hline ih =>
      replace hdone := Bool.eq_false_iff.mpr hdone
      have hcall' := parseHeader_stamped_line (o := o) (h hdone) hcall (by decide)
      have hline' := handleHeader_stamped (o := o) r' b' m
      rw [hline] at hline'
      rw [headersLoop_line hdone hcall hname hline,
        headersLoop_line (show (r.stamped o n).responseDone = false from hdone) hcall' hname hline']
      exact ih fun _ => .inl (handleHeader_headerName hline).symm
  | case5 r b m hdone r' b' hcall =>
      replace hdone := Bool.eq_false_iff.mpr hdone
      obtain ⟨n', hcall', hname⟩ := parseHeader_stamped (o := o) (h hdone) b
      rw [hcall] at hcall' hname
      rw [headersLoop_again hdone hcall,
        headersLoop_again (show (r.stamped o n).responseDone = false from hdone) hcall']
      exact .ok ⟨rfl, rfl, rfl, rfl, fun _ => hname.imp_right And.right⟩
  | case6 r b m hdone ret r' b' hok hagain hcall =>
      replace hdone := Bool.eq_false_iff.mpr hdone
      have hcall' := parseHeader_stamped_line (o := o) (h hdone) hcall fun heq => hagain heq
      rw [headersLoop_eq hdone, hcall, headersLoop_eq (show (r.stamped o n).responseDone = false from hdone), hcall']
      cases ret with
      | ok => exact absurd rfl hok
      | again => exact absurd rfl hagain
      | error | invalidRequest =>
          change Agree _ ((b'.terminate m r'.headerName).map _) ((b'.terminate m r'.headerName).map _)
          cases b'.terminate m r'.headerName with
          | error f => exact .error f
          | ok b'' => exact .ok ⟨rfl, rfl, rfl, rfl, fun _ => .inl rfl⟩

/-! ## the balancer -/

theorem initBeforeRound_stamped (now : BitVec 32) (block : Option (Nat → BitVec 64)) (servers : Servers)
    (r : HttpRequest) (target : Option (List UInt8)) :
    initBeforeRound now block servers (r.stamped o n) target =
      (initBeforeRound now block servers r target).map fun v => (v.1, v.2.1.stamped o n, v.2.2) := by
  unfold initBeforeRound
  have hsame : (r.stamped o n).curServerDomain = r.curServerDomain := rfl
  rw [hsame]
  by_cases hdomain : r.curServerDomain = none
  · rw [if_pos hdomain, if_pos hdomain]
    cases target with
    | none => rfl
    | some name =>
        simp only [deref_some, bind, Except.bind, pure, Except.pure]
        split_ifs
        · rfl
        · split <;> rfl
  · rw [if_neg hdomain, if_neg hdomain]
    simp only [bind, Except.bind, pure, Except.pure]
    split_ifs
    · rfl
    · split <;> rfl

theorem retryLoop_stamped (now : BitVec 32) (conn : Nat → Ret) (domain k : Nat) (r : HttpRequest) (d : ServerArr) :
    retryLoop now conn domain k (r.stamped o n) d =
      { retryLoop now conn domain k r d with r := (retryLoop now conn domain k r d).r.stamped o n } := by
  induction k generalizing r d with
  | zero => rfl
  | succ k ih =>
      have hnext : ∀ d, retryLoop now conn domain k
          { r.stamped o n with upstreamTries := (r.stamped o n).upstreamTries + 1 } d = _ :=
        ih { r with upstreamTries := r.upstreamTries + 1 }
      have htries : (r.stamped o n).upstreamTries = r.upstreamTries := rfl
      rw [retryLoop, retryLoop]
      cases hsel : getServerByRoundOnce now d with
      | mk us d' =>
          cases us with
          | none => exact hnext d'
          | some i =>
              cases hret : conn (r.upstreamTries + 1) with
              | ok | again =>
                  simp only [htries, hret]
                  rfl
              | error | invalidRequest =>
                  simp only [htries] at hnext
                  simp only [htries, hret, hnext]

theorem retryAttempts_stamped (now : BitVec 32) (conn : Nat → Ret) (servers : Servers) (domain k : Nat)
    (r : HttpRequest) (d : ServerArr) :
    retryAttempts now conn servers domain k (r.stamped o n) d = retryAttempts now conn servers domain k r d := by
  induction k generalizing r d with
  | zero => rfl
  | succ k ih =>
      have hnext : ∀ d, retryAttempts now conn servers domain k
          { r.stamped o n with upstreamTries := (r.stamped o n).upstreamTries + 1 } d = _ :=
        ih { r with upstreamTries := r.upstreamTries + 1 }
      have htries : (r.stamped o n).upstreamTries = r.upstreamTries := rfl
      rw [retryAttempts, retryAttempts]
      cases hsel : getServerByRoundOnce now d with
      | mk us d' =>
          cases us with
          | none => exact hnext d'
          | some i =>
              cases hret : conn (r.upstreamTries + 1) with
              | ok | again => simp only [htries, hret]
              | error | invalidRequest =>
                  simp only [htries] at hnext
                  simp only [htries, hret, hnext]

theorem getServerByRound_stamped (now : BitVec 32) (conn : Nat → Ret) (block : Option (Nat → BitVec 64))
    (servers : Servers) (r : HttpRequest) (target : Option (List UInt8)) :
    getServerByRound now conn block servers (r.stamped o n) target =
      (getServerByRound now conn block servers r target).map fun v => (v.1.stamped o n, v.2) := by
  unfold getServerByRound
  rw [initBeforeRound_stamped]
  cases initBeforeRound now block servers r target with
  | error f => rfl
  | ok v =>
      obtain ⟨ret, r₁, servers₁⟩ := v
      simp only [Except.map, bind, Except.bind]
      split_ifs with hret
      · rfl
      · have hdomain : (r₁.stamped o n).curServerDomain = r₁.curServerDomain := rfl
        have htries : (r₁.stamped o n).upstreamTries = r₁.upstreamTries := rfl
        rw [hdomain]
        cases r₁.curServerDomain with
        | none => rfl
        | some domain =>
            simp only [deref_some, htries, retryLoop_stamped]
            generalize retryLoop now conn domain _ r₁ _ = run
            have hrun : (run.r.stamped o n).upstreamTries = run.r.upstreamTries := rfl
            rw [hrun]
            split_ifs <;> rfl

theorem selectByRound_stamped (out : Outside) (block : Option (Nat → BitVec 64)) (servers : Servers)
    (rings : Nat → Option Ring) (r : HttpRequest) (target : Option (List UInt8)) :
    selectByRound out block servers rings (r.stamped o n) target =
      (selectByRound out block servers rings r target).map fun sel => { sel with r := sel.r.stamped o n } := by
  have hattempts : roundAttempts out.now out.conn block servers (r.stamped o n) target =
      roundAttempts out.now out.conn block servers r target := by
    unfold roundAttempts
    rw [initBeforeRound_stamped]
    cases initBeforeRound out.now block servers r target with
    | error f => rfl
    | ok v =>
        obtain ⟨ret, r₁, servers₁⟩ := v
        cases ret with
        | ok =>
            have hsame : (r₁.stamped o n).curServerDomain = r₁.curServerDomain := rfl
            simp only [Except.map, hsame]
            cases r₁.curServerDomain with
            | none => rfl
            | some domain => exact retryAttempts_stamped ..
        | error | again | invalidRequest => rfl
  unfold selectByRound
  rw [getServerByRound_stamped, hattempts]
  cases getServerByRound out.now out.conn block servers r target <;> rfl

theorem initBeforeConsistentHashGet_stamped (out : Outside) (servers : Servers) (rings : Nat → Option Ring)
    (r : HttpRequest) (target : Option (List UInt8)) :
    initBeforeConsistentHashGet out servers rings (r.stamped o n) target =
      (initBeforeConsistentHashGet out servers rings r target).map fun v => (v.1.stamped o n, v.2) := by
  unfold initBeforeConsistentHashGet
  rw [initBeforeRound_stamped]
  cases initBeforeRound out.now out.block servers r target with
  | error f => rfl
  | ok v =>
      obtain ⟨ret, r₁, servers₁⟩ := v
      have hdomain : (r₁.stamped o n).curServerDomain = r₁.curServerDomain := rfl
      simp only [Except.map, bind, Except.bind, hdomain]
      cases r₁.curServerDomain with
      | none => rfl
      | some domain =>
          simp only [deref_some]
          split_ifs
          · rfl
          · cases ringBlock out (servers₁.serverIpArr domain).initState (rings domain) <;> rfl

theorem hashLookup_stamped (out : Outside) (servers : Servers) (rings : Nat → Option Ring) (r : HttpRequest)
    (target : Option (List UInt8)) :
    hashLookup out servers rings (r.stamped o n) target =
      (hashLookup out servers rings r target).map fun v => (v.1.stamped o n, v.2) := by
  unfold hashLookup
  rw [initBeforeConsistentHashGet_stamped]
  cases initBeforeConsistentHashGet out servers rings r target with
  | error f => rfl
  | ok v =>
      obtain ⟨r₁, servers₁, rings₁⟩ := v
      have hdomain : (r₁.stamped o n).curServerDomain = r₁.curServerDomain := rfl
      simp only [Except.map, bind, Except.bind, hdomain]
      cases r₁.curServerDomain with
      | none => rfl
      | some domain =>
          simp only [deref_some]
          cases getServerByConsistentHashOnce out.now (servers₁.serverIpArr domain) (rings₁ domain)
            (hashCodeOfIpInteger out.ip) <;> rfl

theorem hashFailed_stamped (out : Outside) (block : Option (Nat → BitVec 64)) (servers : Servers)
    (rings : Nat → Option Ring) (r : HttpRequest) (target : Option (List UInt8)) :
    hashFailed out block servers rings (r.stamped o n) target =
      (hashFailed out block servers rings r target).map fun sel => { sel with r := sel.r.stamped o n } :=
  selectByRound_stamped out block servers rings { r with curUpstream := none } target

theorem getServerByConsistentHash_stamped (out : Outside) (servers : Servers) (rings : Nat → Option Ring)
    (r : HttpRequest) (target : Option (List UInt8)) :
    getServerByConsistentHash out servers rings (r.stamped o n) target =
      (getServerByConsistentHash out servers rings r target).map fun sel => { sel with r := sel.r.stamped o n } := by
  have htries : (r.stamped o n).upstreamTries = r.upstreamTries := rfl
  unfold getServerByConsistentHash
  rw [htries]
  split_ifs with hagain
  · exact hashFailed_stamped ..
  · have hlookup := hashLookup_stamped (o := o) (n := n) out servers rings
      { r with upstreamTries := r.upstreamTries + 1 } target
    change hashLookup out servers rings { r.stamped o n with upstreamTries := r.upstreamTries + 1 } target = _
      at hlookup
    dsimp only
    rw [hlookup]
    cases hashLookup out servers rings { r with upstreamTries := r.upstreamTries + 1 } target with
    | error f => rfl
    | ok v =>
        obtain ⟨r₁, servers₁, rings₁, domain, us⟩ := v
        have htries₁ : (r₁.stamped o n).upstreamTries = r₁.upstreamTries := rfl
        simp only [Except.map, bind, Except.bind]
        cases us with
        | none => exact hashFailed_stamped ..
        | some i =>
            simp only [htries₁]
            split_ifs
            · rfl
            · rw [hashFailed_stamped]
              cases hashFailed out out.retryBlock _ rings₁ r₁ target <;> rfl

/-- A selection reads and writes neither. -/
theorem tryConnectUpstream_stamped (lb : LoadBalance) (out : Outside) (servers : Servers) (rings : Nat → Option Ring)
    (r : HttpRequest) (target : Option (List UInt8)) :
    tryConnectUpstream lb out servers rings (r.stamped o n) target =
      (tryConnectUpstream lb out servers rings r target).map fun sel => { sel with r := sel.r.stamped o n } := by
  cases lb with
  | roundMode => exact selectByRound_stamped ..
  | consistentHash => exact getServerByConsistentHash_stamped ..

end

end PWebServer
