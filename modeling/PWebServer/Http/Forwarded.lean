import PWebServer.Http.AbsPath
import PWebServer.Http.Frames

/-!
# Http.Forwarded

The receive buffer behind the header, which goes on to a back end as it stands,
against the bytes the client has sent.

`process_abs_path` ends the path with a NUL, and the loop of `http_parse_headers`
ends what it takes for the name of a line with one.  No NUL is taken back, and
`http_proxy_pass` clears the buffer while the header is still being read:
`forwarded_iff` says that what is handed over is what was sent exactly for a
request without a header, and without a path unless it goes to a back end, whose
write event has not come before the blank line.
-/

namespace PWebServer

open Scan

/-! ## what should be handed over -/

/-- The header with the capital letters of its names made small; a name goes up
to its colon. -/
def lowerNames (inName : Bool) : List UInt8 → List UInt8
  | [] => []
  | c :: cs =>
      (if inName then lowerCase c else c) :: lowerNames (c = lf || (inName && c ≠ colon)) cs

theorem lowerNames_length (inName : Bool) (xs : List UInt8) : (lowerNames inName xs).length = xs.length := by
  induction xs generalizing inName with
  | nil => rfl
  | cons c cs ih => rw [lowerNames, List.length_cons, List.length_cons, ih]

/-- A header that is nothing but its blank line. -/
def NoHeader (xs : List UInt8) : Prop := ∃ l rest, xs = l ++ rest ∧ BlankLine l

theorem lowerNames_append {xs : List UInt8} (h : ∀ c ∈ xs, c ≠ colon) (ys : List UInt8) :
    lowerNames true (xs ++ ys) = xs.map lowerCase ++ lowerNames true ys := by
  induction xs with
  | nil => rfl
  | cons c cs ih =>
      have hc : c ≠ colon := h c List.mem_cons_self
      have hrest := ih fun d hd => h d (List.mem_cons_of_mem _ hd)
      rw [List.cons_append, lowerNames]
      simp [hc, hrest]

/-! ## lines -/

theorem spaces_ne_colon (k : Nat) : ∀ c ∈ spaces k, c ≠ colon := by
  intro c hc
  rw [List.eq_of_mem_replicate hc]
  decide

theorem HeaderName.ne_colon (hn : HeaderName n) : ∀ c ∈ n, c ≠ colon := by
  intro c hc heq
  have hallow := hn.2 c hc
  rw [heq] at hallow
  contradiction

theorem lowerCase_ne_zero {c : UInt8} (hc : headerNameAllow c = true) : lowerCase c ≠ 0 := by
  have hall : ∀ n : Fin 256, headerNameAllow (UInt8.ofNat n) = true → lowerCase (UInt8.ofNat n) ≠ 0 := by
    decide +kernel
  have hn := hall ⟨c.toNat, c.toNat_lt⟩
  rw [UInt8.ofNat_toNat] at hn
  exact hn hc

theorem map_lowerCase_spaces (k : Nat) : (spaces k).map lowerCase = spaces k := by
  rw [List.map_replicate]
  rfl

/-- A line with a NUL in it is not the line in small letters. -/
theorem LineWritten.ne_lowerNames {l l' : List UInt8} (h : LineWritten l l') (xs ys : List UInt8) :
    l' ++ ys ≠ lowerNames true (l ++ xs) := by
  cases h with
  | @bare c cs k hn =>
      intro heq
      have hc := lowerCase_ne_zero (hn.2 c List.mem_cons_self)
      have hcolon := hn.ne_colon c List.mem_cons_self
      simp only [List.append_assoc, List.cons_append] at heq
      rw [lowerNames_append (spaces_ne_colon k), map_lowerCase_spaces, List.append_cancel_left_eq,
        lowerNames, if_pos rfl] at heq
      exact hc (List.cons.inj heq).1.symm
  | @valued n v t e k hn j =>
      intro heq
      have hclean : ∀ c ∈ spaces k ++ n, c ≠ colon := by
        intro c hc
        cases List.mem_append.mp hc with
        | inl hin => exact spaces_ne_colon k c hin
        | inr hin => exact hn.ne_colon c hin
      have hline : spaces k ++ n ++ [colon] ++ spaces j ++ v :: t ++ e ++ xs =
          (spaces k ++ n) ++ colon :: (spaces j ++ v :: t ++ e ++ xs) := by simp
      have hwritten : spaces k ++ n.map lowerCase ++ [0] ++ (spaces j ++ v :: t ++ e) ++ ys =
          (spaces k ++ n.map lowerCase) ++ 0 :: (spaces j ++ v :: t ++ e ++ ys) := by simp
      rw [hline, hwritten, lowerNames_append hclean, List.map_append, map_lowerCase_spaces,
        List.append_cancel_left_eq, lowerNames, if_pos rfl] at heq
      exact absurd (List.cons.inj heq).1 (by decide)

theorem BlankLine.lowerNames_eq {l : List UInt8} (h : BlankLine l) : lowerNames true l = l := by
  cases h with
  | @mk e k he =>
      rw [lowerNames_append (spaces_ne_colon k), map_lowerCase_spaces]
      cases he with
      | inl hlf => rw [hlf]; rfl
      | inr hcrlf => rw [hcrlf]; rfl

/-- A line with a name is no blank one. -/
theorem LineWritten.not_noHeader {l l' : List UInt8} (h : LineWritten l l') (xs : List UInt8) :
    ¬ NoHeader (l ++ xs) := by
  intro hnone
  obtain ⟨b, rest, heq, hblank⟩ := hnone
  have hname : ∃ k c tail, l ++ xs = spaces k ++ c :: tail ∧ headerNameAllow c = true := by
    cases h with
    | @bare c cs k hn => exact ⟨k, c, cs ++ [cr] ++ [lf] ++ xs, by simp, hn.2 c List.mem_cons_self⟩
    | @valued n v t e k hn j =>
        obtain ⟨c, cs, rfl⟩ := List.exists_cons_of_ne_nil hn.1
        exact ⟨k, c, cs ++ [colon] ++ spaces j ++ v :: t ++ e ++ xs, by simp, hn.2 c List.mem_cons_self⟩
  obtain ⟨k, c, tail, hl, hc⟩ := hname
  rw [hl] at heq
  have hskip : ∀ (j : Nat) (d : UInt8) (ds : List UInt8), d ≠ space →
      (spaces j ++ d :: ds).dropWhile (· = space) = d :: ds := by
    intro j d ds hd
    rw [List.dropWhile_append_of_pos (by simp [spaces, List.mem_replicate])]
    simp [hd]
  have hcspace : c ≠ space := by
    intro hsp
    rw [hsp] at hc
    contradiction
  have hleft := hskip k c tail hcspace
  cases hblank with
  | @mk e j he =>
      obtain ⟨d, e', hend, hd⟩ := lineEnd_head he
      rw [heq, hend, List.append_assoc, List.cons_append, hskip j d _ (by cases hd with
        | inl hlf => rw [hlf]; decide
        | inr hcr => rw [hcr]; decide)] at hleft
      rw [← (List.cons.inj hleft).1] at hc
      cases hd with
      | inl hlf =>
          rw [hlf] at hc
          contradiction
      | inr hcr =>
          rw [hcr] at hc
          contradiction

/-! ## the request line -/

theorem PathWord.head_ne_zero {p : List UInt8} (hp : PathWord p) (xs : List UInt8) :
    ∃ c, (p ++ xs)[0]? = some c ∧ c ≠ 0 := by
  cases p with
  | nil => exact absurd rfl hp.ne_nil
  | cons c cs =>
      refine ⟨c, rfl, fun heq => ?_⟩
      have hc := hp.1
      rw [heq] at hc
      contradiction

/-- Where the path of a URI is ended no NUL has been. -/
theorem PathSlices.written {a : Nat} {u : List UInt8} {uri : Uri} (h : PathSlices a u uri) (b : Buffer)
    (pre post : List UInt8) (hbytes : b.bytes = pre ++ (u ++ space :: post)) (ha : a = pre.length) :
    uri.absPath.c = Option.none ∧ (processAbsPath uri b).2 = b ∨
      uri.absPath.c ≠ Option.none ∧ ∃ i c, i < (pre ++ (u ++ [space])).length ∧ b.bytes[i]? = some c ∧ c ≠ 0 ∧
        (processAbsPath uri b).2 = { b with bytes := b.bytes.set i 0 } := by
  cases h with
  | none hc => exact .inl ⟨hc, by rw [processAbsPath, hc]⟩
  | @path o p rest n hu hp hend hpath hext =>
      have hset : ((a + o.length + 1 : Nat) + (n : Int)).toNat = a + o.length + 1 + n := by omega
      have hbuf : (processAbsPath uri b).2 = { b with bytes := b.bytes.set (a + o.length + 1 + n) 0 } := by
        rw [processAbsPath, hpath, hext]
        simp only [hset]
      have hsplit : b.bytes = (pre ++ (o ++ [slash])) ++ (p ++ (rest ++ space :: post)) := by
        simp [hbytes, hu]
      have hlen : (pre ++ (o ++ [slash])).length = a + o.length + 1 := by
        simp [ha]
        omega
      have hget : b.bytes[a + o.length + 1 + n]? = (p ++ (rest ++ space :: post))[n]? := by
        rw [hsplit, List.getElem?_append_right (by omega), hlen, Nat.add_sub_cancel_left]
      have hbyte : ∃ c, (p ++ (rest ++ space :: post))[n]? = some c ∧ c ≠ 0 := by
        cases hend with
        | inl hzero =>
            rw [hzero]
            exact hp.head_ne_zero _
        | inr hall =>
            rw [hall.1, List.getElem?_append_right (Nat.le_refl _), Nat.sub_self]
            cases hall.2 with
            | inl hnil => exact ⟨space, by rw [hnil]; rfl, by decide⟩
            | inr hdot => exact ⟨dot, by rw [hdot]; rfl, by decide⟩
      obtain ⟨c, hc, hzero⟩ := hbyte
      have hn : n ≤ p.length := by
        cases hend with
        | inl hzero => omega
        | inr hall => omega
      refine .inr ⟨by rw [hpath]; exact Option.some_ne_none _, _, c, ?_, hget.trans hc, hzero, hbuf⟩
      rw [hu, ha]
      simp only [List.length_append, List.length_cons, List.length_nil]
      omega
  | @extension o p e rest hu hp he hrest hpath hext =>
      have hset : ((a + o.length + 1 : Nat) + ((p.length : Int) + (e.length + 1))).toNat =
          a + o.length + 1 + (p ++ dot :: e).length := by
        rw [List.length_append, List.length_cons]
        omega
      have hbuf : (processAbsPath uri b).2 =
          { b with bytes := b.bytes.set (a + o.length + 1 + (p ++ dot :: e).length) 0 } := by
        rw [processAbsPath, hpath, hext]
        simp only [hset]
      have hsplit : b.bytes = (pre ++ (o ++ [slash]) ++ (p ++ dot :: e)) ++ (rest ++ space :: post) := by
        simp [hbytes, hu]
      have hlen : (pre ++ (o ++ [slash]) ++ (p ++ dot :: e)).length =
          a + o.length + 1 + (p ++ dot :: e).length := by
        rw [List.length_append, ha]
        simp
        omega
      have hget : b.bytes[a + o.length + 1 + (p ++ dot :: e).length]? = (rest ++ space :: post)[0]? := by
        rw [hsplit, List.getElem?_append_right (by omega), hlen, Nat.sub_self]
      have hbyte : ∃ c, (rest ++ space :: post)[0]? = some c ∧ c ≠ 0 := by
        cases hrest with
        | inl hnil => exact ⟨space, by rw [hnil]; rfl, by decide⟩
        | inr hquestion =>
            obtain ⟨q, hq⟩ := List.head?_eq_some_iff.mp hquestion
            exact ⟨question, by rw [hq]; rfl, by decide⟩
      obtain ⟨c, hc, hzero⟩ := hbyte
      refine .inr ⟨by rw [hpath]; exact Option.some_ne_none _, _, c, ?_, hget.trans hc, hzero, hbuf⟩
      rw [hu, ha]
      simp only [List.length_append, List.length_cons, List.length_nil]
      omega

/-- A lookup that leaves the receive buffer alone. -/
def LeavesLine (locations : List UInt8 → Bool) (uri : Uri) (b : Buffer) : Prop :=
  locations (uri.absPath.text b.bytes) = true ∨ uri.absPath.c = none

/-- The lookup writes into the request line or nowhere. -/
theorem requestProcessUri_buffer {line : List UInt8} {r : HttpRequest} (h : AcceptedLine line r)
    (locations : List UInt8 → Bool) (rest : List UInt8) (n : Nat) :
    ∃ line', (requestProcessUri locations r.uri ⟨line ++ rest, n⟩).2 = ⟨line' ++ rest, n⟩ ∧
      line'.length = line.length ∧
      (line' = line ↔ LeavesLine locations r.uri ⟨line ++ rest, n⟩) := by
  by_cases hfound : locations (r.uri.absPath.text (line ++ rest)) = true
  · refine ⟨line, ?_, rfl, iff_of_true rfl (.inl hfound)⟩
    rw [requestProcessUri, if_pos hfound]
  · have hlookup : (requestProcessUri locations r.uri ⟨line ++ rest, n⟩).2 =
        (processAbsPath r.uri ⟨line ++ rest, n⟩).2 := by
      rw [requestProcessUri, if_neg hfound]
    have hwritten : r.uri.absPath.c = none ∧ (processAbsPath r.uri ⟨line ++ rest, n⟩).2 = ⟨line ++ rest, n⟩ ∨
        r.uri.absPath.c ≠ none ∧ ∃ i c, i < line.length ∧ (line ++ rest)[i]? = some c ∧ c ≠ 0 ∧
          (processAbsPath r.uri ⟨line ++ rest, n⟩).2 = ⟨(line ++ rest).set i 0, n⟩ := by
      cases h with
      | @mk h v r version k hh hv =>
          cases hh with
          | @mk m u j i uri hm hmethod hu hne hin =>
              have hline := hu.pathSlices.written ⟨_, n⟩ (m ++ spaces (j + 1))
                (spaces i ++ (v ++ (spaces k ++ [cr, lf])) ++ rest) rfl (by simp)
              have hsame : m ++ spaces (j + 1) ++
                  (u ++ space :: (spaces i ++ (v ++ (spaces k ++ [cr, lf])) ++ rest)) =
                  m ++ (spaces (j + 1) ++ (u ++ spaces (i + 1))) ++ (v ++ (spaces k ++ [cr, lf])) ++ rest := by
                simp [spaces, List.replicate_succ]
              rw [hsame] at hline
              cases hline with
              | inl hnone => exact .inl hnone
              | inr hsome =>
                  obtain ⟨hc, p, c, hlt, hget, hzero, hbuf⟩ := hsome
                  refine .inr ⟨hc, p, c, ?_, hget, hzero, hbuf⟩
                  simp only [List.length_append, List.length_replicate, List.length_singleton] at hlt ⊢
                  omega
    rw [hlookup]
    cases hwritten with
    | inl hnone => exact ⟨line, hnone.2, rfl, iff_of_true rfl (.inr hnone.1)⟩
    | inr hsome =>
        obtain ⟨hc, i, c, hlt, hget, hzero, hbuf⟩ := hsome
        refine ⟨line.set i 0, ?_, List.length_set, iff_of_false (fun heq => ?_) (fun hleaves => ?_)⟩
        · rw [hbuf, List.set_append_left _ _ hlt]
        · rw [List.getElem?_append_left hlt] at hget
          have hset : (line.set i 0)[i]? = some 0 := by
            rw [List.getElem?_set_self hlt]
          rw [heq, hget] at hset
          exact hzero (Option.some.inj hset)
        · cases hleaves with
          | inl hin => exact hfound hin
          | inr hnone => exact hc hnone

/-! ## the header -/

/-- What is in front of `begin` once the blank line has been read: `pre`, the
lines as they have been written, and the blank one. -/
def HandedOver (pre xs : List UInt8) (d : HeadersConn) : Prop :=
  ∃ s s' l rest, xs = s ++ (l ++ rest) ∧ Written s s' ∧ BlankLine l ∧
    d.b.begin = (pre ++ (s' ++ l)).length ∧ d.b.bytes.take d.b.begin = pre ++ (s' ++ l)

/-- Lines that have been read before. -/
theorem HandedOver.lines {pre s s' xs : List UInt8} {d : HeadersConn} (h : HandedOver (pre ++ s') xs d)
    (hs : Written s s') : HandedOver pre (s ++ xs) d := by
  obtain ⟨t, t', l, rest, hxs, ht, hl, hbegin, htake⟩ := h
  refine ⟨s ++ t, s' ++ t', l, rest, ?_, hs.append ht, hl, ?_, ?_⟩
  · rw [hxs, List.append_assoc]
  · rw [hbegin]
    simp only [List.append_assoc]
  · rw [htake]
    simp only [List.append_assoc]

theorem HandedOver.more {pre xs : List UInt8} {d : HeadersConn} (h : HandedOver pre xs d)
    (ys : List UInt8) : HandedOver pre (xs ++ ys) d := by
  obtain ⟨s, s', l, rest, hxs, hs, hl, hbegin, htake⟩ := h
  refine ⟨s, s', l, rest ++ ys, ?_, hs, hl, hbegin, htake⟩
  rw [hxs]
  simp only [List.append_assoc]

/-- A loop that hands over without having answered has read the blank line. -/
theorem HeaderEnd.handedOver {l : List UInt8} {null : Bool} {q : HttpRequest} {d : HeadersConn}
    (h : HeaderEnd l null) (hq : q.state = .hdBegin) (hdone : q.responseDone = false)
    (pre rest m : List UInt8) (hloop : headersLoop q ⟨pre ++ (l ++ rest), pre.length⟩ m = .ok d)
    (hbody : d.status = .body) (hopen : d.r.responseDone = false) : HandedOver pre (l ++ rest) d := by
  cases h with
  | blank hl =>
      rw [headersLoop_blank hdone (parseHeader_blank hq hl pre rest) rfl] at hloop
      cases hloop
      exact ⟨[], [], l, rest, rfl, .nil, hl, rfl, List.take_left' rfl⟩
  | answered hl hv =>
      obtain ⟨q', l', -, -, hanswers, hturn⟩ := hl.loop hq hdone pre rest m
      have hdone' := hanswers.mpr hv
      rw [hturn, headersLoop_done hdone'] at hloop
      cases hloop
      rw [hdone'] at hopen
      contradiction
  | named hl =>
      obtain ⟨st, i, len, value, l', hcall⟩ := parseHeader_named hq hl pre rest
      obtain ⟨b', m', hterm⟩ := terminate_some (s := (q.headerAt st ⟨some i, len⟩ value).headerName) rfl
        ⟨pre ++ l' ++ rest, pre.length⟩ m
      rw [headersLoop_error hdone hcall, hterm] at hloop
      cases hloop
      contradiction
  | nameless hl =>
      have hnull := (HeaderEnd.nameless hl).loop hq hdone pre rest m
      rw [if_pos rfl, hloop] at hnull
      contradiction

/-- One read in the middle of a line, the rest of the run being known to hand
over as it should. -/
theorem headersLoop_handedOver {next : HeadersConn → Except Fault HeadersConn} {q r : HttpRequest}
    {pre w w' m : List UInt8} {d : HeadersConn} (ys zs : List UInt8) (hq : q.state = .hdBegin)
    (hdone : q.responseDone = false) (h : HeaderPrefix q pre.length w w' r)
    (hnext : ∀ {q' : HttpRequest} {pre' t t' : List UInt8} {r' : HttpRequest},
      q'.state = .hdBegin → q'.responseDone = false → HeaderPrefix q' pre'.length t t' r' →
      (pre' ++ t').length = (pre ++ w').length + ys.length →
      next ⟨.waiting, r', ⟨pre' ++ t', (pre' ++ t').length⟩, m⟩ = .ok d → HandedOver pre' (t ++ zs) d)
    (hrun : (headersLoop r ⟨pre ++ w' ++ ys, (pre ++ w').length⟩ m >>= fun c =>
        if c.status = .waiting then next c else pure c) = .ok d)
    (hbody : d.status = .body) (hopen : d.r.responseDone = false) :
    HandedOver pre (w ++ ys ++ zs) d := by
  have hwhole : (headersLoop q ⟨pre ++ (w ++ ys), pre.length⟩ m >>= fun c =>
      if c.status = .waiting then next c else pure c) = .ok d := by
    cases headersLoop_resume hq hdone h ys m with
    | inl heq => rwa [heq] at hrun
    | inr hclosed =>
        obtain ⟨d₁, d₂, heq, -, hclosed, -⟩ := hclosed
        rw [heq] at hrun
        simp only [bind, Except.bind, hclosed, pure, Except.pure] at hrun
        cases hrun
        exact absurd (hclosed.symm.trans hbody) (by decide)
  obtain ⟨s, t, hst, hs, ht⟩ := stream_cases (w ++ ys)
  obtain ⟨q', s', hwritten, hq', hdone', hloop⟩ := hs.loop hq hdone pre t m
  rw [hst, hloop] at hwhole
  rw [hst, List.append_assoc]
  refine HandedOver.lines ?_ hwritten
  cases ht with
  | inl hfront =>
      obtain ⟨t', r', hfront⟩ := hfront q' (pre ++ s').length
      rw [headersLoop_again hdone' (parseHeader_again hq' hfront)] at hwhole
      refine hnext hq' hdone' hfront ?_ hwhole
      have hlength := congrArg List.length hst
      simp only [List.length_append, hfront.length, h.length, hwritten.length] at hlength ⊢
      omega
  | inr hend =>
      obtain ⟨l, rest, null, rfl, hend⟩ := hend
      refine HandedOver.more ?_ zs
      cases hres : headersLoop q' ⟨pre ++ s' ++ (l ++ rest), (pre ++ s').length⟩ m with
      | error f =>
          rw [hres] at hwhole
          contradiction
      | ok c =>
          rw [hres] at hwhole
          have hall := hend.loop hq' hdone' (pre ++ s') rest m
          cases null with
          | true =>
              rw [if_pos rfl, hres] at hall
              contradiction
          | false =>
              rw [if_neg Bool.false_ne_true, hres] at hall
              obtain ⟨c', hc', hstatus⟩ := hall
              cases hc'
              simp only [bind, Except.bind, if_neg hstatus, pure, Except.pure] at hwhole
              cases hwhole
              exact hend.handedOver hq' hdone' (pre ++ s') rest m hres hbody hopen

/-- A request that is answered already stays so. -/
theorem headersRun_answered (events : List HeaderEvent) :
    ∀ {c d : HeadersConn}, c.r.responseDone = true → headersRun events c = .ok d → d.r.responseDone = true := by
  induction events with
  | nil =>
      intro c d hdone hrun
      cases hrun
      exact hdone
  | cons event events ih =>
      intro c d hdone hrun
      cases event with
      | wake wake =>
          cases wake with
          | timedout =>
              cases hrun
              rfl
          | closed =>
              cases hrun
              exact hdone
          | readable sent =>
              rw [headersRun, HeadersConn.event, httpParseHeaders, headersLoop_done hdone] at hrun
              cases hrun
              exact hdone
      | proxyPass =>
          obtain ⟨c₁, hc₁, hrun⟩ := bind_ok hrun
          cases hc₁
          split at hrun
          · exact ih (c := { c with b := {}, behind := c.b.bytes ++ c.behind }) hdone hrun
          · cases hrun
            exact hdone
      | responseDone =>
          obtain ⟨c₁, hc₁, hrun⟩ := bind_ok hrun
          cases hc₁
          split at hrun
          · exact ih rfl hrun
          · cases hrun
            rfl

/-- The run from the middle of a line on. -/
theorem headersRun_handedOver (events : List HeaderEvent) (hclear : .proxyPass ∉ events) :
    ∀ {q r : HttpRequest} {pre w w' m : List UInt8} {d : HeadersConn}, q.state = .hdBegin →
      q.responseDone = false → HeaderPrefix q pre.length w w' r →
      headersRun events ⟨.waiting, r, ⟨pre ++ w', (pre ++ w').length⟩, m⟩ = .ok d →
      d.status = .body → d.r.responseDone = false →
      HandedOver pre (w ++ receivedBy (pre ++ w').length events) d := by
  induction events with
  | nil =>
      intro q r pre w w' m d hq hdone h hrun hbody hopen
      rw [headersRun] at hrun
      cases hrun
      contradiction
  | cons event events ih =>
      intro q r pre w w' m d hq hdone h hrun hbody hopen
      cases event with
      | proxyPass => exact absurd List.mem_cons_self hclear
      | responseDone =>
          have hanswered := headersRun_answered events rfl hrun
          rw [hopen] at hanswered
          contradiction
      | wake wake =>
          cases wake with
          | timedout =>
              cases hrun
              contradiction
          | closed =>
              cases hrun
              contradiction
          | readable sent =>
              have hread := headersLoop_handedOver (sent.take (bufSize - (pre ++ w').length))
                (receivedBy ((pre ++ w').length + (sent.take (bufSize - (pre ++ w').length)).length) events)
                hq hdone h
                (fun {q' pre' t t' r'} hq' hdone' h' hlen hnext => by
                  have hrest := ih (fun h => hclear (List.mem_cons_of_mem _ h)) hq' hdone' h' hnext hbody hopen
                  rwa [hlen] at hrest)
                hrun hbody hopen
              rw [List.append_assoc w] at hread
              exact hread

/-- The run from the start of the header, with what came behind the request
line already in the buffer. -/
theorem headersRun_startOver {q : HttpRequest} {d : HeadersConn} (hq : q.state = .hdBegin)
    (hdone : q.responseDone = false) (line rest m : List UInt8) (events : List HeaderEvent)
    (hclear : .proxyPass ∉ events)
    (hrun : headersRun events ⟨.waiting, q, ⟨line ++ rest, line.length⟩, m⟩ = .ok d)
    (hbody : d.status = .body) (hopen : d.r.responseDone = false) :
    HandedOver line (rest ++ receivedBy (line ++ rest).length events) d := by
  cases events with
  | nil =>
      rw [headersRun] at hrun
      cases hrun
      contradiction
  | cons event events =>
      cases event with
      | proxyPass => exact absurd List.mem_cons_self hclear
      | responseDone =>
          have hanswered := headersRun_answered events rfl hrun
          rw [hopen] at hanswered
          contradiction
      | wake wake =>
          cases wake with
          | timedout =>
              cases hrun
              contradiction
          | closed =>
              cases hrun
              contradiction
          | readable sent =>
              have hread := headersLoop_handedOver (rest ++ sent.take (bufSize - (line ++ rest).length))
                (receivedBy ((line ++ rest).length + (sent.take (bufSize - (line ++ rest).length)).length) events)
                hq hdone (.start (o := line.length))
                (m := m.drop ((Buffer.recv ⟨line ++ rest, line.length⟩ sent).bytes.length - (line ++ rest).length))
                (fun {q' pre' t t' r'} hq' hdone' h' hlen hnext => by
                  have hrest := headersRun_handedOver events (fun h => hclear (List.mem_cons_of_mem _ h))
                    hq' hdone' h' hnext hbody hopen
                  have hroom : (pre' ++ t').length =
                      (line ++ rest).length + (sent.take (bufSize - (line ++ rest).length)).length := by
                    simp only [List.length_append, List.length_nil] at hlen ⊢
                    omega
                  rwa [hroom] at hrest)
                (d := d) (by
                  rw [List.append_nil, ← List.append_assoc]
                  exact hrun) hbody hopen
              rw [List.nil_append, List.append_assoc rest] at hread
              exact hread

/-! ## the law -/

/-- What `request_process_uri` stores in the request behind its lookup. -/
structure Looked where
  upstream : Option Slot
  curUpstream : Option (Nat × Nat)
  curServerDomain : Option Nat
  upstreamTries : Nat
  status : Int
  responseDone : Bool
  keepAlive : Bool
  deriving DecidableEq, Repr

/-- The request behind the lookup. -/
def HttpRequest.looked (r : HttpRequest) (o : Looked) : HttpRequest :=
  { r with
    upstream := o.upstream
    curUpstream := o.curUpstream
    curServerDomain := o.curServerDomain
    upstreamTries := o.upstreamTries
    status := o.status
    responseDone := o.responseDone
    keepAlive := o.keepAlive }

/-- Lines handed over are what was sent only if there are none. -/
theorem written_eq_iff {s s' l rest : List UInt8} (hs : Written s s') (hl : BlankLine l) :
    s' ++ l = lowerNames true (s ++ l) ↔ NoHeader (s ++ (l ++ rest)) := by
  cases hs with
  | nil => exact iff_of_true hl.lowerNames_eq.symm ⟨l, rest, rfl, hl⟩
  | @cons l₁ l₁' s s' h hs =>
      have hne := h.ne_lowerNames (s ++ l) (s' ++ l)
      have hname := h.not_noHeader (s ++ (l ++ rest))
      rw [List.append_assoc, List.append_assoc, List.append_assoc]
      exact iff_of_false hne hname

/-- The bytes of the client: what is in the buffer when the request line has been
read, and what the reads of the header add, up to a last one. -/
def fromClient (c : LineConn) (events : List HeaderEvent) (sent : List UInt8) : List UInt8 :=
  c.b.bytes ++ receivedBy c.b.bytes.length (events ++ [.wake (.readable sent)])

theorem headersRun_append (events : List HeaderEvent) (event : HeaderEvent) :
    ∀ {c c₁ : HeadersConn}, c.status = .waiting → headersRun events c = .ok c₁ → c₁.status = .waiting →
      headersRun (events ++ [event]) c = c₁.event event := by
  induction events with
  | nil =>
      intro c c₁ hstart hrun hwaits
      cases hrun
      rw [List.nil_append, headersRun]
      cases c.event event with
      | error f => rfl
      | ok c₂ =>
          simp only [bind, Except.bind]
          split <;> rfl
  | cons e events ih =>
      intro c c₁ hstart hrun hwaits
      obtain ⟨c₂, hc₂, hrun⟩ := bind_ok hrun
      rw [List.cons_append, headersRun, hc₂]
      simp only [bind, Except.bind]
      split at hrun
      · next hwait =>
        rw [if_pos hwait]
        exact ih hwait hrun hwaits
      · next hover =>
        cases hrun
        exact absurd hwaits hover

/-- The reads fill the buffer with what they add, unless it has been cleared. -/
theorem headersRun_length (events : List HeaderEvent) (sent : List UInt8) {d : HeadersConn} :
    ∀ {c c₁ : HeadersConn}, headersRun events c = .ok c₁ → c₁.status = .waiting →
      httpParseHeaders (.readable sent) c₁ = .ok d → d.r.responseDone = false →
      (.proxyPass ∉ events → d.b.bytes.length =
        c.b.bytes.length + (receivedBy c.b.bytes.length (events ++ [.wake (.readable sent)])).length) ∧
      (.proxyPass ∈ events → d.b.bytes.length ≤
        (receivedBy c.b.bytes.length (events ++ [.wake (.readable sent)])).length) := by
  induction events with
  | nil =>
      intro c c₁ hrun hwaits hlast hopen
      cases hrun
      refine ⟨fun _ => ?_, fun hmem => absurd hmem List.not_mem_nil⟩
      rw [(headersLoop_parsed hlast).length]
      simp [Buffer.recv, receivedBy]
  | cons event events ih =>
      intro c c₁ hrun hwaits hlast hopen
      obtain ⟨c₂, hc₂, hrest⟩ := bind_ok hrun
      split at hrest
      · next hwait =>
        have hnext := ih hrest hwaits hlast hopen
        cases event with
        | proxyPass =>
            cases hc₂
            refine ⟨fun hnot => absurd List.mem_cons_self hnot, fun _ => ?_⟩
            by_cases hmem : .proxyPass ∈ events
            · exact hnext.2 hmem
            · exact (hnext.1 hmem).le.trans (Nat.zero_add _).le
        | responseDone =>
            cases hc₂
            have hanswered := headersRun_answered events rfl hrest
            rw [httpParseHeaders, headersLoop_done hanswered] at hlast
            cases hlast
            rw [hopen] at hanswered
            contradiction
        | wake wake =>
            cases wake with
            | timedout =>
                cases hc₂
                contradiction
            | closed =>
                cases hc₂
                contradiction
            | readable sent' =>
                have hlength : c₂.b.bytes.length =
                    c.b.bytes.length + (sent'.take (bufSize - c.b.bytes.length)).length := by
                  rw [(headersLoop_parsed hc₂).length, Buffer.recv, List.length_append]
                rw [hlength] at hnext
                simp only [List.mem_cons, reduceCtorEq, false_or, List.cons_append, receivedBy, List.length_append]
                exact ⟨fun hnot => (hnext.1 hnot).trans (Nat.add_assoc _ _ _),
                  fun hmem => (hnext.2 hmem).trans (Nat.le_add_left _ _)⟩
      · next hover =>
        cases hrest
        exact absurd hwaits hover

/-- **The bytes that go on**: a request line read in any pieces, the lookup and
a header read in any pieces, with the back end's write events and the answers of
other handlers in between.  What has been received up to the line is in the
buffer as it came.  When the blank line hands over to `request_handle_body`, the
buffer up to `begin` has the bytes of the client so far, the names of the header
in small letters, if and only if there is no header, the lookup has left the
request line alone and the buffer has not been cleared. -/
theorem forwarded_iff (base : HttpRequest) (locations : List UInt8 → Bool) (o : Looked)
    (lineWakes : List Wake) (events : List HeaderEvent) (sent m : List UInt8) (c : LineConn) (c₁ d : HeadersConn)
    (hline : lineRun lineWakes { r := base.beginLine } = .ok c) (hstatus : c.status = .headers)
    (hevents : headersRun events
      ⟨.waiting, c.r.looked o, (requestProcessUri locations c.r.uri c.b).2, m⟩ = .ok c₁)
    (hwaits : c₁.status = .waiting) (hheader : httpParseHeaders (.readable sent) c₁ = .ok d)
    (hbody : d.status = .body) (hblank : d.r.responseDone = false) :
    c.b.bytes <+: received lineWakes ∧
      (d.b.bytes.take d.b.begin = c.b.bytes.take c.b.begin ++ lowerNames true
          (((fromClient c events sent).take ((fromClient c events sent).length -
            (d.b.bytes.length - d.b.begin))).drop c.b.begin) ↔
        NoHeader ((fromClient c events sent).drop c.b.begin) ∧ LeavesLine locations c.r.uri c.b ∧
          .proxyPass ∉ events) := by
  have hread := lineRun_headers base lineWakes (w := []) (r := {}) (.nil _) (by decide) hline hstatus
  obtain ⟨line, rest, r, haccepted, hb, hr, hfront⟩ := hread
  have huri : c.r.uri = r.uri := by rw [hr]; rfl
  have hstate : (c.r.looked o).state = .hdBegin := by rw [hr]; rfl
  have hrun := headersRun_append events (.wake (.readable sent)) rfl hevents hwaits
  replace hrun := hrun.trans hheader
  have hfresh : (c.r.looked o).responseDone = false := by
    cases hopen : (c.r.looked o).responseDone with
    | false => rfl
    | true =>
        rw [headersRun_answered _ hopen hrun] at hblank
        contradiction
  obtain ⟨line', hbuffer, hlength, hleaves⟩ := requestProcessUri_buffer haccepted locations rest line.length
  have hfilled := headersRun_length events sent hevents hwaits hheader hblank
  rw [huri, hb, hbuffer, ← hlength] at hrun
  rw [huri, hb, hbuffer] at hfilled
  have hbytes : fromClient c events sent =
      line ++ rest ++ receivedBy (line' ++ rest).length (events ++ [.wake (.readable sent)]) := by
    rw [fromClient, hb, List.length_append, List.length_append, hlength]
  refine ⟨by rw [hb]; exact hfront, ?_⟩
  by_cases hclear : .proxyPass ∈ events
  · -- the request line is no longer in the buffer
    refine iff_of_false (fun heq => ?_) fun hall => hall.2.2 hclear
    have hfew := hfilled.2 hclear
    have hline : 0 < line.length := by
      cases haccepted with
      | mk hh hv =>
          simp only [List.length_append, List.length_cons]
          omega
    have hlengths := congrArg List.length heq
    have htotal : (fromClient c events sent).length = line.length + rest.length +
        (receivedBy (line' ++ rest).length (events ++ [.wake (.readable sent)])).length := by
      rw [hbytes, List.length_append, List.length_append]
    have hbegin : c.b.begin = line.length := by rw [hb]
    rw [List.length_append, lowerNames_length, List.length_take, List.length_take, List.length_drop,
      List.length_take, hbegin, hb] at hlengths
    simp only [List.length_append] at hlengths htotal hfew
    omega
  · have hover := headersRun_startOver hstate hfresh line' rest m _ (by simpa using hclear) hrun hbody hblank
    obtain ⟨s, s', l, tail, hxs, hs, hl, hbegin, htake⟩ := hover
    have hsame : (s ++ l).length = (s' ++ l).length := by
      rw [List.length_append, List.length_append, hs.length]
    have hcut : fromClient c events sent = line ++ (s ++ l) ++ tail := by
      rw [hbytes, List.append_assoc, hxs]
      simp only [List.append_assoc]
    have hend : (fromClient c events sent).length - (d.b.bytes.length - d.b.begin) = (line ++ (s ++ l)).length := by
      have hfull := hfilled.1 hclear
      have htotal := congrArg List.length hbytes
      have hle : d.b.begin ≤ d.b.bytes.length := by
        have hlen := congrArg List.length htake
        rw [List.length_take, ← hbegin] at hlen
        omega
      simp only [List.length_append] at hfull htotal hbegin hsame ⊢
      omega
    have hsent : ((fromClient c events sent).take (line ++ (s ++ l)).length).drop line.length = s ++ l := by
      rw [hcut, List.take_left, List.drop_left]
    have hheader : (fromClient c events sent).drop line.length = s ++ (l ++ tail) := by
      rw [hcut, List.append_assoc, List.drop_left, List.append_assoc]
    have hplace : c.b.begin = line.length := by rw [hb]
    rw [htake, hend, hplace, hsent, hheader, huri, hb, List.take_left, and_iff_left hclear, ← hleaves,
      ← written_eq_iff hs hl]
    constructor
    · intro heq
      have hparts := List.append_inj heq hlength
      exact ⟨hparts.2, hparts.1⟩
    · intro hboth
      rw [hboth.1, hboth.2]

/-- What is stored in a request that goes to a back end. -/
def connecting : Looked where
  upstream := some 1
  curUpstream := some (0, 0)
  curServerDomain := some 0
  upstreamTries := 0
  status := 0
  responseDone := false
  keepAlive := true

/-- A connection that has read `GET /a HTTP/1.1`. -/
def plainConn : LineConn where
  status := .headers
  r := {
    method := .get
    requestLine := ⟨some 0, 16⟩
    version := ⟨1, 1⟩
    state := .hdBegin
    uri := { state := .uriAbsPath, absPath := ⟨some 5, 1⟩ } }
  b := ⟨plainLine, 17⟩

/-- The request goes on to the blank line. -/
def plainConn.looked : HeadersConn := ⟨.waiting, plainConn.r.looked connecting, plainConn.b, []⟩

/-- A request without a header goes on as it came. -/
theorem forwarded_blank :
    ∃ d : HeadersConn, httpParseHeaders (.readable [cr, lf]) plainConn.looked = .ok d ∧
      plainLine <+: received [.readable plainLine] ∧
      (d.b.bytes.take d.b.begin = plainLine.take 17 ++ lowerNames true
          (((fromClient plainConn [] [cr, lf]).take ((fromClient plainConn [] [cr, lf]).length -
            (d.b.bytes.length - d.b.begin))).drop 17) ↔
        NoHeader ((fromClient plainConn [] [cr, lf]).drop 17) ∧
          LeavesLine (fun _ => true) plainConn.r.uri plainConn.b ∧ .proxyPass ∉ ([] : List HeaderEvent)) := by
  have hlast : httpParseHeaders (.readable [cr, lf]) plainConn.looked = _ := headersLoop_blank rfl rfl rfl
  exact ⟨_, hlast, forwarded_iff {} (fun _ => true) connecting [.readable plainLine] [] [cr, lf] []
    plainConn plainConn.looked _ rfl rfl rfl rfl hlast rfl rfl⟩

/-- `A:b` and the blank line. -/
def headerText : List UInt8 := text ['A', ':', 'b', '\r', '\n', '\r', '\n']

/-- Of `A:b` the back end gets an `a`, a NUL and a `b`. -/
theorem forwarded_headerText :
    ∃ (c : LineConn) (d : HeadersConn),
      lineRun [.readable plainLine] { r := createHttpRequest } = .ok c ∧ c.status = .headers ∧
      httpParseHeaders (.readable headerText)
        ⟨.waiting, c.r.looked connecting, (requestProcessUri (fun _ => true) c.r.uri c.b).2, []⟩ = .ok d ∧
      d.status = .body ∧ d.r.responseDone = false ∧
      d.b.bytes.take d.b.begin ≠ c.b.bytes.take c.b.begin ++ lowerNames true
        (((fromClient c [] headerText).take ((fromClient c [] headerText).length -
          (d.b.bytes.length - d.b.begin))).drop c.b.begin) := by
  have hcall : parseHeader (plainConn.r.looked connecting) (plainConn.b.recv headerText) =
      (.ok, (plainConn.r.looked connecting).headerAt .hdBegin ⟨some 17, 1⟩ ⟨some 19, 1⟩,
        ⟨plainLine ++ text ['a', ':', 'b', '\r', '\n', '\r', '\n'], 22⟩) := rfl
  have hhandle : handleHeader
      ((plainConn.r.looked connecting).headerAt .hdBegin ⟨some 17, 1⟩ ⟨some 19, 1⟩)
      ⟨plainLine ++ text ['a', ':', 'b', '\r', '\n', '\r', '\n'], 22⟩ [] =
      .ok ((plainConn.r.looked connecting).headerAt .hdBegin ⟨some 17, 1⟩ ⟨some 19, 1⟩,
        ⟨plainLine ++ ['a'.toUInt8, 0, 'b'.toUInt8, cr, lf, cr, lf], 22⟩, []) := rfl
  have hline : headersLoop (plainConn.r.looked connecting) (plainConn.b.recv headerText) [] =
      headersLoop ((plainConn.r.looked connecting).headerAt .hdBegin ⟨some 17, 1⟩ ⟨some 19, 1⟩)
        ⟨plainLine ++ ['a'.toUInt8, 0, 'b'.toUInt8, cr, lf, cr, lf], 22⟩ [] :=
    headersLoop_line rfl hcall (Option.some_ne_none _) hhandle
  have hblank : headersLoop ((plainConn.r.looked connecting).headerAt .hdBegin ⟨some 17, 1⟩ ⟨some 19, 1⟩)
      ⟨plainLine ++ ['a'.toUInt8, 0, 'b'.toUInt8, cr, lf, cr, lf], 22⟩ [] =
      .ok ⟨.body, (plainConn.r.looked connecting).headerAt .hdBegin {} {},
        ⟨plainLine ++ ['a'.toUInt8, 0, 'b'.toUInt8, cr, lf, cr, lf], 24⟩, []⟩ :=
    headersLoop_blank rfl rfl rfl
  have hread : httpParseHeaders (.readable headerText)
      ⟨.waiting, plainConn.r.looked connecting, plainConn.b, []⟩ = _ := hline.trans hblank
  exact ⟨plainConn, _, rfl, rfl, hread, rfl, rfl, by decide⟩

end PWebServer
