import PWebServer.Http.Header

/-!
# Http.Calls

What the two parsers have in common as calls on a buffer: how `begin` moves,
that a call which was left does not depend on what lies behind, and that a call
which returned `AGAIN` is resumed by the next one (`parseCall_resume`).
-/

namespace PWebServer

open Scan

/-- What a call of either parser returns after its loop: `finish` is what it
does to the request at the end of a line. -/
def callResult (finish : HttpRequest → Nat → HttpRequest) (b : Buffer)
    (out : Outcome UInt8 HttpRequest Ret) : Ret × HttpRequest × Buffer :=
  match out.res with
  | none => (.again, out.state, ⟨out.before ++ out.after, b.bytes.length⟩)
  | some .ok =>
      (.ok, finish out.state out.before.length,
        ⟨out.before ++ out.after, out.before.length + 1⟩)
  | some err => (err, out.state, ⟨out.before ++ out.after, b.begin⟩)

/-- A call of either parser. -/
def parseCall (body : HttpRequest → List UInt8 → UInt8 → UInt8 × Next HttpRequest Ret)
    (finish : HttpRequest → Nat → HttpRequest) (r : HttpRequest) (b : Buffer) :
    Ret × HttpRequest × Buffer :=
  callResult finish b (scan body (b.bytes.take b.begin) (b.bytes.drop b.begin) r)

/-- The end of a request line at `p`. -/
def finishLine (r : HttpRequest) (p : Nat) : HttpRequest :=
  { r with
    requestLine := { r.requestLine with len := r.requestLine.upTo p }, state := .rqDone }

/-- The end of a line of the header. -/
def finishHeader (r : HttpRequest) (_ : Nat) : HttpRequest := { r with state := .hdBegin }

theorem parseRequestLine_eq (r : HttpRequest) (b : Buffer) :
    parseRequestLine r b = parseCall lineBody finishLine r b := by
  have hsame := scan_same lineBody (fun _ _ _ => rfl) (b.bytes.drop b.begin)
    (b.bytes.take b.begin) r
  rw [List.take_append_drop] at hsame
  unfold parseRequestLine parseCall lineResult callResult
  rw [hsame]
  rcases (scan lineBody (b.bytes.take b.begin) (b.bytes.drop b.begin) r).res with _ | _ | _ <;> rfl

theorem parseHeader_eq (r : HttpRequest) (b : Buffer) :
    parseHeader r b = parseCall headerBody finishHeader r b := by
  have hlen := scan_length headerBody (b.bytes.drop b.begin) (b.bytes.take b.begin) r
  rw [← List.length_append, ← List.length_append, List.take_append_drop] at hlen
  unfold parseHeader parseCall headerResult callResult
  rcases (scan headerBody (b.bytes.take b.begin) (b.bytes.drop b.begin) r).res with _ | _ | _ <;>
    first
    | rfl
    | (dsimp only; rw [hlen])

variable {body : HttpRequest → List UInt8 → UInt8 → UInt8 × Next HttpRequest Ret}
  {finish : HttpRequest → Nat → HttpRequest}

/-- A call rewrites bytes, it neither drops nor adds any. -/
theorem parseCall_length (h : parseCall body finish r b = (ret, r', b')) :
    b'.bytes.length = b.bytes.length := by
  have hlen := scan_length body (b.bytes.drop b.begin) (b.bytes.take b.begin) r
  rw [← List.length_append, ← List.length_append, List.take_append_drop] at hlen
  unfold parseCall callResult at h
  rcases hres : (scan body (b.bytes.take b.begin) (b.bytes.drop b.begin) r).res with _ | _ | _ <;>
    (rw [hres] at h; cases h; exact hlen)

/-- A call that returns `OK` has moved `begin` on, and not past the end. -/
theorem parseCall_ok (h : parseCall body finish r b = (.ok, r', b')) :
    b.begin < b'.begin ∧ b'.begin ≤ b.bytes.length := by
  have hlt := scan_stop_lt body (b.bytes.drop b.begin) (b.bytes.take b.begin) r
  rw [List.length_take, List.length_drop] at hlt
  unfold parseCall callResult at h
  rcases hres : (scan body (b.bytes.take b.begin) (b.bytes.drop b.begin) r).res with _ | res
  · rw [hres] at h
    cases h
  · have hlt := hlt (by simp [hres])
    cases res <;> rw [hres] at h <;> cases h
    dsimp only
    omega

/-- A call that returns `AGAIN` has consumed everything. -/
theorem parseCall_again
    (hbody : ∀ {s before a a' res s'}, body s before a = (a', .stop res s') → res ≠ .again)
    (h : parseCall body finish r b = (.again, r', b')) : b'.begin = b'.bytes.length := by
  rw [parseCall_length h]
  unfold parseCall callResult at h
  rcases hres : (scan body (b.bytes.take b.begin) (b.bytes.drop b.begin) r).res with _ | res
  · rw [hres] at h
    cases h
    rfl
  · have hagain := scan_res (· ≠ .again) hbody hres
    rw [hres] at h
    cases res <;> cases h
    exact absurd rfl hagain

/-- A call that fails does not move `begin`. -/
theorem parseCall_fails (h : parseCall body finish r b = (ret, r', b')) (hok : ret ≠ .ok)
    (hagain : ret ≠ .again) : b'.begin = b.begin := by
  unfold parseCall callResult at h
  rcases hres : (scan body (b.bytes.take b.begin) (b.bytes.drop b.begin) r).res with _ | res
  · rw [hres] at h
    cases h
    exact absurd rfl hagain
  · rw [hres] at h
    cases res with
    | ok =>
        cases h
        exact absurd rfl hok
    | again | error | invalidRequest =>
        cases h
        rfl

/-- More bytes behind those of the buffer. -/
def Buffer.more (b : Buffer) (ys : List UInt8) : Buffer := { b with bytes := b.bytes ++ ys }

/-- A call that was left does the same with more bytes in the buffer. -/
theorem parseCall_more (hb : b.begin ≤ b.bytes.length)
    (h : parseCall body finish r b = (ret, r', b')) (hret : ret ≠ .again) (ys : List UInt8) :
    parseCall body finish r (b.more ys) = (ret, r', b'.more ys) := by
  unfold parseCall Buffer.more at *
  rw [List.take_append_of_le_length hb, List.drop_append_of_le_length hb, scan_append]
  generalize scan body (b.bytes.take b.begin) (b.bytes.drop b.begin) r = out at h ⊢
  obtain ⟨before, after, s, _ | res⟩ := out
  · cases h
    exact absurd rfl hret
  · cases res <;> cases h <;> simp [callResult]

/-- A call that returns `AGAIN` is resumed when more bytes arrive: the result,
the request and the bytes are those of one call on all the bytes, and so is
`begin` unless the call fails. -/
theorem parseCall_resume
    (hbody : ∀ {s before a a' res s'}, body s before a = (a', .stop res s') → res ≠ .again)
    (hb : b.begin ≤ b.bytes.length) (h : parseCall body finish r b = (.again, r', b'))
    (ys : List UInt8) :
    ∃ ret s b₁, parseCall body finish r' (b'.more ys) = (ret, s, b₁) ∧
      ((ret = .ok ∨ ret = .again) ∧ parseCall body finish r (b.more ys) = (ret, s, b₁) ∨
        ret ≠ .ok ∧ ret ≠ .again ∧
          parseCall body finish r (b.more ys) = (ret, s, { b₁ with begin := b.begin })) := by
  have hnone : (scan body (b.bytes.take b.begin) (b.bytes.drop b.begin) r).res = none := by
    by_contra hres
    obtain ⟨res, hres⟩ := Option.ne_none_iff_exists'.mp hres
    have hagain := scan_res (· ≠ .again) hbody hres
    unfold parseCall callResult at h
    rw [hres] at h
    cases res with
    | again => exact hagain rfl
    | ok | error | invalidRequest => cases h
  have hafter := after_eq_nil (b.bytes.drop b.begin) (b.bytes.take b.begin) r hnone
  have hlen := scan_length body (b.bytes.drop b.begin) (b.bytes.take b.begin) r
  unfold parseCall Buffer.more at *
  rw [List.take_append_of_le_length hb, List.drop_append_of_le_length hb, scan_append]
  generalize scan body (b.bytes.take b.begin) (b.bytes.drop b.begin) r = out
    at h hnone hafter hlen ⊢
  obtain ⟨before, after, s, res⟩ := out
  obtain rfl : res = none := hnone
  obtain rfl : after = [] := hafter
  have hbegin : before.length = b.bytes.length := by
    simp only [List.length_nil, List.length_take, List.length_drop] at hlen
    omega
  cases h
  simp only [List.append_nil, Option.isNone_none, if_true, ← hbegin, List.take_left', List.drop_left']
  rcases hres : (scan body before ys s).res with _ | res
  · exact ⟨_, _, _, rfl, by simp [callResult, hres, hbegin]⟩
  · have hagain := scan_res (· ≠ .again) hbody hres
    refine ⟨_, _, _, rfl, ?_⟩
    cases res with
    | again => exact absurd rfl hagain
    | ok => simp [callResult, hres]
    | error | invalidRequest => simp [callResult, hres]

end PWebServer
