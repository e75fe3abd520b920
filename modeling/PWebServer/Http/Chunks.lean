import Mathlib.Data.List.Induction
import PWebServer.Http.Calls
import PWebServer.Http.ReadLine

/-!
# Http.Chunks

The two parsers fed piecemeal.  A session appends what arrives to the receive
buffer and calls `parse_request_line`, then `parse_header`, as long as they
find something to do.

* `feed_feed` — two chunks one after the other do what both at once do;
* `session_eq_whole` — so does any way of cutting the input.

What is left of the difference is `begin` after an error: a failing call does
not move it, and which call fails depends on the cut.
-/

namespace PWebServer

open Scan

/-! ## sessions -/

/-- Which parser's turn it is. -/
inductive Phase where
  /-- the request line -/
  | line
  /-- the header -/
  | headers
  /-- the blank line has been read -/
  | done
  /-- a call has failed -/
  | failed
  deriving DecidableEq, Repr

/-- The reading of a request.  The log has every result that was not `AGAIN`,
with the request as the call left it. -/
structure Session where
  phase : Phase := .line
  r : HttpRequest
  b : Buffer := {}
  log : List (Ret × HttpRequest) := []
  deriving DecidableEq, Repr

namespace Session

/-- The next call; after the last one nothing happens. -/
def call (s : Session) : Ret × HttpRequest × Buffer :=
  match s.phase with
  | .line => parseRequestLine s.r s.b
  | .headers => parseHeader s.r s.b
  | .done | .failed => (.again, s.r, s.b)

/-- What a call leads to.  A line of the header without a name is the blank
one. -/
def next (s : Session) : Ret × HttpRequest × Buffer → Session
  | (.again, r, b) => { s with r := r, b := b }
  | (.ok, r, b) =>
      match s.phase with
      | .line => ⟨.headers, { r with state := .hdBegin }, b, s.log ++ [(.ok, r)]⟩
      | _ => ⟨if r.headerName.c = none then .done else .headers, r, b, s.log ++ [(.ok, r)]⟩
  | (err, r, b) => ⟨.failed, r, b, s.log ++ [(err, r)]⟩

theorem call_eq (s : Session) (hphase : s.phase = .line ∨ s.phase = .headers) :
    ∃ body finish,
      (∀ {r before ch ch' res r'}, body r before ch = (ch', Next.stop res r') → res ≠ .again) ∧
      ∀ r b, { s with r := r, b := b }.call = parseCall body finish r b := by
  rcases hphase with hphase | hphase
  · refine ⟨lineBody, finishLine, fun h => requestLineBody_stop_ne_again (Prod.mk.inj h).2, fun r b => ?_⟩
    rw [call, hphase]
    exact parseRequestLine_eq r b
  · refine ⟨headerBody, finishHeader, fun h => ?_, fun r b => ?_⟩
    · rcases headerBody_stop h with rfl | rfl <;> decide
    · rw [call, hphase]
      exact parseHeader_eq r b

theorem call_of_over (s : Session) (hphase : ¬ (s.phase = .line ∨ s.phase = .headers)) :
    s.call = (.again, s.r, s.b) := by
  unfold call
  cases h : s.phase <;> simp [h] at hphase ⊢

theorem call_length (s : Session) {ret : Ret} {r : HttpRequest} {b : Buffer}
    (h : s.call = (ret, r, b)) : b.bytes.length = s.b.bytes.length := by
  by_cases hphase : s.phase = .line ∨ s.phase = .headers
  · obtain ⟨body, finish, -, hcall⟩ := s.call_eq hphase
    exact parseCall_length ((hcall s.r s.b).symm.trans h)
  · rw [s.call_of_over hphase] at h
    cases h
    rfl

/-- A call that returns `OK` has moved `begin` on. -/
theorem call_ok (s : Session) {r : HttpRequest} {b : Buffer} (h : s.call = (.ok, r, b)) :
    s.b.begin < b.begin ∧ b.begin ≤ s.b.bytes.length := by
  by_cases hphase : s.phase = .line ∨ s.phase = .headers
  · obtain ⟨body, finish, -, hcall⟩ := s.call_eq hphase
    exact parseCall_ok ((hcall s.r s.b).symm.trans h)
  · rw [s.call_of_over hphase] at h
    cases h

@[simp] theorem next_b (s : Session) (ret : Ret) (r : HttpRequest) (b : Buffer) :
    (s.next (ret, r, b)).b = b := by
  unfold next
  cases ret <;> cases s.phase <;> rfl

/-- The parsers called as long as they have something to do. -/
def drive (s : Session) : Session :=
  if _h : s.call.1 = .ok then drive (s.next s.call) else s.next s.call
termination_by s.b.bytes.length - s.b.begin
decreasing_by
  rcases hc : s.call with ⟨ret, r, b⟩
  obtain rfl : ret = .ok := by rwa [hc] at _h
  have hbegin := s.call_ok hc
  have hlen := s.call_length hc
  rw [next_b]
  omega

theorem drive_of_ok (s : Session) {r : HttpRequest} {b : Buffer} (h : s.call = (.ok, r, b)) :
    drive s = drive (s.next (.ok, r, b)) := by
  rw [drive, dif_pos (by rw [h]), h]

theorem drive_of_ne_ok (s : Session) {ret : Ret} {r : HttpRequest} {b : Buffer}
    (h : s.call = (ret, r, b)) (hret : ret ≠ .ok) : drive s = s.next (ret, r, b) := by
  rw [drive, dif_neg (by rwa [h]), h]

/-- One read: what arrives is appended to the buffer, the parsers go on. -/
def feed (s : Session) (chunk : List UInt8) : Session :=
  drive { s with b := s.b.recv chunk }

/-- More bytes behind those of the buffer. -/
def more (s : Session) (ys : List UInt8) : Session := { s with b := s.b.more ys }

/-- The same session, up to where `begin` stands after an error. -/
structure Agree (s t : Session) : Prop where
  phase : s.phase = t.phase
  request : s.r = t.r
  bytes : s.b.bytes = t.b.bytes
  log : s.log = t.log
  consumed : s.phase ≠ .failed → s.b.begin = t.b.begin

theorem Agree.refl (s : Session) : Agree s s := ⟨rfl, rfl, rfl, rfl, fun _ => rfl⟩

theorem Agree.trans {s t u : Session} (h : Agree s t) (h' : Agree t u) : Agree s u :=
  ⟨h.phase.trans h'.phase, h.request.trans h'.request, h.bytes.trans h'.bytes, h.log.trans h'.log,
    fun hs => (h.consumed hs).trans (h'.consumed (h.phase ▸ hs))⟩

/-- A session that goes on agrees with itself only. -/
theorem Agree.eq {s t : Session} (h : Agree s t) (hs : s.phase ≠ .failed) : s = t := by
  obtain ⟨phase, r, ⟨bytes, begin⟩, log⟩ := s
  obtain ⟨phase', r', ⟨bytes', begin'⟩, log'⟩ := t
  obtain ⟨rfl, rfl, rfl, rfl, hbegin⟩ := h
  obtain rfl := hbegin hs
  rfl

/-- After an error nothing is parsed. -/
theorem drive_failed (s : Session) (h : s.phase = .failed) : drive s = s := by
  have hcall : s.call = (.again, s.r, s.b) := s.call_of_over (by simp [h])
  rw [s.drive_of_ne_ok hcall (by decide)]
  rfl

theorem next_more (s : Session) (ret : Ret) (r : HttpRequest) (b : Buffer) (ys : List UInt8) :
    (s.more ys).next (ret, r, b.more ys) = (s.next (ret, r, b)).more ys := by
  unfold next more
  cases ret <;> cases s.phase <;> rfl

/-- A call that was left does the same with more bytes in the buffer. -/
theorem call_more (s : Session) (hb : s.b.begin ≤ s.b.bytes.length) {ret : Ret} {r : HttpRequest}
    {b : Buffer} (h : s.call = (ret, r, b)) (hret : ret ≠ .again) (ys : List UInt8) :
    (s.more ys).call = (ret, r, b.more ys) := by
  by_cases hphase : s.phase = .line ∨ s.phase = .headers
  · obtain ⟨body, finish, -, hcall⟩ := s.call_eq hphase
    exact (hcall s.r (s.b.more ys)).trans (parseCall_more hb ((hcall s.r s.b).symm.trans h) hret ys)
  · rw [s.call_of_over hphase] at h
    cases h
    exact absurd rfl hret

/-- A call that returned `AGAIN` is resumed. -/
theorem drive_resume (s : Session) (hb : s.b.begin ≤ s.b.bytes.length) {r : HttpRequest}
    {b : Buffer} (h : s.call = (.again, r, b)) (ys : List UInt8) :
    Agree (drive ((s.next (.again, r, b)).more ys)) (drive (s.more ys)) := by
  by_cases hphase : s.phase = .line ∨ s.phase = .headers
  · obtain ⟨body, finish, hbody, hcall⟩ := s.call_eq hphase
    obtain ⟨ret, q, b₁, hresumed, hwhole⟩ :=
      parseCall_resume hbody hb ((hcall s.r s.b).symm.trans h) ys
    have hresumed' : ((s.next (.again, r, b)).more ys).call = (ret, q, b₁) :=
      (hcall r (b.more ys)).trans hresumed
    rcases hwhole with ⟨hret, hwhole⟩ | ⟨hok, hagain, hwhole⟩
    · have hwhole' : (s.more ys).call = (ret, q, b₁) := (hcall s.r (s.b.more ys)).trans hwhole
      rcases hret with rfl | rfl
      · rw [drive_of_ok _ hresumed', drive_of_ok _ hwhole']
        exact Agree.refl _
      · rw [drive_of_ne_ok _ hresumed' (by decide), drive_of_ne_ok _ hwhole' (by decide)]
        exact Agree.refl _
    · have hwhole' : (s.more ys).call = (ret, q, { b₁ with begin := s.b.begin }) :=
        (hcall s.r (s.b.more ys)).trans hwhole
      rw [drive_of_ne_ok _ hresumed' hok, drive_of_ne_ok _ hwhole' hok]
      cases ret with
      | ok => exact absurd rfl hok
      | again => exact absurd rfl hagain
      | error | invalidRequest => exact ⟨rfl, rfl, rfl, rfl, fun hs => absurd rfl hs⟩
  · rw [s.call_of_over hphase] at h
    cases h
    exact Agree.refl _

/-- Parsing what is there before more arrives changes nothing. -/
theorem drive_more (s : Session) (hb : s.b.begin ≤ s.b.bytes.length) (ys : List UInt8) :
    Agree (drive ((drive s).more ys)) (drive (s.more ys)) := by
  induction s using drive.induct with
  | case1 s hok ih =>
      rcases hcall : s.call with ⟨ret, r, b⟩
      obtain rfl : ret = .ok := by rwa [hcall] at hok
      rw [hcall] at ih
      rw [s.drive_of_ok hcall, drive_of_ok _ (s.call_more hb hcall (by decide) ys), next_more]
      exact ih (by rw [next_b, s.call_length hcall]; exact (s.call_ok hcall).2)
  | case2 s hne =>
      rcases hcall : s.call with ⟨ret, r, b⟩
      have hret : ret ≠ .ok := by rwa [hcall] at hne
      rw [s.drive_of_ne_ok hcall hret]
      by_cases hagain : ret = .again
      · rw [hagain] at hcall ⊢
        exact s.drive_resume hb hcall ys
      · rw [drive_of_ne_ok _ (s.call_more hb hcall hagain ys) hret, next_more]
        refine (drive_failed _ ?_) ▸ Agree.refl _
        cases ret <;> first | rfl | contradiction

/-- A call that fails does not move `begin`. -/
theorem call_fails (s : Session) {ret : Ret} {r : HttpRequest} {b : Buffer}
    (h : s.call = (ret, r, b)) (hok : ret ≠ .ok) (hagain : ret ≠ .again) :
    b.begin = s.b.begin := by
  by_cases hphase : s.phase = .line ∨ s.phase = .headers
  · obtain ⟨body, finish, -, hcall⟩ := s.call_eq hphase
    exact parseCall_fails ((hcall s.r s.b).symm.trans h) hok hagain
  · rw [s.call_of_over hphase] at h
    cases h
    exact absurd rfl hagain

/-- Nothing is left to do: all bytes are consumed, or the session is over. -/
def Settled (s : Session) : Prop :=
  s.b.begin = s.b.bytes.length ∨ s.phase = .done ∨ s.phase = .failed

theorem drive_settled (s : Session) (hb : s.b.begin ≤ s.b.bytes.length) :
    (drive s).Settled ∧ (drive s).b.begin ≤ (drive s).b.bytes.length ∧
      (drive s).b.bytes.length = s.b.bytes.length := by
  induction s using drive.induct with
  | case1 s hok ih =>
      rcases hcall : s.call with ⟨ret, r, b⟩
      obtain rfl : ret = .ok := by rwa [hcall] at hok
      rw [hcall, next_b, s.call_length hcall] at ih
      rw [s.drive_of_ok hcall]
      exact ih (s.call_ok hcall).2
  | case2 s hne =>
      rcases hcall : s.call with ⟨ret, r, b⟩
      have hret : ret ≠ .ok := by rwa [hcall] at hne
      have hlen := s.call_length hcall
      rw [s.drive_of_ne_ok hcall hret, next_b]
      cases ret with
      | ok => exact absurd rfl hret
      | again =>
          by_cases hphase : s.phase = .line ∨ s.phase = .headers
          · obtain ⟨body, finish, hbody, hcall'⟩ := s.call_eq hphase
            have hend := parseCall_again hbody ((hcall' s.r s.b).symm.trans hcall)
            exact ⟨.inl hend, Nat.le_of_eq hend, hlen⟩
          · rw [s.call_of_over hphase] at hcall
            cases hcall
            refine ⟨.inr ?_, hb, rfl⟩
            unfold next
            cases h : s.phase <;> simp [h] at hphase ⊢
      | error | invalidRequest =>
          have hbegin := s.call_fails hcall (by decide) (by decide)
          exact ⟨.inr (.inr rfl), by omega, hlen⟩

/-! ## chunks -/

theorem recv_length_le (b : Buffer) (hb : b.begin ≤ b.bytes.length) (xs : List UInt8) :
    b.begin ≤ (b.recv xs).bytes.length := by
  rw [Buffer.recv, List.length_append]
  omega

/-- Two reads store what one read of both stores. -/
theorem recv_append (b : Buffer) (xs ys : List UInt8) :
    b.recv (xs ++ ys) = (b.recv xs).more (ys.take (bufSize - (b.recv xs).bytes.length)) := by
  unfold Buffer.recv Buffer.more
  rw [List.take_append, List.append_assoc, List.length_append, List.length_take,
    show bufSize - b.bytes.length - xs.length =
      bufSize - (b.bytes.length + min (bufSize - b.bytes.length) xs.length) by omega]

/-- A read whose first call does not return `OK` makes one call. -/
theorem feed_of_ne_ok (s : Session) (xs : List UInt8)
    (h : { s with b := s.b.recv xs }.call.1 ≠ .ok) :
    s.feed xs = { s with b := s.b.recv xs }.next { s with b := s.b.recv xs }.call :=
  drive_of_ne_ok _ rfl h

/-- After a read nothing is left to do. -/
theorem feed_settled (s : Session) (hb : s.b.begin ≤ s.b.bytes.length) (xs : List UInt8) :
    (s.feed xs).Settled ∧ (s.feed xs).b.begin ≤ (s.feed xs).b.bytes.length ∧
      (s.feed xs).b.bytes.length = (s.b.recv xs).bytes.length :=
  drive_settled { s with b := s.b.recv xs } (recv_length_le s.b hb xs)

/-- Sessions that agree go on agreeing. -/
theorem feed_agree {s t : Session} (h : Agree s t) (ys : List UInt8) :
    Agree (s.feed ys) (t.feed ys) := by
  by_cases hs : s.phase = .failed
  · unfold feed
    rw [drive_failed { s with b := s.b.recv ys } hs,
      drive_failed { t with b := t.b.recv ys } (h.phase ▸ hs)]
    refine ⟨h.phase, h.request, ?_, h.log, fun hne => absurd hs hne⟩
    simp only [Buffer.recv, h.bytes]
  · rw [h.eq hs]
    exact Agree.refl _

/-- Two chunks one after the other do what both at once do. -/
theorem feed_feed (s : Session) (hb : s.b.begin ≤ s.b.bytes.length) (xs ys : List UInt8) :
    Agree ((s.feed xs).feed ys) (s.feed (xs ++ ys)) := by
  have hmore := drive_more { s with b := s.b.recv xs } (recv_length_le s.b hb xs)
    (ys.take (bufSize - (s.b.recv xs).bytes.length))
  have hlen := (s.feed_settled hb xs).2.2
  rw [show s.feed (xs ++ ys) = drive { s with b := s.b.recv (xs ++ ys) } from rfl, recv_append]
  rw [← hlen] at hmore ⊢
  exact hmore

/-- The session of a new request. -/
def start (base : HttpRequest) : Session := { r := base.beginLine }

/-- The session once the chunks have been read one after the other. -/
def feedAll (s : Session) (chunks : List (List UInt8)) : Session := chunks.foldl feed s

theorem feedAll_settled (s : Session) (hb : s.Settled ∧ s.b.begin ≤ s.b.bytes.length)
    (chunks : List (List UInt8)) :
    (s.feedAll chunks).Settled ∧ (s.feedAll chunks).b.begin ≤ (s.feedAll chunks).b.bytes.length := by
  induction chunks generalizing s with
  | nil => exact hb
  | cons chunk chunks ih =>
      have hfeed := s.feed_settled hb.2 chunk
      exact ih (s.feed chunk) ⟨hfeed.1, hfeed.2.1⟩

/-- An empty read at the start does nothing. -/
theorem start_feed_nil (base : HttpRequest) : (start base).feed [] = start base :=
  drive_of_ne_ok (start base) rfl (by decide)

/-- Chunks are read like one. -/
theorem feedAll_agree (base : HttpRequest) (chunks : List (List UInt8)) :
    Agree ((start base).feedAll chunks) ((start base).feed chunks.flatten) := by
  induction chunks using List.reverseRecOn with
  | nil =>
      rw [List.flatten_nil, start_feed_nil]
      exact Agree.refl _
  | append_singleton chunks chunk ih =>
      rw [feedAll, List.foldl_append, List.flatten_append, List.flatten_singleton]
      exact (feed_agree ih chunk).trans (feed_feed _ (Nat.le_refl 0) _ _)

end Session

open Session

/-- **The cut does not matter**: chunks read one after the other give the
results, the slices and the bytes that all of them at once give, and the same
`begin` unless a call fails.  A call that fails leaves `begin` where it was. -/
theorem session_eq_whole (base : HttpRequest) (chunks : List (List UInt8)) :
    Agree ((start base).feedAll chunks) ((start base).feed chunks.flatten) ∧
      ((start base).feedAll chunks).Settled ∧ ((start base).feed chunks.flatten).Settled ∧
      ∀ (s : Session) (ret : Ret) (r : HttpRequest) (b : Buffer), s.call = (ret, r, b) →
        ret ≠ .ok → ret ≠ .again → b.begin = s.b.begin :=
  ⟨feedAll_agree base chunks,
    (feedAll_settled _ ⟨.inl rfl, Nat.le_refl 0⟩ chunks).1,
    (feed_settled _ (Nat.le_refl 0) _).1,
    fun s _ _ _ => s.call_fails⟩

/-- `GE ` is found wrong at its space, which leaves `begin` behind the `GE` of
an earlier chunk but at the start of a chunk of its own. -/
theorem session_begin_after_error :
    ((start {}).feedAll [text ['G', 'E'], [space]]).b.begin = 2 ∧
      ((start {}).feed (text ['G', 'E'] ++ [space])).b.begin = 0 := by
  have hhead := feed_of_ne_ok (start {}) (text ['G', 'E']) (by decide)
  refine ⟨?_, ?_⟩
  · rw [feedAll, List.foldl_cons, List.foldl_cons, List.foldl_nil, hhead, feed_of_ne_ok]
    · rfl
    · decide
  · rw [feed_of_ne_ok]
    · rfl
    · decide

end PWebServer
