import Mathlib.Algebra.Order.Ring.Int
import Mathlib.Data.List.Range
import PWebServer.Http.Response

/-!
# Http.SendFile

`send_file` over any number of `sendfile` calls.  The length that goes in and
comes out of `sendfile` is a local variable of the loop: after `EINTR` the loop
goes on with what came out, and at the old offset.

`sendFile_iff` says exactly which outcomes this survives: after an interrupted
call that has sent something nothing may be sent any more.
-/

namespace PWebServer

/-! ## the function -/

/-- How a call of `sendfile` went; `EAGAIN` and `EINTR` come after some bytes. -/
inductive Sendfile where
  | complete
  | again (k : Nat)
  | intr (k : Nat)
  | fail
  deriving DecidableEq, Repr

/-- The file of a request while it is sent.  `sent` has the places in the file
of the bytes written to the socket. -/
structure Sending where
  resourceOff : Int := 0
  resourceLen : Int
  sent : List Nat := []
  deriving DecidableEq, Repr

/-- How many bytes of a file of that size `sendfile` is asked for; the length
`0` stands for the rest of the file. -/
def requested (size : Nat) (off want : Int) : Nat :=
  if want = 0 then size - off.toNat else min want.toNat (size - off.toNat)

/-- How many bytes the call sends. -/
def Sendfile.count (size : Nat) (off want : Int) : Sendfile → Nat
  | .complete => requested size off want
  | .again k | .intr k => min k (requested size off want)
  | .fail => 0

/-- Bytes are sent from the offset on. -/
def Sending.took (s : Sending) (n : Nat) : Sending :=
  { s with sent := s.sent ++ List.range' s.resourceOff.toNat n }

/-- The file moved on by what was sent. -/
def Sending.advance (s : Sending) (n : Int) : Sending :=
  { s with resourceOff := toInt32 (s.resourceOff + n), resourceLen := s.resourceLen - n }

@[simp] theorem Sending.took_off (s : Sending) (n : Nat) : (s.took n).resourceOff = s.resourceOff := rfl

@[simp] theorem Sending.took_len (s : Sending) (n : Nat) : (s.took n).resourceLen = s.resourceLen := rfl

@[simp] theorem Sending.took_sent (s : Sending) (n : Nat) :
    (s.took n).sent = s.sent ++ List.range' s.resourceOff.toNat n := rfl

@[simp] theorem Sending.advance_sent (s : Sending) (n : Int) : (s.advance n).sent = s.sent := rfl

/-- The body of the loop of `send_file`, with `want` in `should_send_len`: it
goes on with another length, or returns. -/
def sendFileBody (size : Nat) (s : Sending) (want : Int) (o : Sendfile) :
    Except Fault (Int × Sending ⊕ Ret × Sending) :=
  let n := o.count size s.resourceOff want
  let s := s.took n
  match o with
  | .again _ => .ok (.inr (.again, s.advance n))
  | .intr _ => .ok (.inl (n, s))
  | .fail => .ok (.inr (.error, s))
  | .complete =>
      let s := s.advance n
      if s.resourceLen ≠ 0 then .error .abort else .ok (.inr (.ok, s))

/-- `send_file`; `none` as long as it has not returned. -/
def sendFile (size : Nat) (s : Sending) (want : Int) :
    List Sendfile → Except Fault (Option Ret × Sending × List Sendfile)
  | [] => .ok (none, s, [])
  | o :: os => do
      match ← sendFileBody size s want o with
      | .inl (want, s) => sendFile size s want os
      | .inr (ret, s) => pure (some ret, s, os)

/-- `send_file` called again after each `AGAIN`, as `handle_response_file` does
it, the first call begun with `want` in `should_send_len`.  The log has what
each call returned, and how many bytes had been sent then. -/
def sendFileRun (size : Nat) (s : Sending) (want : Int) :
    List Sendfile → Except Fault (Sending × List (Ret × Nat))
  | [] => .ok (s, [])
  | o :: os => do
      match ← sendFileBody size s want o with
      | .inl (want, s) => sendFileRun size s want os
      | .inr (.again, s) =>
          (sendFileRun size s s.resourceLen os).map fun (s', log) =>
            (s', (.again, s.sent.length) :: log)
      | .inr (ret, s) => pure (s, [(ret, s.sent.length)])

/-! ## the law -/

/-- What a run should be: the bytes of the file go out in order, none twice and
none left out, `OK` is returned exactly when all have been sent, and `ABORT_ON`
never fires. -/
def SendsFile (size : Nat) (run : Except Fault (Sending × List (Ret × Nat))) : Prop :=
  ∃ s log, run = .ok (s, log) ∧ s.sent = List.range s.sent.length ∧
    ∀ e ∈ log, e.1 = .ok ↔ e.2 = size

/-- The outcomes `sendfile` may have: no call sends more than it was asked for
and the file has, and none fails for another reason. -/
def Possible (size : Nat) (s : Sending) (want : Int) : List Sendfile → Prop
  | [] => True
  | o :: os =>
      (match o with
        | .complete => True
        | .again k | .intr k => k ≤ requested size s.resourceOff want
        | .fail => False) ∧
      match sendFileBody size s want o with
      | .ok (.inl (want, s)) => Possible size s want os
      | .ok (.inr (.again, s)) => Possible size s s.resourceLen os
      | _ => os = []

/-- The outcomes the function survives, `total` bytes of the file having been
sent: once a call has been interrupted with bytes sent (`stuck`), no call sends
anything, and `EAGAIN` does not come when everything has been sent. -/
def Orderly (size total : Nat) (stuck : Bool) : List Sendfile → Prop
  | [] => True
  | .complete :: _ => stuck = false
  | .again k :: os =>
      (stuck = true → k = 0) ∧ total + k ≠ size ∧ Orderly size (total + k) stuck os
  | .intr k :: os => (stuck = true → k = 0) ∧ Orderly size (total + k) (stuck || 0 < k) os
  | .fail :: _ => True

instance (size total : Nat) (stuck : Bool) (os : List Sendfile) :
    Decidable (Orderly size total stuck os) := by
  induction os generalizing total stuck with
  | nil => exact instDecidableTrue
  | cons o os ih =>
      cases o with
      | complete => exact inferInstanceAs (Decidable (stuck = false))
      | again k => exact inferInstanceAs (Decidable (_ ∧ _ ∧ _))
      | intr k => exact inferInstanceAs (Decidable (_ ∧ _))
      | fail => exact instDecidableTrue

/-- Where `send_file` stands after `total` bytes of the file.  When it is stuck,
fewer are accounted for. -/
structure At (size total : Nat) (stuck : Bool) (s : Sending) (want : Int) : Prop where
  sent : s.sent = List.range total
  le : total ≤ size
  fits : size < 2 ^ 31
  off_nonneg : 0 ≤ s.resourceOff
  len : s.resourceLen = size - s.resourceOff
  moving : stuck = false → s.resourceOff = total ∧ (want = 0 ∨ want = s.resourceLen)
  halted : stuck = true → s.resourceOff < total ∧ 0 ≤ want

/-! ## lemmas -/

theorem toInt32_eq {n : Int} (h : 0 ≤ n) (hlt : n < 2 ^ 31) : toInt32 n = n := by
  rw [toInt32, BitVec.toInt_ofInt]
  exact Int.bmod_eq_of_le (by omega) (by omega)

/-- What has been sent stays sent. -/
theorem sendFileRun_sent {size : Nat} {os : List Sendfile} {s s' : Sending} {want : Int}
    {log : List (Ret × Nat)} (h : sendFileRun size s want os = .ok (s', log)) :
    s.sent <+: s'.sent := by
  induction os generalizing s s' want log with
  | nil =>
      simp only [sendFileRun, Except.ok.injEq, Prod.mk.injEq] at h
      exact h.1 ▸ List.prefix_rfl
  | cons o os ih =>
      cases o with
      | complete =>
          simp only [sendFileRun, sendFileBody] at h
          split at h
          · contradiction
          · simp only [bind, Except.bind, pure, Except.pure, Except.ok.injEq, Prod.mk.injEq] at h
            rw [← h.1]
            exact List.prefix_append _ _
      | again k =>
          simp only [sendFileRun, sendFileBody, bind, Except.bind] at h
          generalize hrun : sendFileRun size _ _ os = run at h
          cases run with
          | error f => contradiction
          | ok out =>
              simp only [Except.map, Except.ok.injEq, Prod.mk.injEq] at h
              have hrest := ih hrun
              rw [← h.1]
              exact (List.prefix_append _ _).trans hrest
      | intr k => exact (List.prefix_append _ _).trans (ih h)
      | fail =>
          simp only [sendFileRun, sendFileBody, bind, Except.bind, pure, Except.pure,
            Except.ok.injEq, Prod.mk.injEq] at h
          rw [← h.1]
          exact List.prefix_append _ _

/-- A list that begins another one counts up if that one does. -/
theorem eq_range_of_isPrefix {xs : List Nat} {n : Nat} (h : xs <+: List.range n) :
    xs = List.range xs.length := by
  have htake := List.prefix_iff_eq_take.mp h
  have hle : xs.length ≤ n := by simpa using h.length_le
  rw [List.take_range, Nat.min_eq_left hle] at htake
  exact htake

/-- Bytes sent for a second time are not the next ones. -/
theorem range_append_ne {total off n : Nat} (hoff : off < total) (hn : 0 < n) :
    List.range total ++ List.range' off n ≠
      List.range (List.range total ++ List.range' off n).length := by
  intro h
  have hget := congrArg (fun xs => xs[total]?) h
  simp [hn] at hget
  omega

theorem range_append {total n : Nat} :
    List.range total ++ List.range' total n = List.range (total + n) := by
  rw [List.range_eq_range', List.range_eq_range', ← List.range'_append_1, Nat.zero_add]

/-- Whether a call of `send_file` loses count of what it has sent: `sendfile` is
interrupted after some bytes, or the offset does not fit an `int`. -/
def losesCount (size : Nat) (s : Sending) (want : Int) : List Sendfile → Bool
  | [] => false
  | o :: os =>
      let n := o.count size s.resourceOff want
      match o with
      | .intr _ => decide (0 < n) || losesCount size (s.took n) n os
      | .fail => false
      | _ => decide (toInt32 (s.resourceOff + n) ≠ s.resourceOff + n)

/-- The offset is behind what has been sent, which is the beginning of the
file. -/
structure Sending.InStep (s : Sending) : Prop where
  off : 0 ≤ s.resourceOff
  sent : s.sent = List.range s.resourceOff.toNat

theorem Sending.InStep.advance {s : Sending} {n : Nat} (h : s.InStep)
    (hfits : toInt32 (s.resourceOff + n) = s.resourceOff + n) : ((s.took n).advance n).InStep where
  off := by
    change 0 ≤ toInt32 (s.resourceOff + n)
    rw [hfits]
    exact Int.add_nonneg h.off (Int.natCast_nonneg n)
  sent := by
    change s.sent ++ List.range' s.resourceOff.toNat n = List.range (toInt32 (s.resourceOff + n)).toNat
    rw [hfits, h.sent, Int.toNat_add h.off (Int.natCast_nonneg n), Int.toNat_natCast, range_append]

/-- A call that does not lose count goes on with the file where the last one has
stopped. -/
theorem sendFile_inStep {size : Nat} {os os' : List Sendfile} {s s' : Sending} {want : Int} {ret : Option Ret}
    (h : sendFile size s want os = .ok (ret, s', os')) (hs : s.InStep)
    (hcount : losesCount size s want os = false) : s'.InStep ∧ s.sent <+: s'.sent := by
  induction os generalizing s want with
  | nil =>
      cases h
      exact ⟨hs, List.prefix_rfl⟩
  | cons o os ih =>
      unfold losesCount at hcount
      have hgrown : s.sent <+: (s.took (o.count size s.resourceOff want)).sent := List.prefix_append _ _
      have hnothing : (s.took 0) = s := by
        unfold Sending.took
        rw [List.range'_zero, List.append_nil]
      cases o with
      | again k =>
          cases h
          exact ⟨hs.advance (by simpa using hcount), hgrown⟩
      | intr k =>
          dsimp only at hcount
          rw [Bool.or_eq_false_iff, decide_eq_false_iff_not, Nat.pos_iff_ne_zero, not_not] at hcount
          obtain ⟨hzero, hrest⟩ := hcount
          rw [hzero] at hrest hgrown
          have hnext : sendFile size (s.took 0) ((0 : Nat) : Int) os = .ok (ret, s', os') := by
            rw [← hzero]
            exact h
          rw [hnothing] at hnext hrest
          exact ih hnext hs hrest
      | fail =>
          cases h
          have hsame : s.took (Sendfile.fail.count size s.resourceOff want) = s := hnothing
          rw [hsame]
          exact ⟨hs, List.prefix_rfl⟩
      | complete =>
          have hstep := hs.advance (n := Sendfile.complete.count size s.resourceOff want) (by simpa using hcount)
          unfold sendFile sendFileBody at h
          dsimp only at h
          split at h
          · contradiction
          · cases h
            exact ⟨hstep, hgrown⟩

/-- A run that sends bytes for a second time is wrong. -/
theorem not_sendsFile {size total n : Nat} {os : List Sendfile} {s : Sending} {want : Int} {off : Nat}
    (hsent : s.sent = List.range total ++ List.range' off n) (hoff : off < total) (hn : 0 < n) :
    ¬ SendsFile size (sendFileRun size s want os) := by
  intro h
  obtain ⟨s', log, hrun, hrange, -⟩ := h
  have hpre := sendFileRun_sent hrun
  rw [hrange, hsent] at hpre
  exact range_append_ne hoff hn (eq_range_of_isPrefix hpre)

theorem sendsFile_again {size n : Nat} {run : Except Fault (Sending × List (Ret × Nat))} :
    SendsFile size (run.map fun (s', log) => (s', (.again, n) :: log)) ↔
      n ≠ size ∧ SendsFile size run := by
  constructor
  · intro h
    obtain ⟨s, log, hrun, hrange, hlog⟩ := h
    cases run with
    | error f => contradiction
    | ok out =>
        simp only [Except.map, Except.ok.injEq, Prod.mk.injEq] at hrun
        obtain ⟨hs, hcons⟩ := hrun
        subst hs hcons
        have hhead := hlog (.again, n) List.mem_cons_self
        exact ⟨by simpa using hhead, out.1, out.2, rfl, hrange,
          fun e he => hlog e (List.mem_cons_of_mem _ he)⟩
  · intro h
    obtain ⟨hne, s, log, hrun, hrange, hlog⟩ := h
    refine ⟨s, (.again, n) :: log, by rw [hrun]; rfl, hrange, fun e he => ?_⟩
    cases List.mem_cons.mp he with
    | inl heq => simpa [heq] using hne
    | inr hmem => exact hlog e hmem

/-! ## one outcome -/

theorem At.requested_eq {size total : Nat} {s : Sending} {want : Int}
    (h : At size total false s want) : requested size s.resourceOff want = size - total := by
  obtain ⟨hoff, hwant⟩ := h.moving rfl
  have hle := h.le
  have hlen := h.len
  unfold requested
  rw [hoff]
  cases hwant with
  | inl hzero => simp [hzero]
  | inr heq =>
      by_cases hz : want = 0
      · simp [hz]
      · rw [if_neg hz]
        omega

/-- A call that is stuck asks for something. -/
theorem At.requested_pos {size total : Nat} {s : Sending} {want : Int}
    (h : At size total true s want) : 0 < requested size s.resourceOff want := by
  obtain ⟨hoff, hwant⟩ := h.halted rfl
  have hle := h.le
  have hnonneg := h.off_nonneg
  unfold requested
  by_cases hz : want = 0
  · rw [if_pos hz]
    omega
  · rw [if_neg hz]
    omega

/-- Nothing is sent. -/
theorem At.again_zero {size total : Nat} {stuck : Bool} {s : Sending} {want : Int}
    (h : At size total stuck s want) : At size total stuck s s.resourceLen where
  sent := h.sent
  le := h.le
  fits := h.fits
  off_nonneg := h.off_nonneg
  len := h.len
  moving := fun hstuck => ⟨(h.moving hstuck).1, .inr rfl⟩
  halted := fun hstuck => ⟨(h.halted hstuck).1, by have := h.halted hstuck; have := h.len; have := h.le; omega⟩

theorem At.advance {size total k : Nat} {s : Sending} {want : Int}
    (h : At size total false s want) (hk : k ≤ size - total) :
    (s.took k).advance k =
      ⟨(total + k : Nat), size - (total + k : Nat), List.range (total + k)⟩ := by
  obtain ⟨hoff, -⟩ := h.moving rfl
  have hle := h.le
  have hlen := h.len
  have hfits := h.fits
  rw [Sending.advance, Sending.took, h.sent, hoff, Int.toNat_natCast, range_append, toInt32_eq (by omega) (by omega)]
  simp only [Sending.mk.injEq, and_true]
  omega

/-- A call that sends nothing leaves the file where it was. -/
theorem At.advance_zero {size total : Nat} {stuck : Bool} {s : Sending} {want : Int}
    (h : At size total stuck s want) :
    (s.took 0).advance (0 : Nat) = s := by
  have hoff := h.off_nonneg
  have hle := h.le
  have hfits := h.fits
  have hlt : s.resourceOff ≤ total := by
    cases hstuck : stuck with
    | false => exact Int.le_of_eq (h.moving hstuck).1
    | true => exact Int.le_of_lt (h.halted hstuck).1
  rw [Sending.advance, Sending.took, List.range'_zero, List.append_nil, Int.natCast_zero, Int.add_zero,
    toInt32_eq hoff (by omega), Int.sub_zero]

/-- After bytes have been sent in order. -/
theorem At.moved {size total k : Nat} {s : Sending} {want : Int} (h : At size total false s want)
    (hk : k ≤ size - total) :
    At size (total + k) false ⟨(total + k : Nat), size - (total + k : Nat), List.range (total + k)⟩
      (size - (total + k : Nat)) where
  sent := rfl
  le := by have := h.le; omega
  fits := h.fits
  off_nonneg := Int.natCast_nonneg _
  len := rfl
  moving := fun _ => ⟨rfl, .inr rfl⟩
  halted := by simp

/-- After a call was interrupted with bytes sent. -/
theorem At.interrupted {size total k : Nat} {s : Sending} {want : Int}
    (h : At size total false s want) (hk : k ≤ size - total) (hpos : 0 < k) :
    At size (total + k) true (s.took k) k where
  sent := by
    obtain ⟨hoff, -⟩ := h.moving rfl
    rw [Sending.took, h.sent, hoff, Int.toNat_natCast, range_append]
  le := by have := h.le; omega
  fits := h.fits
  off_nonneg := h.off_nonneg
  len := h.len
  moving := by simp
  halted := fun _ => by
    have hoff := (h.moving rfl).1
    rw [Sending.took_off]
    omega

/-- After a call was interrupted with nothing sent. -/
theorem At.untouched {size total : Nat} {stuck : Bool} {s : Sending} {want : Int}
    (h : At size total stuck s want) :
    At size total stuck (s.took 0) (0 : Nat) where
  sent := by rw [Sending.took, List.range'_zero, List.append_nil, h.sent]
  le := h.le
  fits := h.fits
  off_nonneg := h.off_nonneg
  len := h.len
  moving := fun hstuck => ⟨(h.moving hstuck).1, .inl rfl⟩
  halted := fun hstuck => ⟨(h.halted hstuck).1, Int.le_refl _⟩

/-- What a stuck call sends has been sent before. -/
theorem At.repeats {size total k : Nat} {s : Sending} {want : Int} (h : At size total true s want)
    (hpos : 0 < k) {next : Int} {s' : Sending} {os : List Sendfile}
    (hsent : s'.sent = s.sent ++ List.range' s.resourceOff.toNat k) :
    ¬ SendsFile size (sendFileRun size s' next os) := by
  have hoff := (h.halted rfl).1
  rw [h.sent] at hsent
  exact not_sendsFile hsent (by have := h.off_nonneg; omega) hpos

/-! ## runs -/

theorem sendFileRun_again {size k : Nat} {s : Sending} {want : Int} {os : List Sendfile}
    (hk : k ≤ requested size s.resourceOff want) :
    sendFileRun size s want (.again k :: os) =
      (sendFileRun size ((s.took k).advance k) ((s.took k).advance k).resourceLen os).map
        fun (s', log) => (s', (.again, ((s.took k).advance k).sent.length) :: log) := by
  rw [sendFileRun, sendFileBody, Sendfile.count, Nat.min_eq_left hk]
  rfl

theorem sendFileRun_intr {size k : Nat} {s : Sending} {want : Int} {os : List Sendfile}
    (hk : k ≤ requested size s.resourceOff want) :
    sendFileRun size s want (.intr k :: os) = sendFileRun size (s.took k) k os := by
  rw [sendFileRun, sendFileBody, Sendfile.count, Nat.min_eq_left hk]
  rfl

/-- A call that completes. -/
theorem sendFileRun_complete {size total : Nat} {stuck : Bool} {s : Sending} {want : Int}
    {os : List Sendfile} (h : At size total stuck s want) :
    SendsFile size (sendFileRun size s want (.complete :: os)) ↔ stuck = false := by
  have hle := h.le
  cases stuck with
  | false =>
      have hrun : sendFileRun size s want (.complete :: os) =
          .ok (⟨size, 0, List.range size⟩, [(.ok, size)]) := by
        rw [sendFileRun, sendFileBody, Sendfile.count, h.requested_eq, h.advance (Nat.le_refl _),
          Nat.add_sub_cancel' hle, Int.sub_self]
        simp [bind, Except.bind, pure, Except.pure]
      rw [hrun]
      exact iff_of_true ⟨_, _, rfl, by simp, by simp⟩ rfl
  | true =>
      have hpos := h.requested_pos
      have hoff := (h.halted rfl).1
      have hnonneg := h.off_nonneg
      have hbad : ¬ SendsFile size (sendFileRun size s want (.complete :: os)) := by
        intro hsends
        obtain ⟨s', log, hrun, hrange, -⟩ := hsends
        rw [sendFileRun, sendFileBody, Sendfile.count] at hrun
        split at hrun
        · contradiction
        · simp only [bind, Except.bind, pure, Except.pure, Except.ok.injEq, Prod.mk.injEq] at hrun
          rw [← hrun.1, Sending.advance_sent, Sending.took_sent, h.sent] at hrange
          exact range_append_ne (by omega) hpos hrange
      exact iff_of_false hbad Bool.noConfusion

/-- **The run from anywhere.** -/
theorem sendFileRun_iff {size : Nat} (os : List Sendfile) {total : Nat} {stuck : Bool} {s : Sending}
    {want : Int} (h : At size total stuck s want) (hp : Possible size s want os) :
    SendsFile size (sendFileRun size s want os) ↔ Orderly size total stuck os := by
  induction os generalizing total stuck s want with
  | nil =>
      simp only [Orderly, iff_true]
      exact ⟨s, [], rfl, by rw [h.sent, List.length_range], by simp⟩
  | cons o os ih =>
      cases o with
      | complete => exact sendFileRun_complete h
      | again k =>
          obtain ⟨hk, hp⟩ := hp
          simp only [sendFileBody, Sendfile.count, Nat.min_eq_left hk] at hp
          rw [sendFileRun_again hk, Orderly, sendsFile_again]
          cases stuck with
          | false =>
              rw [h.requested_eq] at hk
              rw [h.advance hk] at hp ⊢
              rw [ih (h.moved hk) hp]
              simp
          | true =>
              by_cases hz : k = 0
              · subst hz
                rw [h.advance_zero] at hp ⊢
                rw [ih h.again_zero hp, h.sent]
                simp
              · have hsent : ((s.took k).advance k).sent =
                    s.sent ++ List.range' s.resourceOff.toNat k := rfl
                have hbad : ¬ SendsFile size (sendFileRun size ((s.took k).advance k)
                    ((s.took k).advance k).resourceLen os) :=
                  h.repeats (Nat.pos_of_ne_zero hz) hsent
                exact iff_of_false (fun hsends => hbad hsends.2) (fun hord => hz (hord.1 rfl))
      | intr k =>
          obtain ⟨hk, hp⟩ := hp
          simp only [sendFileBody, Sendfile.count, Nat.min_eq_left hk] at hp
          rw [sendFileRun_intr hk, Orderly]
          by_cases hz : k = 0
          · subst hz
            rw [ih h.untouched hp]
            simp
          · have hpos := Nat.pos_of_ne_zero hz
            cases stuck with
            | false =>
                rw [h.requested_eq] at hk
                rw [ih (h.interrupted hk hpos) hp]
                simp [hpos]
            | true =>
                exact iff_of_false (h.repeats hpos (s.took_sent k)) (fun hord => hz (hord.1 rfl))
      | fail => exact absurd hp.1 id

/-- **A file in pieces**: `send_file`, called again after each `AGAIN`, sends the
bytes of the file in order, returns `OK` exactly when all are sent and never
aborts, if and only if no `sendfile` call sends anything after one that was
interrupted with bytes sent, and none returns `EAGAIN` with everything sent. -/
theorem sendFile_iff (size : Nat) (hsize : size < 2 ^ 31) (os : List Sendfile)
    (hp : Possible size { resourceLen := size } size os) :
    SendsFile size (sendFileRun size { resourceLen := size } size os) ↔ Orderly size 0 false os := by
  have hat : At size 0 false { resourceLen := size } size :=
    { sent := rfl
      le := Nat.zero_le _
      fits := hsize
      off_nonneg := Int.le_refl _
      len := (Int.sub_zero _).symm
      moving := fun _ => ⟨rfl, .inr rfl⟩
      halted := by simp }
  exact sendFileRun_iff os hat hp

/-- A file of five bytes in two pieces. -/
theorem sendFile_twoPieces :
    SendsFile 5 (sendFileRun 5 { resourceLen := 5 } 5 [.intr 0, .again 2, .complete]) :=
  (sendFile_iff 5 (by decide) [.intr 0, .again 2, .complete]
    ⟨by decide, by decide, trivial, rfl⟩).mpr (by decide)

/-- An `EINTR` after two of five bytes: the two bytes are sent again, and the
call aborts. -/
theorem sendFile_interrupted :
    Possible 5 { resourceLen := 5 } 5 [.intr 2, .complete] ∧
      ¬ SendsFile 5 (sendFileRun 5 { resourceLen := 5 } 5 [.intr 2, .complete]) := by
  constructor
  · exact ⟨by decide, trivial, rfl⟩
  · intro h
    obtain ⟨s, log, hrun, -⟩ := h
    have hfault : sendFileRun 5 { resourceLen := 5 } 5 [.intr 2, .complete] = .error .abort := rfl
    rw [hfault] at hrun
    contradiction

end PWebServer
