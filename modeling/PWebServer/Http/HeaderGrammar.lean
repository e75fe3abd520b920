import PWebServer.Http.Header
import PWebServer.Http.LineGrammar

/-!
# Http.HeaderGrammar

The texts `parse_header` reads in one call, from the first byte of a line on.
`HeaderPrefix` has one constructor for each state of the machine, with the text
as it came, as it stands in the buffer afterwards, and the request by then.

* `headerReach_iff` — it is what a run over the line reaches;
* `headerScan_cases`, `HeaderPrefix.stop` — a call returns `AGAIN` inside a line, `OK` behind a
  named line or a blank one, and `ERROR` behind the rest, of which
  `NamelessError` is the part that leaves no name behind.
-/

namespace PWebServer

open Scan

/-! ## lines that are not over -/

/-- What the parser changes in the request. -/
def HttpRequest.headerAt (q : HttpRequest) (state : ReqState) (name value : Str) : HttpRequest :=
  { q with headerName := name, headerValue := value, state := state }

@[simp] theorem HttpRequest.headerAt_headerAt (q : HttpRequest) (state state' : ReqState)
    (name value name' value' : Str) :
    (q.headerAt state name value).headerAt state' name' value' = q.headerAt state' name' value' :=
  rfl

/-- The name of a header as the client may write it. -/
def HeaderName (n : List UInt8) : Prop := n ≠ [] ∧ ∀ c ∈ n, headerNameAllow c = true

/-- The first `i` bytes of a line with the name `n` behind `k` spaces. -/
inductive HeaderPrefix (q : HttpRequest) (o : Nat) :
    List UInt8 → List UInt8 → HttpRequest → Prop where
  /-- nothing has been read of the line -/
  | start : HeaderPrefix q o [] [] q
  | blanks (k : Nat) :
      HeaderPrefix q o (spaces (k + 1)) (spaces (k + 1)) (q.headerAt .hdBegin {} {})
  | blankCr (k : Nat) :
      HeaderPrefix q o (spaces k ++ [cr]) (spaces k ++ [cr]) (q.headerAt .hdAlmostDone {} {})
  | name (k : Nat) (hn : HeaderName n) :
      HeaderPrefix q o (spaces k ++ n) (spaces k ++ n.map lowerCase)
        (q.headerAt .hdName ⟨some (o + k), 0⟩ {})
  | nameCr (k : Nat) (hn : HeaderName n) :
      HeaderPrefix q o (spaces k ++ n ++ [cr]) (spaces k ++ n.map lowerCase ++ [cr])
        (q.headerAt .hdAlmostDone ⟨some (o + k), 0⟩ {})
  | nameSpace (k : Nat) (hn : HeaderName n) :
      HeaderPrefix q o (spaces k ++ n ++ [space]) (spaces k ++ n.map lowerCase ++ [space])
        (q.headerAt .error ⟨some (o + k), 0⟩ {})
  | colon (k : Nat) (hn : HeaderName n) :
      HeaderPrefix q o (spaces k ++ n ++ [colon]) (spaces k ++ n.map lowerCase ++ [colon])
        (q.headerAt .hdColon ⟨some (o + k), n.length⟩ {})
  | beforeValue (k : Nat) (hn : HeaderName n) (j : Nat) :
      HeaderPrefix q o (spaces k ++ n ++ [colon] ++ spaces (j + 1))
        (spaces k ++ n.map lowerCase ++ [colon] ++ spaces (j + 1))
        (q.headerAt .hdBeforeValue ⟨some (o + k), n.length⟩ {})
  | value (k : Nat) (hn : HeaderName n) (j : Nat) (hv : v ≠ space)
      (ht : ∀ c ∈ t, c ≠ cr ∧ c ≠ lf) :
      HeaderPrefix q o (spaces k ++ n ++ [colon] ++ spaces j ++ v :: t)
        (spaces k ++ n.map lowerCase ++ [colon] ++ spaces j ++ v :: t)
        (q.headerAt .hdValue ⟨some (o + k), n.length⟩ ⟨some (o + k + n.length + 1 + j), 0⟩)
  | valueCr (k : Nat) (hn : HeaderName n) (j : Nat) (hv : v ≠ space)
      (ht : ∀ c ∈ t, c ≠ cr ∧ c ≠ lf) :
      HeaderPrefix q o (spaces k ++ n ++ [colon] ++ spaces j ++ v :: t ++ [cr])
        (spaces k ++ n.map lowerCase ++ [colon] ++ spaces j ++ v :: t ++ [cr])
        (q.headerAt .hdAlmostDone ⟨some (o + k), n.length⟩
          ⟨some (o + k + n.length + 1 + j), t.length + 1⟩)

/-- The rewriting keeps the length. -/
theorem HeaderPrefix.length (h : HeaderPrefix q o w w' r) : w'.length = w.length := by
  cases h <;> simp

/-! ## one byte -/

section Body

variable (q : HttpRequest) (name value : Str) (before : List UInt8) (c : UInt8)

/-- The first byte of a line resets the two slices. -/
theorem headerBody_begin (hq : q.state = .hdBegin) :
    headerBody q before c =
      if headerNameAllow c then
        (lowerCase c, .go (q.headerAt .hdName ⟨some before.length, 0⟩ {}))
      else if c = cr then (c, .go (q.headerAt .hdAlmostDone {} {}))
      else if c = lf then (c, .stop .ok (q.headerAt .hdBegin {} {}))
      else if c = space then (c, .go (q.headerAt .hdBegin {} {}))
      else (c, .stop .error (q.headerAt .hdBegin {} {})) := by
  simp only [headerBody, hq, HttpRequest.headerAt]

theorem headerBody_name :
    headerBody (q.headerAt .hdName name value) before c =
      if headerNameAllow c then (lowerCase c, .go (q.headerAt .hdName name value))
      else if c = colon then
        (c, .go (q.headerAt .hdColon { name with len := name.upTo before.length } value))
      else if c = cr then (c, .go (q.headerAt .hdAlmostDone name value))
      else if c = space then (c, .go (q.headerAt .error name value))
      else (c, .stop .error (q.headerAt .hdName name value)) := rfl

theorem headerBody_beforeValue (hstate : state = .hdColon ∨ state = .hdBeforeValue) :
    headerBody (q.headerAt state name value) before c =
      if c = space then (c, .go (q.headerAt .hdBeforeValue name value))
      else (c, .go (q.headerAt .hdValue name { value with c := some before.length })) := by
  rcases hstate with rfl | rfl <;> rfl

theorem headerBody_value :
    headerBody (q.headerAt .hdValue name value) before c =
      if c = cr then
        (c, .go (q.headerAt .hdAlmostDone name { value with len := value.upTo before.length }))
      else if c = lf then
        (c, .stop .ok (q.headerAt .hdValue name { value with len := value.upTo before.length }))
      else (c, .go (q.headerAt .hdValue name value)) := rfl

theorem headerBody_almostDone :
    headerBody (q.headerAt .hdAlmostDone name value) before c =
      if c = lf then (c, .stop .ok (q.headerAt .hdAlmostDone name value))
      else (c, .stop .error (q.headerAt .hdAlmostDone name value)) := rfl

theorem headerBody_error :
    headerBody (q.headerAt .error name value) before c =
      (c, .stop .error (q.headerAt .error name value)) := rfl

end Body

theorem HeaderName.snoc (hn : HeaderName n) (hc : headerNameAllow c = true) :
    HeaderName (n ++ [c]) := by
  refine ⟨by simp, fun d hd => ?_⟩
  rcases List.mem_append.mp hd with hd | hd
  · exact hn.2 d hd
  · exact List.mem_singleton.mp hd ▸ hc

theorem HeaderName.singleton (hc : headerNameAllow c = true) : HeaderName [c] :=
  ⟨by simp, fun d hd => List.mem_singleton.mp hd ▸ hc⟩

/-- The length of a name whose colon stands at the end of the text read. -/
theorem nameLength (pre w' : List UInt8) (k : Nat) (hw : w'.length = k + m) :
    Str.upTo ⟨some (pre.length + k), i⟩ (pre ++ w').length = m := by
  simp only [Str.upTo, List.length_append, Option.getD_some]
  omega

/-- One more byte. -/
theorem HeaderPrefix.step (hq : q.state = .hdBegin) (h : HeaderPrefix q pre.length w w' r)
    (hb : headerBody r (pre ++ w') c = (c', .go r')) :
    HeaderPrefix q pre.length (w ++ [c]) (w' ++ [c']) r' := by
  cases h with
  | start =>
      rw [headerBody_begin _ _ _ hq] at hb
      split_ifs at hb with hallow hcr hlf hspace
      · cases hb
        simpa using HeaderPrefix.name (q := q) (o := pre.length) 0 (.singleton hallow)
      · cases hb
        subst hcr
        exact .blankCr 0
      · cases hb
      · cases hb
        subst hspace
        exact .blanks 0
      · cases hb
  | blanks k =>
      rw [headerBody_begin _ _ _ rfl] at hb
      split_ifs at hb with hallow hcr hlf hspace
      · cases hb
        simpa using HeaderPrefix.name (q := q) (o := pre.length) (k + 1) (.singleton hallow)
      · cases hb
        subst hcr
        exact .blankCr (k + 1)
      · cases hb
      · cases hb
        subst hspace
        rw [spaces_snoc]
        exact .blanks (k + 1)
      · cases hb
  | blankCr k | nameCr k hn | valueCr k hn j hv ht =>
      rw [headerBody_almostDone] at hb
      split_ifs at hb <;> cases hb
  | @name n k hn =>
      rw [headerBody_name] at hb
      split_ifs at hb with hallow hcolon hcr hspace
      · cases hb
        simpa using HeaderPrefix.name (q := q) (o := pre.length) k (hn.snoc hallow)
      · cases hb
        subst hcolon
        rw [nameLength (m := n.length) pre _ k (by simp)]
        exact .colon k hn
      · cases hb
        subst hcr
        exact .nameCr k hn
      · cases hb
        subst hspace
        exact .nameSpace k hn
      · cases hb
  | nameSpace k hn => cases hb
  | @colon n k hn =>
      rw [headerBody_beforeValue _ _ _ _ _ (.inl rfl)] at hb
      split_ifs at hb with hspace
      · cases hb
        subst hspace
        exact .beforeValue k hn 0
      · cases hb
        have hvalue := HeaderPrefix.value (q := q) (o := pre.length) k hn 0 hspace (t := []) (by simp)
        simpa [Nat.add_assoc] using hvalue
  | beforeValue k hn j =>
      rw [headerBody_beforeValue _ _ _ _ _ (.inr rfl)] at hb
      split_ifs at hb with hspace
      · cases hb
        subst hspace
        have hblank := HeaderPrefix.beforeValue (q := q) (o := pre.length) k hn (j + 1)
        rw [← spaces_snoc (j + 1), ← List.append_assoc, ← List.append_assoc] at hblank
        exact hblank
      · cases hb
        have hvalue :=
          HeaderPrefix.value (q := q) (o := pre.length) k hn (j + 1) hspace (t := []) (by simp)
        simpa [Nat.add_assoc, Nat.add_comm 1] using hvalue
  | @value n v t k hn j hv ht =>
      rw [headerBody_value] at hb
      split_ifs at hb with hcr hlf
      · cases hb
        subst hcr
        have hlen := nameLength (i := 0) (m := t.length + 1) pre
          (spaces k ++ n.map lowerCase ++ [PWebServer.colon] ++ spaces j ++ v :: t)
          (k + n.length + 1 + j) (by simp; omega)
        simp only [← Nat.add_assoc] at hlen
        rw [hlen]
        exact .valueCr k hn j hv ht
      · cases hb
      · cases hb
        have hmore := HeaderPrefix.value (q := q) (o := pre.length) k hn j hv (t := t ++ [c]) (by
          intro d hd
          rcases List.mem_append.mp hd with hd | hd
          · exact ht d hd
          · exact List.mem_singleton.mp hd ▸ ⟨hcr, hlf⟩)
        simpa using hmore

/-! ## runs -/

/-- The scan of the beginning of a line, in a buffer with `pre` before it. -/
abbrev HeaderReach (pre : List UInt8) (q : HttpRequest) (w w' : List UInt8) (r : HttpRequest) :
    Prop :=
  Reaches headerBody pre q w (pre ++ w') r

theorem HeaderReach.byte (h : HeaderReach pre q w w' r)
    (hc : headerBody r (pre ++ w') c = (c', .go r')) :
    HeaderReach pre q (w ++ [c]) (w' ++ [c']) r' := by
  have hgo := Reaches.append h (.go hc)
  rwa [List.append_assoc] at hgo

theorem HeaderReach.loop (f : UInt8 → UInt8) (h : HeaderReach pre q w w' r) (xs : List UInt8)
    (hstay : ∀ c ∈ xs, ∀ before, headerBody r before c = (f c, .go r)) :
    HeaderReach pre q (w ++ xs) (w' ++ xs.map f) r := by
  have hloop := Reaches.append h (.loopMap f xs hstay _)
  rwa [List.append_assoc] at hloop

/-- The spaces in front of a line. -/
theorem HeaderReach.spaces (pre : List UInt8) (hq : q.state = .hdBegin) (k : Nat) :
    ∃ r, r.state = .hdBegin ∧ (∀ st name value, r.headerAt st name value = q.headerAt st name value) ∧
      (k ≠ 0 → r = q.headerAt .hdBegin {} {}) ∧
      HeaderReach pre q (spaces k) (spaces k) r := by
  cases k with
  | zero =>
      refine ⟨q, hq, fun _ _ _ => rfl, fun h => absurd rfl h, ?_⟩
      rw [HeaderReach, PWebServer.spaces, List.replicate_zero, List.append_nil]
      exact .refl pre q
  | succ k =>
      have hstay : ∀ before r, r.state = .hdBegin →
          headerBody r before space = (space, .go (r.headerAt .hdBegin {} {})) := by
        intro before r hr
        rw [headerBody_begin _ _ _ hr]
        rfl
      have hfirst : HeaderReach pre q [space] [space] (q.headerAt .hdBegin {} {}) :=
        .go (hstay pre q hq)
      have hall := hfirst.loop id (PWebServer.spaces k) (fun c hc before => by
        rw [List.eq_of_mem_replicate hc, hstay before _ rfl]
        rfl)
      rw [List.map_id] at hall
      exact ⟨q.headerAt .hdBegin {} {}, rfl, fun _ _ _ => rfl, fun _ => rfl,
        by simpa [List.replicate_succ] using hall⟩

theorem HeaderReach.name (pre : List UInt8) (hq : q.state = .hdBegin) (k : Nat)
    (hn : HeaderName n) :
    HeaderReach pre q (PWebServer.spaces k ++ n) (PWebServer.spaces k ++ n.map lowerCase)
      (q.headerAt .hdName ⟨some (pre.length + k), 0⟩ {}) := by
  obtain ⟨r, hr, hat, -, hspaces⟩ := HeaderReach.spaces pre hq k
  obtain ⟨hne, hallow⟩ := hn
  cases n with
  | nil => exact absurd rfl hne
  | cons c n =>
      obtain ⟨hc, hn⟩ := List.forall_mem_cons.mp hallow
      have hfirst := hspaces.byte (c := c) (by rw [headerBody_begin _ _ _ hr, if_pos hc])
      have hall := hfirst.loop lowerCase n (fun d hd before => by
        rw [headerBody_name, if_pos (hn d hd)])
      simpa [hat] using hall

theorem HeaderReach.colon (pre : List UInt8) (hq : q.state = .hdBegin) (k : Nat)
    (hn : HeaderName n) :
    HeaderReach pre q (PWebServer.spaces k ++ n ++ [PWebServer.colon])
      (PWebServer.spaces k ++ n.map lowerCase ++ [PWebServer.colon])
      (q.headerAt .hdColon ⟨some (pre.length + k), n.length⟩ {}) := by
  refine (HeaderReach.name pre hq k hn).byte ?_
  rw [headerBody_name, nameLength (m := n.length) pre _ k (by simp)]
  rfl

/-- The spaces between the colon and the value. -/
theorem HeaderReach.beforeValue (pre : List UInt8) (hq : q.state = .hdBegin) (k : Nat)
    (hn : HeaderName n) (j : Nat) :
    ∃ st, (st = .hdColon ∨ st = .hdBeforeValue) ∧ (j ≠ 0 → st = .hdBeforeValue) ∧
      HeaderReach pre q (PWebServer.spaces k ++ n ++ [PWebServer.colon] ++ PWebServer.spaces j)
        (PWebServer.spaces k ++ n.map lowerCase ++ [PWebServer.colon] ++ PWebServer.spaces j)
        (q.headerAt st ⟨some (pre.length + k), n.length⟩ {}) := by
  have hcolon := HeaderReach.colon pre hq k hn
  cases j with
  | zero => exact ⟨_, .inl rfl, fun h => absurd rfl h, by simpa using hcolon⟩
  | succ j =>
      have hfirst : HeaderReach pre q _ _ _ := hcolon.byte (c := space)
        (headerBody_beforeValue _ _ _ _ _ (.inl rfl))
      have hall := hfirst.loop id (PWebServer.spaces j) (fun c hc before => by
        rw [List.eq_of_mem_replicate hc, headerBody_beforeValue _ _ _ _ _ (.inr rfl)]
        rfl)
      rw [List.map_id] at hall
      exact ⟨_, .inr rfl, fun _ => rfl, by simpa [List.replicate_succ] using hall⟩

theorem HeaderReach.value (pre : List UInt8) (hq : q.state = .hdBegin) (k : Nat)
    (hn : HeaderName n) (j : Nat) (hv : v ≠ space) (ht : ∀ c ∈ t, c ≠ cr ∧ c ≠ lf) :
    HeaderReach pre q
      (PWebServer.spaces k ++ n ++ [PWebServer.colon] ++ PWebServer.spaces j ++ v :: t)
      (PWebServer.spaces k ++ n.map lowerCase ++ [PWebServer.colon] ++ PWebServer.spaces j ++ v :: t)
      (q.headerAt .hdValue ⟨some (pre.length + k), n.length⟩
        ⟨some (pre.length + k + n.length + 1 + j), 0⟩) := by
  obtain ⟨st, hst, -, hbefore⟩ := HeaderReach.beforeValue pre hq k hn j
  have hfirst : HeaderReach pre q _ _ _ := hbefore.byte (c := v)
    ((headerBody_beforeValue _ _ _ _ _ hst).trans (if_neg hv))
  have hall := hfirst.loop id t (fun c hc before => by
    rw [headerBody_value, if_neg (ht c hc).1, if_neg (ht c hc).2]
    rfl)
  rw [List.map_id] at hall
  simpa [Nat.add_assoc, Nat.add_comm 1] using hall

theorem HeaderPrefix.reach (hq : q.state = .hdBegin) (h : HeaderPrefix q pre.length w w' r) :
    HeaderReach pre q w w' r := by
  cases h with
  | start => rw [HeaderReach, List.append_nil]; exact .refl pre q
  | blanks k =>
      obtain ⟨r, -, -, hr, hspaces⟩ := HeaderReach.spaces pre hq (k + 1)
      exact hr (Nat.succ_ne_zero k) ▸ hspaces
  | blankCr k =>
      obtain ⟨r, hr, hat, -, hspaces⟩ := HeaderReach.spaces pre hq k
      refine hspaces.byte ?_
      rw [headerBody_begin _ _ _ hr, ← hat]
      rfl
  | name k hn => exact .name pre hq k hn
  | nameCr k hn => exact (HeaderReach.name pre hq k hn).byte rfl
  | nameSpace k hn => exact (HeaderReach.name pre hq k hn).byte rfl
  | colon k hn => exact .colon pre hq k hn
  | beforeValue k hn j =>
      obtain ⟨st, -, hst, hbefore⟩ := HeaderReach.beforeValue pre hq k hn (j + 1)
      exact hst (Nat.succ_ne_zero j) ▸ hbefore
  | value k hn j hv ht => exact .value pre hq k hn j hv ht
  | @valueCr n v t k hn j hv ht =>
      refine (HeaderReach.value pre hq k hn j hv ht).byte ?_
      rw [headerBody_value, if_pos rfl]
      have hlen := nameLength (i := 0) (m := t.length + 1) pre
        (spaces k ++ n.map lowerCase ++ [PWebServer.colon] ++ spaces j ++ v :: t)
        (k + n.length + 1 + j) (by simp; omega)
      simp only [← Nat.add_assoc] at hlen
      rw [hlen]
      rfl

/-- `HeaderPrefix` is what a run over the beginning of a line reaches. -/
theorem headerReach_iff (hq : q.state = .hdBegin) :
    HeaderPrefix q pre.length w w' r ↔ HeaderReach pre q w w' r := by
  refine ⟨HeaderPrefix.reach hq, fun h => ?_⟩
  have hrule := (scan_rule headerBody
    (fun raw before r => ∃ w', before = pre ++ w' ∧ HeaderPrefix q pre.length raw w' r)
    (fun {raw before r c c' r'} hI hb => by
      obtain ⟨w', rfl, hfront⟩ := hI
      exact ⟨w' ++ [c'], List.append_assoc .., hfront.step hq hb⟩)
    w [] pre q ⟨[], (List.append_nil _).symm, .start⟩).1
  unfold HeaderReach Reaches at h
  rw [h] at hrule
  obtain ⟨w'', heq, hfront⟩ := hrule rfl
  rwa [List.append_cancel_left heq]

/-- The scan of a text either stays inside a line or is left behind the
beginning of one. -/
theorem headerScan_cases (hq : q.state = .hdBegin) (pre xs : List UInt8) :
    (∃ w' r, HeaderPrefix q pre.length xs w' r) ∨
      ∃ w w' r c rest c' res r', xs = w ++ c :: rest ∧ HeaderPrefix q pre.length w w' r ∧
        headerBody r (pre ++ w') c = (c', .stop res r') := by
  have hrule := scan_rule headerBody
    (fun raw before r => ∃ w', before = pre ++ w' ∧ HeaderPrefix q pre.length raw w' r)
    (fun {raw before r c c' r'} hI hb => by
      obtain ⟨w', rfl, hfront⟩ := hI
      exact ⟨w' ++ [c'], List.append_assoc .., hfront.step hq hb⟩)
    xs [] pre q ⟨[], (List.append_nil _).symm, .start⟩
  rcases hres : (scan headerBody pre xs q).res with _ | res
  · obtain ⟨w', -, hfront⟩ := hrule.1 hres
    exact .inl ⟨w', _, hfront⟩
  · obtain ⟨w, r, c, c', rest, rfl, ⟨w', hw', hfront⟩, hbody, -⟩ := hrule.2 res hres
    rw [hw'] at hbody
    exact .inr ⟨w, w', r, c, rest, c', res, _, rfl, hfront, hbody⟩

/-! ## lines that are over -/

/-- The end of a line. -/
def LineEnd (e : List UInt8) : Prop := e = [lf] ∨ e = [cr, lf]

/-- The line that ends the header. -/
inductive BlankLine : List UInt8 → Prop where
  | mk (k : Nat) (he : LineEnd e) : BlankLine (spaces k ++ e)

/-- A line with the name `n` and the value `v`.  A line without a colon leaves
the name open, its length is 0. -/
inductive HeaderLine : List UInt8 → List UInt8 → List UInt8 → Prop where
  | bare (k : Nat) (hn : HeaderName n) : HeaderLine (spaces k ++ n ++ [cr] ++ [lf]) [] []
  | valued (k : Nat) (hn : HeaderName n) (j : Nat) (hv : v ≠ space) (ht : ∀ c ∈ t, c ≠ cr ∧ c ≠ lf)
      (he : LineEnd e) :
      HeaderLine (spaces k ++ n ++ [colon] ++ spaces j ++ v :: t ++ e) n (v :: t)

/-- A text that is wrong before a name has begun: a byte no line begins with,
or a CR without its LF. -/
inductive NamelessError : List UInt8 → Prop where
  | junk (k : Nat) (hname : headerNameAllow c = false) (hcr : c ≠ cr) (hlf : c ≠ lf)
      (hspace : c ≠ space) : NamelessError (spaces k ++ [c])
  | cr (k : Nat) (hlf : c ≠ lf) : NamelessError (spaces k ++ [cr] ++ [c])

/-- A text that is wrong behind the beginning of a name. -/
inductive NamedError : List UInt8 → Prop where
  | name (k : Nat) (hn : HeaderName n) (hname : headerNameAllow c = false) (hcolon : c ≠ colon)
      (hcr : c ≠ cr) (hspace : c ≠ space) : NamedError (spaces k ++ n ++ [c])
  | nameCr (k : Nat) (hn : HeaderName n) (hlf : c ≠ lf) :
      NamedError (spaces k ++ n ++ [cr] ++ [c])
  | nameSpace (k : Nat) (hn : HeaderName n) (c : UInt8) :
      NamedError (spaces k ++ n ++ [space] ++ [c])
  | valueCr (k : Nat) (hn : HeaderName n) (j : Nat) (hv : v ≠ space)
      (ht : ∀ c ∈ t, c ≠ cr ∧ c ≠ lf) (hlf : c ≠ lf) :
      NamedError (spaces k ++ n ++ [colon] ++ spaces j ++ v :: t ++ [cr] ++ [c])

/-- The byte that ends a call. -/
theorem HeaderPrefix.stop (hq : q.state = .hdBegin) (h : HeaderPrefix q pre.length w w' r)
    (hb : headerBody r (pre ++ w') c = (c', .stop res r')) :
    res = .ok ∧ ((∃ n v, HeaderLine (w ++ [c]) n v) ∨ BlankLine (w ++ [c])) ∨
      res = .error ∧ (NamelessError (w ++ [c]) ∨ NamedError (w ++ [c])) := by
  cases h with
  | start =>
      rw [headerBody_begin _ _ _ hq] at hb
      split_ifs at hb with hallow hcr hlf hspace <;> cases hb
      · subst hlf
        exact .inl ⟨rfl, .inr (.mk 0 (.inl rfl))⟩
      · exact .inr ⟨rfl, .inl (.junk 0 (eq_false_of_ne_true hallow) hcr hlf hspace)⟩
  | blanks k =>
      rw [headerBody_begin _ _ _ rfl] at hb
      split_ifs at hb with hallow hcr hlf hspace <;> cases hb
      · subst hlf
        exact .inl ⟨rfl, .inr (.mk (k + 1) (.inl rfl))⟩
      · exact .inr ⟨rfl, .inl (.junk (k + 1) (eq_false_of_ne_true hallow) hcr hlf hspace)⟩
  | blankCr k =>
      rw [headerBody_almostDone] at hb
      split_ifs at hb with hlf <;> cases hb
      · subst hlf
        exact .inl ⟨rfl, .inr (by simpa using BlankLine.mk k (.inr rfl))⟩
      · exact .inr ⟨rfl, .inl (.cr k hlf)⟩
  | name k hn =>
      rw [headerBody_name] at hb
      split_ifs at hb with hallow hcolon hcr hspace <;> cases hb
      exact .inr ⟨rfl, .inr (.name k hn (eq_false_of_ne_true hallow) hcolon hcr hspace)⟩
  | nameCr k hn =>
      rw [headerBody_almostDone] at hb
      split_ifs at hb with hlf <;> cases hb
      · subst hlf
        exact .inl ⟨rfl, .inl ⟨_, _, .bare k hn⟩⟩
      · exact .inr ⟨rfl, .inr (.nameCr k hn hlf)⟩
  | nameSpace k hn =>
      cases hb
      exact .inr ⟨rfl, .inr (.nameSpace k hn c)⟩
  | colon k hn =>
      rw [headerBody_beforeValue _ _ _ _ _ (.inl rfl)] at hb
      split_ifs at hb <;> cases hb
  | beforeValue k hn j =>
      rw [headerBody_beforeValue _ _ _ _ _ (.inr rfl)] at hb
      split_ifs at hb <;> cases hb
  | value k hn j hv ht =>
      rw [headerBody_value] at hb
      split_ifs at hb with hcr hlf <;> cases hb
      subst hlf
      exact .inl ⟨rfl, .inl ⟨_, _, .valued k hn j hv ht (.inl rfl)⟩⟩
  | valueCr k hn j hv ht =>
      rw [headerBody_almostDone] at hb
      split_ifs at hb with hlf <;> cases hb
      · subst hlf
        rw [List.append_assoc _ [cr] [lf]]
        exact .inl ⟨rfl, .inl ⟨_, _, .valued k hn j hv ht (.inr rfl)⟩⟩
      · exact .inr ⟨rfl, .inr (.valueCr k hn j hv ht hlf)⟩

/-! ## calls -/

theorem parseHeader_again (hq : q.state = .hdBegin) (h : HeaderPrefix q pre.length w w' r) :
    parseHeader q ⟨pre ++ w, pre.length⟩ = (.again, r, ⟨pre ++ w', (pre ++ w').length⟩) := by
  have hreach : Reaches headerBody pre q w (pre ++ w') r := h.reach hq
  unfold parseHeader
  dsimp only
  rw [List.take_left, List.drop_left, hreach]
  simp [headerResult]

/-- A call that is left behind a line. -/
theorem parseHeader_ok (hq : q.state = .hdBegin) (h : HeaderPrefix q pre.length w w' r)
    (hb : headerBody r (pre ++ w') c = (c, .stop .ok (q.headerAt s name value)))
    (rest : List UInt8) :
    parseHeader q ⟨pre ++ (w ++ [c] ++ rest), pre.length⟩ =
      (.ok, q.headerAt .hdBegin name value,
        ⟨pre ++ (w' ++ [c]) ++ rest, (pre ++ (w' ++ [c])).length⟩) := by
  have hreach : Reaches headerBody pre q w (pre ++ w') r := h.reach hq
  unfold parseHeader
  dsimp only
  rw [List.take_left, List.drop_left, List.append_assoc w, List.singleton_append, hreach.scan,
    scan_stop hb]
  simp only [headerResult, List.append_assoc, List.singleton_append, List.length_append,
    List.length_singleton, Nat.add_assoc]
  rfl

/-- A call that is left at a byte it does not expect. -/
theorem parseHeader_error (hq : q.state = .hdBegin) (h : HeaderPrefix q pre.length w w' r)
    (hb : headerBody r (pre ++ w') c = (c, .stop .error r')) (rest : List UInt8) :
    parseHeader q ⟨pre ++ (w ++ [c] ++ rest), pre.length⟩ =
      (.error, r', ⟨pre ++ (w' ++ [c]) ++ rest, pre.length⟩) := by
  have hreach : Reaches headerBody pre q w (pre ++ w') r := h.reach hq
  unfold parseHeader
  dsimp only
  rw [List.take_left, List.drop_left, List.append_assoc w, List.singleton_append, hreach.scan,
    scan_stop hb]
  simp only [headerResult, List.append_assoc, List.singleton_append]

/-- The length of a value that ends at the end of the text read. -/
theorem valueLength (pre w' t : List UInt8) (k m j : Nat)
    (hw : w'.length = k + m + 1 + j + (t.length + 1)) :
    Str.upTo ⟨some (pre.length + k + m + 1 + j), i⟩ (pre ++ w').length = t.length + 1 := by
  simp only [Str.upTo, List.length_append, Option.getD_some]
  omega

/-- A call that reads a line with a name and a value. -/
theorem parseHeader_valued (hq : q.state = .hdBegin) (k : Nat) (hn : HeaderName n) (j : Nat)
    (hv : v ≠ space) (ht : ∀ c ∈ t, c ≠ cr ∧ c ≠ lf) (he : LineEnd e) (pre rest : List UInt8) :
    parseHeader q ⟨pre ++ (spaces k ++ n ++ [colon] ++ spaces j ++ v :: t ++ e ++ rest), pre.length⟩ =
      (.ok,
        q.headerAt .hdBegin ⟨some (pre.length + k), n.length⟩
          ⟨some (pre.length + k + n.length + 1 + j), t.length + 1⟩,
        ⟨pre ++ (spaces k ++ n.map lowerCase ++ [colon] ++ spaces j ++ v :: t ++ e) ++ rest,
          (pre ++ (spaces k ++ n.map lowerCase ++ [colon] ++ spaces j ++ v :: t ++ e)).length⟩) := by
  rcases he with rfl | rfl
  · refine parseHeader_ok (s := .hdValue) hq (.value k hn j hv ht) ?_ rest
    rw [headerBody_value, if_neg (by decide), if_pos rfl,
      valueLength pre _ t k n.length j (by simp; omega)]
  · have hok := parseHeader_ok hq (HeaderPrefix.valueCr (o := pre.length) k hn j hv ht)
      (c := lf) (headerBody_almostDone ..) rest
    simpa using hok

/-- A call that reads a name without a colon. -/
theorem parseHeader_bare (hq : q.state = .hdBegin) (k : Nat) (hn : HeaderName n)
    (pre rest : List UInt8) :
    parseHeader q ⟨pre ++ (spaces k ++ n ++ [cr] ++ [lf] ++ rest), pre.length⟩ =
      (.ok, q.headerAt .hdBegin ⟨some (pre.length + k), 0⟩ {},
        ⟨pre ++ (spaces k ++ n.map lowerCase ++ [cr] ++ [lf]) ++ rest,
          (pre ++ (spaces k ++ n.map lowerCase ++ [cr] ++ [lf])).length⟩) :=
  parseHeader_ok hq (.nameCr k hn) (headerBody_almostDone ..) rest

/-- The state behind the spaces in front of a line. -/
theorem headerPrefix_spaces (q : HttpRequest) (hq : q.state = .hdBegin) (o k : Nat) :
    ∃ r, HeaderPrefix q o (spaces k) (spaces k) r ∧ r.state = .hdBegin ∧
      ∀ st name value, r.headerAt st name value = q.headerAt st name value := by
  cases k with
  | zero => exact ⟨q, .start, hq, fun _ _ _ => rfl⟩
  | succ k => exact ⟨_, .blanks k, rfl, fun _ _ _ => rfl⟩

/-- A call that reads the blank line. -/
theorem parseHeader_blank (hq : q.state = .hdBegin) (hl : BlankLine l) (pre rest : List UInt8) :
    parseHeader q ⟨pre ++ (l ++ rest), pre.length⟩ =
      (.ok, q.headerAt .hdBegin {} {}, ⟨pre ++ l ++ rest, (pre ++ l).length⟩) := by
  cases hl with
  | @mk e k he =>
      rcases he with rfl | rfl
      · obtain ⟨r, hspaces, hr, hat⟩ := headerPrefix_spaces q hq pre.length k
        refine parseHeader_ok (s := .hdBegin) hq hspaces ?_ rest
        rw [headerBody_begin _ _ _ hr, ← hat]
        rfl
      · have hok := parseHeader_ok hq (HeaderPrefix.blankCr (o := pre.length) k)
          (c := lf) (headerBody_almostDone ..) rest
        simpa using hok

/-- A call that finds a line wrong before its name. -/
theorem parseHeader_nameless (hq : q.state = .hdBegin) (hl : NamelessError l)
    (pre rest : List UInt8) :
    ∃ st, parseHeader q ⟨pre ++ (l ++ rest), pre.length⟩ =
      (.error, q.headerAt st {} {}, ⟨pre ++ l ++ rest, pre.length⟩) := by
  cases hl with
  | junk k hname hcr hlf hspace =>
      obtain ⟨r, hspaces, hr, hat⟩ := headerPrefix_spaces q hq pre.length k
      refine ⟨.hdBegin, parseHeader_error hq hspaces ?_ rest⟩
      rw [headerBody_begin _ _ _ hr, if_neg (by simp [hname]), if_neg hcr, if_neg hlf,
        if_neg hspace, hat]
  | cr k hlf =>
      refine ⟨.hdAlmostDone, parseHeader_error hq (.blankCr k) ?_ rest⟩
      rw [headerBody_almostDone, if_neg hlf]

/-- A call that finds a line wrong behind the beginning of its name. -/
theorem parseHeader_named (hq : q.state = .hdBegin) (hl : NamedError l) (pre rest : List UInt8) :
    ∃ st i len value l', parseHeader q ⟨pre ++ (l ++ rest), pre.length⟩ =
      (.error, q.headerAt st ⟨some i, len⟩ value, ⟨pre ++ l' ++ rest, pre.length⟩) := by
  have halmost : ∀ {c : UInt8}, c ≠ lf → ∀ name value before,
      headerBody (q.headerAt .hdAlmostDone name value) before c =
        (c, .stop .error (q.headerAt .hdAlmostDone name value)) := by
    intro c hlf name value before
    rw [headerBody_almostDone, if_neg hlf]
  cases hl with
  | @name n c k hn hname hcolon hcr hspace =>
      have hbody : ∀ name value before, headerBody (q.headerAt .hdName name value) before c =
          (c, .stop .error (q.headerAt .hdName name value)) := by
        intro name value before
        rw [headerBody_name, if_neg (by simp [hname]), if_neg hcolon, if_neg hcr, if_neg hspace]
      exact ⟨_, _, _, _, _, parseHeader_error hq (.name k hn) (hbody _ _ _) rest⟩
  | nameCr k hn hlf =>
      exact ⟨_, _, _, _, _, parseHeader_error hq (.nameCr k hn) (halmost hlf _ _ _) rest⟩
  | nameSpace k hn c =>
      exact ⟨_, _, _, _, _, parseHeader_error hq (.nameSpace k hn) (headerBody_error ..) rest⟩
  | valueCr k hn j hv ht hlf =>
      exact ⟨_, _, _, _, _,
        parseHeader_error hq (.valueCr k hn j hv ht) (halmost hlf _ _ _) rest⟩

end PWebServer
