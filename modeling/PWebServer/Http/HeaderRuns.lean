import PWebServer.Http.Frames

/-!
# Http.HeaderRuns

The header over any number of reads, with `http_proxy_pass` clearing the receive
buffer in between, and the write through `NULL`.

A buffer that is cleared inside a line leaves the slices of the line where they
were.  `LineRest` is what may still come of such a line; the NUL behind its name
then goes to the old place, which can be one of the bytes that have not been
read yet.
-/

namespace PWebServer

open Scan

/-! ## the rest of a line -/

/-- What may come of a line that has begun, with `i` bytes in front of it in the
buffer: as it comes, as it stands in the buffer afterwards, the name it has then
and where its value begins. -/
inductive LineRest (r : HttpRequest) (i : Nat) :
    List UInt8 → List UInt8 → Str → Option Nat → Prop where
  | inName (hr : r.state = .hdName) (hn : ∀ c ∈ n, headerNameAllow c = true) (j : Nat)
      (hv : v ≠ space) (ht : ∀ c ∈ t, c ≠ cr ∧ c ≠ lf) (he : LineEnd e) :
      LineRest r i (n ++ colon :: (spaces j ++ v :: (t ++ e)))
        (n.map lowerCase ++ colon :: (spaces j ++ v :: (t ++ e)))
        { r.headerName with len := r.headerName.upTo (i + n.length) } (some (i + n.length + 1 + j))
  | bare (hr : r.state = .hdName) (hn : ∀ c ∈ n, headerNameAllow c = true) :
      LineRest r i (n ++ [cr, lf]) (n.map lowerCase ++ [cr, lf]) r.headerName r.headerValue.c
  | beforeValue (hr : r.state = .hdColon ∨ r.state = .hdBeforeValue) (j : Nat) (hv : v ≠ space)
      (ht : ∀ c ∈ t, c ≠ cr ∧ c ≠ lf) (he : LineEnd e) :
      LineRest r i (spaces j ++ v :: (t ++ e)) (spaces j ++ v :: (t ++ e)) r.headerName (some (i + j))
  | inValue (hr : r.state = .hdValue) (ht : ∀ c ∈ t, c ≠ cr ∧ c ≠ lf) (he : LineEnd e) :
      LineRest r i (t ++ e) (t ++ e) r.headerName r.headerValue.c
  | atEnd (hr : r.state = .hdAlmostDone) : LineRest r i [lf] [lf] r.headerName r.headerValue.c

theorem LineRest.length (h : LineRest r i y y' name value) : y'.length = y.length := by
  cases h <;> simp

/-- Inside a line the parser does not touch where its name begins. -/
theorem headerBody_inside (hr : r.state ≠ .hdBegin) (h : headerBody r before c = (c', .go r')) :
    r'.state ≠ .hdBegin ∧ r'.headerName.c = r.headerName.c := by
  unfold headerBody at h
  cases hst : r.state <;> simp only [hst] at h <;>
    first
    | cases h
    | exact absurd hst hr
    | (split_ifs at h <;> cases h <;> simp [hst])

theorem headerBody_left (hr : r.state ≠ .hdBegin) (h : headerBody r before c = (c', .stop res r')) :
    r'.headerName.c = r.headerName.c := by
  unfold headerBody at h
  cases hst : r.state <;> simp only [hst] at h <;>
    first
    | (cases h; rfl)
    | exact absurd hst hr
    | (split_ifs at h <;> cases h <;> rfl)

/-- One more byte in front. -/
theorem LineRest.cons (hr : r.state ≠ .hdBegin) (hb : headerBody r before c = (c', .go r'))
    (h : LineRest r' (before ++ [c']).length y y' name value) :
    LineRest r before.length (c :: y) (c' :: y') name value := by
  have hlen : (before ++ [c']).length = before.length + 1 := by simp
  rw [hlen] at h
  unfold headerBody at hb
  cases hst : r.state <;> simp only [hst] at hb <;> try cases hb
  case hdBegin => exact absurd hst hr
  case hdName =>
    split_ifs at hb with hallow hcolon hcr hspace <;> cases hb
    · cases h with
      | @inName n v t e _ hn j hv ht he =>
          have hmore := LineRest.inName (r := r) (i := before.length) hst
            (List.forall_mem_cons.mpr ⟨hallow, hn⟩) j hv ht he
          simp only [List.length_cons, ← Nat.add_assoc, Nat.add_right_comm _ n.length 1] at hmore ⊢
          exact hmore
      | bare _ hn => exact .bare hst (List.forall_mem_cons.mpr ⟨hallow, hn⟩)
      | beforeValue hs => simp [hst] at hs
      | inValue hs | atEnd hs => rw [hst] at hs; cases hs
    · cases h with
      | beforeValue _ j hv ht he =>
          subst hcolon
          exact .inName hst (n := []) (by simp) j hv ht he
      | inName hs | bare hs | inValue hs | atEnd hs => cases hs
    · cases h with
      | atEnd =>
          subst hcr
          exact .bare hst (n := []) (by simp)
      | beforeValue hs => rcases hs with hs | hs <;> cases hs
      | inName hs | bare hs | inValue hs => cases hs
    · cases h with
      | beforeValue hs => rcases hs with hs | hs <;> cases hs
      | inName hs | bare hs | inValue hs | atEnd hs => cases hs
  case hdColon | hdBeforeValue =>
    split_ifs at hb with hspace <;> cases hb
    · cases h with
      | beforeValue _ j hv ht he =>
          subst hspace
          have hmore := LineRest.beforeValue (r := r) (i := before.length) (by simp [hst]) (j + 1) hv ht he
          rw [Nat.add_assoc, Nat.add_comm 1 j]
          exact hmore
      | inName hs | bare hs | inValue hs | atEnd hs => cases hs
    · cases h with
      | inValue _ ht he => exact .beforeValue (by simp [hst]) 0 hspace ht he
      | beforeValue hs => rcases hs with hs | hs <;> cases hs
      | inName hs | bare hs | atEnd hs => cases hs
  case hdValue =>
    split_ifs at hb with hcr hlf <;> cases hb
    · cases h with
      | atEnd =>
          subst hcr
          exact .inValue hst (t := []) (by simp) (.inr rfl)
      | beforeValue hs => rcases hs with hs | hs <;> cases hs
      | inName hs | bare hs | inValue hs => cases hs
    · cases h with
      | inValue _ ht he => exact .inValue hst (List.forall_mem_cons.mpr ⟨⟨hcr, hlf⟩, ht⟩) he
      | beforeValue hs => simp [hst] at hs
      | inName hs | bare hs | atEnd hs => rw [hst] at hs; cases hs
  case hdAlmostDone =>
    split_ifs at hb <;> cases hb

/-- The last byte of a line ends the call. -/
theorem LineRest.last (h : LineRest r before.length [c] y' name value) :
    c = lf ∧ y' = [lf] ∧ ∃ r', headerBody r before lf = (lf, .stop .ok r') ∧
      r'.headerName = name ∧ r'.headerValue.c = value ∧ r'.responseDone = r.responseDone := by
  generalize hy : [c] = y at h
  cases h with
  | inName =>
      have hlen := congrArg List.length hy
      simp at hlen
      omega
  | bare =>
      have hlen := congrArg List.length hy
      simp at hlen
  | beforeValue hr j hv ht he =>
      have hlen := congrArg List.length hy
      rcases he with rfl | rfl <;> simp at hlen <;> omega
  | @inValue t e hr ht he =>
      obtain rfl : t = [] := by
        rcases he with rfl | rfl <;> simpa using congrArg List.length hy
      rcases he with rfl | rfl <;> cases hy
      exact ⟨rfl, rfl, { r with headerValue := { r.headerValue with len := r.headerValue.upTo before.length } },
        by simp only [headerBody, hr]; rfl, rfl, rfl, rfl⟩
  | atEnd hr =>
      cases hy
      exact ⟨rfl, rfl, r, by simp only [headerBody, hr]; rfl, rfl, rfl, rfl⟩

/-- A byte of a line that is not its last one. -/
theorem LineRest.next (h : LineRest r before.length (c :: y) y' name value) (hy : y ≠ []) :
    ∃ c' r' y₁, y' = c' :: y₁ ∧ headerBody r before c = (c', .go r') ∧
      r'.responseDone = r.responseDone ∧ LineRest r' (before ++ [c']).length y y₁ name value := by
  generalize hall : c :: y = l at h
  cases h with
  | @inName n v t e hr hn j hv ht he =>
      cases n with
      | nil =>
          cases hall
          let r' := { r with
            headerName := { r.headerName with len := r.headerName.upTo before.length }, state := .hdColon }
          have hrest := LineRest.beforeValue (r := r') (i := (before ++ [colon]).length) (.inl rfl) j hv ht he
          refine ⟨_, r', _, rfl, by simp only [headerBody, hr]; rfl, rfl, ?_⟩
          simpa [r'] using hrest
      | cons d n =>
          cases hall
          obtain ⟨hd, hn⟩ := List.forall_mem_cons.mp hn
          refine ⟨_, r, _, rfl, by simp only [headerBody, hr, hd, if_true], rfl, ?_⟩
          have hrest := LineRest.inName (r := r) (i := (before ++ [lowerCase c]).length) hr hn j hv ht he
          have hlen : (before ++ [lowerCase c]).length + n.length = before.length + (c :: n).length := by
            simp; omega
          rwa [hlen] at hrest
  | @bare n hr hn =>
      cases n with
      | nil =>
          cases hall
          exact ⟨_, { r with state := .hdAlmostDone }, _, rfl, by simp only [headerBody, hr]; rfl, rfl, .atEnd rfl⟩
      | cons d n =>
          cases hall
          obtain ⟨hd, hn⟩ := List.forall_mem_cons.mp hn
          exact ⟨_, r, _, rfl, by simp only [headerBody, hr, hd, if_true], rfl, .bare hr hn⟩
  | @beforeValue v t e hr j hv ht he =>
      cases j with
      | zero =>
          cases hall
          let r' := { r with
            state := .hdValue, headerValue := { r.headerValue with c := some before.length } }
          refine ⟨_, r', _, rfl, ?_, rfl, .inValue rfl ht he⟩
          rcases hr with hr | hr <;> simp only [headerBody, hr, if_neg hv] <;> rfl
      | succ j =>
          cases hall
          refine ⟨_, { r with state := .hdBeforeValue }, _, rfl, ?_, rfl, ?_⟩
          · rcases hr with hr | hr <;> simp only [headerBody, hr, if_pos]
          · have hrest := LineRest.beforeValue (r := { r with state := .hdBeforeValue })
              (i := (before ++ [space]).length) (.inr rfl) j hv ht he
            have hlen : (before ++ [space]).length + j = before.length + (j + 1) := by simp; omega
            rwa [hlen] at hrest
  | @inValue t e hr ht he =>
      cases t with
      | nil =>
          rcases he with rfl | rfl
          · cases hall
            exact absurd rfl hy
          · cases hall
            let r' := { r with
              headerValue := { r.headerValue with len := r.headerValue.upTo before.length }
              state := .hdAlmostDone }
            exact ⟨_, r', _, rfl, by simp only [headerBody, hr]; rfl, rfl, .atEnd rfl⟩
      | cons d t =>
          cases hall
          obtain ⟨hd, ht⟩ := List.forall_mem_cons.mp ht
          exact ⟨_, r, _, rfl, by simp only [headerBody, hr, if_neg hd.1, if_neg hd.2], rfl, .inValue hr ht he⟩
  | atEnd hr =>
      cases hall
      exact absurd rfl hy

/-- The parser over the rest of a line. -/
theorem LineRest.scan (rest : List UInt8) {y : List UInt8} :
    ∀ {r : HttpRequest} {before y' : List UInt8} {name : Str} {value : Option Nat},
      LineRest r before.length y y' name value →
      ∃ y₀ r', y' = y₀ ++ [PWebServer.lf] ∧
        Scan.scan headerBody before (y ++ rest) r = ⟨before ++ y₀, PWebServer.lf :: rest, r', some .ok⟩ ∧
        r'.headerName = name ∧ r'.headerValue.c = value ∧ r'.responseDone = r.responseDone := by
  induction y with
  | nil =>
      intro r before y' name value h
      generalize hy : ([] : List UInt8) = y at h
      cases h with
      | inValue hr ht he => rcases he with rfl | rfl <;> simp at hy
      | inName | bare | beforeValue | atEnd => simp at hy
  | cons c y ih =>
      intro r before y' name value h
      by_cases hy : y = []
      · subst hy
        obtain ⟨rfl, rfl, r', hb, hname, hvalue, hdone⟩ := h.last
        exact ⟨[], r', rfl, by rw [List.append_nil]; exact scan_stop hb rest, hname, hvalue, hdone⟩
      · obtain ⟨c', r', y₁, rfl, hb, hdone, hrest⟩ := h.next hy
        obtain ⟨y₀, r'', rfl, hscan, hname, hvalue, hdone'⟩ := ih hrest
        refine ⟨c' :: y₀, r'', rfl, ?_, hname, hvalue, hdone'.trans hdone⟩
        rw [List.cons_append, scan_go hb, hscan]
        simp

/-- A line that a call ends inside of has its rest in front of the call. -/
theorem lineRest_of_ok (xs : List UInt8) :
    ∀ (before : List UInt8) {r : HttpRequest}, r.state ≠ .hdBegin →
      (Scan.scan headerBody before xs r).res = some .ok →
        ∃ y y' rest name value, xs = y ++ rest ∧ LineRest r before.length y y' name value := by
  induction xs with
  | nil =>
      intro before r hr h
      cases h
  | cons c xs ih =>
      intro before r hr h
      rcases hb : headerBody r before c with ⟨c', r' | ⟨res, r'⟩⟩
      · rw [scan_go hb] at h
        obtain ⟨y, y', rest, name, value, rfl, hrest⟩ := ih _ (headerBody_inside hr hb).1 h
        exact ⟨c :: y, c' :: y', rest, name, value, rfl, hrest.cons hr hb⟩
      · rw [scan_stop hb] at h
        obtain rfl := Option.some.inj h
        unfold headerBody at hb
        cases hst : r.state <;> simp only [hst] at hb <;> try cases hb
        case hdBegin => exact absurd hst hr
        case hdValue =>
          split_ifs at hb with hcr hlf <;> cases hb
          subst hlf
          exact ⟨[lf], [lf], xs, _, _, rfl, .inValue hst (t := []) (by simp) (.inl rfl)⟩
        case hdAlmostDone =>
          split_ifs at hb with hlf <;> cases hb
          subst hlf
          exact ⟨[lf], [lf], xs, _, _, rfl, .atEnd hst⟩
        all_goals split_ifs at hb <;> cases hb

/-! ## the parser between two reads -/

/-- What the slices are when the parser stands inside a line. -/
structure Open (r : HttpRequest) : Prop where
  name : r.state ≠ .hdBegin → r.state ≠ .hdAlmostDone → r.headerName.c ≠ none
  /-- a line without a colon has a name of no length -/
  bare : r.state = .hdName ∨ (r.state = .hdAlmostDone ∧ r.headerValue.c = none) → r.headerName.len = 0
  value : r.state = .hdValue → r.headerValue.c ≠ none

theorem Open.start (h : r.state = .hdBegin) : Open r where
  name := by simp [h]
  bare := by simp [h]
  value := by simp [h]

theorem Open.step (h : Open r) (hb : headerBody r before c = (c', .go r')) : Open r' := by
  obtain ⟨hname, hbare, hvalue⟩ := h
  unfold headerBody at hb
  cases hst : r.state <;> simp only [hst] at hb hname hbare hvalue <;>
    first
    | cases hb
    | (split_ifs at hb <;> cases hb <;> constructor <;> simp_all)

/-- The line has a value then, or a name of no length. -/
theorem LineRest.valued (ho : Open r) (h : LineRest r i y y' name value) : name.len = 0 ∨ value ≠ none := by
  cases h with
  | inName | beforeValue => exact .inr (Option.some_ne_none _)
  | bare hr => exact .inl (ho.bare (.inl hr))
  | inValue hr => exact .inr (ho.value hr)
  | atEnd hr =>
      by_cases hv : r.headerValue.c = none
      · exact .inl (ho.bare (.inr ⟨hr, hv⟩))
      · exact .inr hv

/-- A call that returns `AGAIN`. -/
theorem Open.again (h : Open r) (hcall : parseHeader r b = (.again, r', b')) : Open r' := by
  have hrule := (scan_rule headerBody (fun _ _ r => Open r) (fun hI hb => hI.step hb)
    (b.bytes.drop b.begin) [] (b.bytes.take b.begin) r h).1
  unfold parseHeader headerResult at hcall
  cases hres : (scan headerBody (b.bytes.take b.begin) (b.bytes.drop b.begin) r).res with
  | none =>
      rw [hres] at hcall
      cases hcall
      exact hrule hres
  | some res =>
      rcases scan_res (fun res => res = .ok ∨ res = .error) headerBody_stop hres with rfl | rfl <;>
        rw [hres] at hcall <;> cases hcall

/-- A loop that waits stands inside a line or in front of one. -/
theorem headersLoop_open {d : HeadersConn} (h : Open r) (hloop : headersLoop r b m = .ok d)
    (hwaits : d.status = .waiting) : Open d.r := by
  replace hloop := headersLoop_turns hloop
  induction hloop with
  | done | blank | failed => cases hwaits
  | line _ hcall _ hline _ ih =>
      exact ih (.start ((handleHeader_state hline).trans (parseHeader_begins hcall))) hwaits
  | again _ hcall => exact h.again hcall

/-! ## a line that is handled -/

/-- The memory with a NUL behind a slice. -/
def Str.ended (s : Str) (memory : List UInt8) : List UInt8 :=
  memory.set ((s.c.getD 0 : Int) + s.len).toNat 0

/-- A `Connection` line whose value, in the memory with the name ended, is
neither of the two words. -/
def Refused (memory : List UInt8) (name : Str) (value : Option Nat) : Prop :=
  headerFind (name.text memory) = some .connection ∧ ∃ p, value = some p ∧
    strncasecmpEq keepAliveText (name.ended memory) p = false ∧
    strncasecmpEq closeText (name.ended memory) p = false

theorem terminate_ended {s : Str} (h : s.c ≠ none) (b : Buffer) (m : List UInt8) :
    b.terminate m s = .ok ({ b with bytes := (s.ended (b.bytes ++ m)).take b.bytes.length },
      (s.ended (b.bytes ++ m)).drop b.bytes.length) := by
  obtain ⟨c, hc⟩ := Option.ne_none_iff_exists'.mp h
  simp only [Buffer.terminate, Str.ended, hc, deref_some, bind, Except.bind, pure, Except.pure, Option.getD_some]

/-- A name that ends before it begins is the end of the worker. -/
theorem handleHeader_negative (h : r.headerName.len < 0) (b : Buffer) (m : List UInt8) :
    handleHeader r b m = .error .bounds := if_pos h

/-- Every other line is handled. -/
theorem handleHeader_ended (hname : r.headerName.c ≠ none) (hlen : 0 ≤ r.headerName.len)
    (hvalue : r.headerName.len = 0 ∨ r.headerValue.c ≠ none) (hdone : r.responseDone = false) (b : Buffer)
    (m : List UInt8) :
    ∃ r' m', handleHeader r b m =
        .ok (r', { b with bytes := (r.headerName.ended (b.bytes ++ m)).take b.bytes.length }, m') ∧
      (r'.responseDone = true ↔ Refused (b.bytes ++ m) r.headerName r.headerValue.c) := by
  have hterm := terminate_ended hname b m
  unfold handleHeader
  rw [if_neg (Int.not_lt.mpr hlen)]
  simp only [hterm, bind, Except.bind]
  cases hfind : headerFind (r.headerName.text (b.bytes ++ m)) with
  | none => exact ⟨r, _, rfl, by simp [Refused, hfind, hdone]⟩
  | some offset =>
      cases offset with
      | accept | cookie | date =>
          exact ⟨_, _, rfl, by simp [Refused, hfind, headerHandleGeneric, hdone]⟩
      | connection =>
          have hvalue : r.headerValue.c ≠ none := by
            refine hvalue.resolve_left fun hzero => ?_
            rw [Str.text, hzero] at hfind
            cases hfind
          obtain ⟨p, hp⟩ := Option.ne_none_iff_exists'.mp hvalue
          have hmemory : (r.headerName.ended (b.bytes ++ m)).take b.bytes.length ++
              (r.headerName.ended (b.bytes ++ m)).drop b.bytes.length = r.headerName.ended (b.bytes ++ m) :=
            List.take_append_drop ..
          simp only [headerParser, headerHandleConnection, headerHandleGeneric, hp, deref_some, bind, Except.bind,
            pure, Except.pure, hmemory, Refused, hfind]
          cases hkeep : strncasecmpEq keepAliveText (r.headerName.ended (b.bytes ++ m)) p <;>
            cases hclose : strncasecmpEq closeText (r.headerName.ended (b.bytes ++ m)) p <;>
            exact ⟨_, _, rfl, by simp [hdone, hkeep, hclose, HttpRequest.constructErr]⟩

/-! ## the write through `NULL` -/

/-- A loop that writes through `NULL`: the bytes are wrong in front of a name,
at once or behind the line that is open, if that one is handled and goes on.
`m` is what lies behind the buffer. -/
inductive NullRead (r : HttpRequest) (b : Buffer) (m : List UInt8) : Prop where
  | start (hr : r.state = .hdBegin) (hx : NullStream (b.bytes.drop b.begin))
  /-- a CR in front of a name, without its LF -/
  | cr (hr : r.state = .hdAlmostDone) (hname : r.headerName.c = none)
      (hx : b.bytes.drop b.begin = c :: rest) (hc : c ≠ lf)
  | line (hx : b.bytes.drop b.begin = y ++ rest) (hl : LineRest r b.begin y y' name value)
      (hname : name.c ≠ none) (hlen : 0 ≤ name.len)
      (hvalue : ¬ Refused (b.bytes.take b.begin ++ y' ++ rest ++ m) name value)
      (hrest : NullStream (((name.ended (b.bytes.take b.begin ++ y' ++ rest ++ m)).take
        b.bytes.length).drop (b.begin + y.length)))

/-- Inside a line a call that fails has a name, and a call that does not says
nothing of the rest. -/
theorem parseHeader_inside (hr : r.state ≠ .hdBegin) (hcall : parseHeader r b = (ret, r', b')) :
    r'.headerName.c = r.headerName.c ∧ (ret = .ok ↔ ∃ y y' rest name value,
      b.bytes.drop b.begin = y ++ rest ∧ LineRest r (b.bytes.take b.begin).length y y' name value) := by
  have hrule := scan_rule headerBody (fun _ _ s => s.state ≠ .hdBegin ∧ s.headerName.c = r.headerName.c)
    (fun hI hb => ⟨(headerBody_inside hI.1 hb).1, (headerBody_inside hI.1 hb).2.trans hI.2⟩)
    (b.bytes.drop b.begin) [] (b.bytes.take b.begin) r ⟨hr, rfl⟩
  have hok := lineRest_of_ok (b.bytes.drop b.begin) (b.bytes.take b.begin) hr
  have hrest : ∀ y y' rest name value, b.bytes.drop b.begin = y ++ rest →
      LineRest r (b.bytes.take b.begin).length y y' name value →
      (scan headerBody (b.bytes.take b.begin) (b.bytes.drop b.begin) r).res = some .ok := by
    intro y y' rest name value hsplit hl
    obtain ⟨y₀, r', -, hscan, -⟩ := hl.scan rest
    rw [hsplit, hscan]
  unfold parseHeader headerResult at hcall
  cases hres : (scan headerBody (b.bytes.take b.begin) (b.bytes.drop b.begin) r).res with
  | none =>
      rw [hres] at hcall hrest
      cases hcall
      refine ⟨(hrule.1 hres).2, iff_of_false (by simp) ?_⟩
      rintro ⟨y, y', rest, name, value, hsplit, hl⟩
      exact absurd (hrest y y' rest name value hsplit hl) (by simp)
  | some res =>
      obtain ⟨_, s, _, _, _, -, ⟨hs, hname⟩, hbody, -⟩ := hrule.2 res hres
      have hname' := (headerBody_left hs hbody).trans hname
      rw [hres] at hcall hrest hok
      rcases headerBody_stop hbody with rfl | rfl
      · cases hcall
        exact ⟨hname', iff_of_true rfl (hok rfl)⟩
      · cases hcall
        refine ⟨hname', iff_of_false (by simp) ?_⟩
        rintro ⟨y, y', rest, name, value, hsplit, hl⟩
        exact absurd (hrest y y' rest name value hsplit hl) (by simp)

/-- The call that ends a line that was open. -/
theorem LineRest.call (hb : b.begin ≤ b.bytes.length) (hx : b.bytes.drop b.begin = y ++ rest)
    (h : LineRest r b.begin y y' name value) :
    ∃ r', parseHeader r b =
        (.ok, r', ⟨b.bytes.take b.begin ++ y' ++ rest, b.begin + y.length⟩) ∧ r'.state = .hdBegin ∧
      r'.headerName = name ∧ r'.headerValue.c = value ∧ r'.responseDone = r.responseDone := by
  have hbegin : (b.bytes.take b.begin).length = b.begin := List.length_take_of_le hb
  have hlen := h.length
  rw [← hbegin] at h
  obtain ⟨y₀, r', rfl, hscan, hname, hvalue, hdone⟩ := h.scan rest
  refine ⟨{ r' with state := .hdBegin }, ?_, rfl, hname, hvalue, hdone⟩
  rw [List.length_append, List.length_singleton] at hlen
  unfold parseHeader headerResult
  rw [hx, hscan]
  simp only [List.append_assoc, List.singleton_append, List.length_append, hbegin, ← hlen, Nat.add_assoc]

/-- Behind a line that was open the loop goes on with what the NUL has left of
the bytes. -/
theorem LineRest.loop_null_iff (ho : Open r) (hdone : r.responseDone = false) (hb : b.begin ≤ b.bytes.length)
    (hx : b.bytes.drop b.begin = y ++ rest) (h : LineRest r b.begin y y' name value) (hname : name.c ≠ none)
    (hlen : 0 ≤ name.len) (m : List UInt8)
    (hvalue : ¬ Refused (b.bytes.take b.begin ++ y' ++ rest ++ m) name value) :
    headersLoop r b m = .error .null ↔
      NullStream (((name.ended (b.bytes.take b.begin ++ y' ++ rest ++ m)).take
        b.bytes.length).drop (b.begin + y.length)) := by
  obtain ⟨r', hcall, hstate, rfl, rfl, hdone'⟩ := h.call hb hx
  have hlength : (b.bytes.take b.begin ++ y' ++ rest).length = b.bytes.length := parseCall_length
    ((parseHeader_eq r b).symm.trans hcall)
  have hplace : b.begin + y.length ≤ b.bytes.length := by
    have := congrArg List.length hx
    simp only [List.length_drop, List.length_append] at this
    omega
  obtain ⟨r'', m'', hline, hanswers⟩ := handleHeader_ended hname hlen (h.valued ho) (hdone'.trans hdone)
    ⟨b.bytes.take b.begin ++ y' ++ rest, b.begin + y.length⟩ m
  rw [headersLoop_line hdone hcall hname hline, hlength]
  generalize hbytes : (r'.headerName.ended (b.bytes.take b.begin ++ y' ++ rest ++ m)).take b.bytes.length = bytes
  have hbytes_length : b.begin + y.length ≤ bytes.length := by
    rw [← hbytes, List.length_take, Str.ended, List.length_set, List.length_append, hlength]
    omega
  have hnull := headersLoop_null_iff ((handleHeader_state hline).trans hstate)
    (eq_false_of_ne_true fun hd => hvalue (hanswers.mp hd)) (bytes.take (b.begin + y.length))
    (bytes.drop (b.begin + y.length)) m''
  rwa [List.take_append_drop, List.length_take_of_le hbytes_length] at hnull

/-- Behind a CR in front of a name. -/
theorem parseHeader_afterCr (hr : r.state = .hdAlmostDone) (b : Buffer) :
    (parseHeader r b).1 = match b.bytes.drop b.begin with
      | [] => .again
      | c :: _ => if c = lf then .ok else .error := by
  unfold parseHeader headerResult
  cases b.bytes.drop b.begin with
  | nil => rfl
  | cons c rest =>
      by_cases hc : c = lf
      · have hbody : headerBody r (b.bytes.take b.begin) c = (c, .stop .ok r) := by
          simp only [headerBody, hr, if_pos hc]
        rw [scan_stop hbody]
        simp [hc]
      · have hbody : headerBody r (b.bytes.take b.begin) c = (c, .stop .error r) := by
          simp only [headerBody, hr, if_neg hc]
        rw [scan_stop hbody]
        simp [hc]

/-- **One read**: the loop, entered inside a line or in front of one, writes
through `NULL` exactly then. -/
theorem headersLoop_nullRead_iff (h : Open r) (hdone : r.responseDone = false)
    (hb : b.begin ≤ b.bytes.length) (m : List UInt8) :
    headersLoop r b m = .error .null ↔ NullRead r b m := by
  by_cases hr : r.state = .hdBegin
  · have hbegin : (b.bytes.take b.begin).length = b.begin := List.length_take_of_le hb
    have hnull := headersLoop_null_iff hr hdone (b.bytes.take b.begin) (b.bytes.drop b.begin) m
    rw [List.take_append_drop, hbegin] at hnull
    refine hnull.trans ⟨.start hr, fun hread => ?_⟩
    cases hread with
    | start _ hx => exact hx
    | cr hr' => rw [hr] at hr'; cases hr'
    | line hx hl =>
        cases hl with
        | beforeValue hr' => rw [hr] at hr'; rcases hr' with hr' | hr' <;> cases hr'
        | inName hr' | bare hr' | inValue hr' | atEnd hr' => rw [hr] at hr'; cases hr'
  rcases hcall : parseHeader r b with ⟨ret, r', b'⟩
  obtain ⟨hname, hok⟩ := parseHeader_inside hr hcall
  rw [List.length_take_of_le hb] at hok
  constructor
  · intro hnull
    cases ret with
    | again =>
        rw [headersLoop_again hdone hcall] at hnull
        cases hnull
    | ok =>
        obtain ⟨y, y', rest, name, value, hx, hl⟩ := hok.mp rfl
        obtain ⟨r₁, hcall₁, -, hname₁, hvalue₁, hdone₁⟩ := hl.call hb hx
        by_cases hnone : name.c = none
        · rw [headersLoop_blank hdone hcall₁ (hname₁ ▸ hnone)] at hnull
          cases hnull
        rcases Int.lt_or_le name.len 0 with hneg | hlen
        · rw [headersLoop_eq hdone, hcall₁] at hnull
          simp only [hname₁, if_neg hnone, handleHeader_negative (r := r₁) (hname₁ ▸ hneg)] at hnull
          cases hnull
        by_cases hvalue : Refused (b.bytes.take b.begin ++ y' ++ rest ++ m) name value
        · subst hname₁ hvalue₁
          obtain ⟨r₂, m₂, hline, hanswers⟩ := handleHeader_ended hnone hlen (hl.valued h) (hdone₁.trans hdone)
            ⟨b.bytes.take b.begin ++ y' ++ rest, b.begin + y.length⟩ m
          rw [headersLoop_line hdone hcall₁ hnone hline, headersLoop_done (hanswers.mpr hvalue)] at hnull
          cases hnull
        · exact .line hx hl hnone hlen hvalue ((hl.loop_null_iff h hdone hb hx hnone hlen m hvalue).mp hnull)
    | error | invalidRequest =>
        by_cases hnone : r.headerName.c = none
        · have hstate : r.state = .hdAlmostDone := by
            by_contra hne
            exact h.name hr hne hnone
          have hret := parseHeader_afterCr hstate b
          rw [hcall] at hret
          cases hx : b.bytes.drop b.begin with
          | nil =>
              rw [hx] at hret
              cases hret
          | cons c rest =>
              rw [hx] at hret
              refine .cr hstate hnone hx fun hc => ?_
              rw [hc] at hret
              cases hret
        · obtain ⟨c, hc⟩ := Option.ne_none_iff_exists'.mp (hname ▸ hnone)
          obtain ⟨b₁, m₁, hterm⟩ := terminate_some hc b' m
          rw [headersLoop_eq hdone, hcall] at hnull
          simp only [hterm] at hnull
          cases hnull
  · intro hread
    cases hread with
    | start hr' => exact absurd hr' hr
    | cr hstate hnone hx hc =>
        have hret := parseHeader_afterCr hstate b
        rw [hcall, hx] at hret
        have herror : ret = .error := hret.trans (if_neg hc)
        subst herror
        rw [headersLoop_error hdone hcall, terminate_none (hname.trans hnone)]
        rfl
    | line hx hl hnone hlen hvalue hrest =>
        exact (hl.loop_null_iff h hdone hb hx hnone hlen m hvalue).mpr hrest

/-! ## runs -/

/-- What holds in front of every event of a run. -/
def EveryEvent (P : HeadersConn → HeaderEvent → Prop) : List HeaderEvent → HeadersConn → Prop
  | [], _ => True
  | event :: events, c =>
      P c event ∧ ∀ c', c.event event = .ok c' → c'.status = .waiting → EveryEvent P events c'

/-- A read of a request that is not answered yet, with such bytes. -/
def HeadersConn.NullEvent (c : HeadersConn) (event : HeaderEvent) : Prop :=
  ∃ sent, event = .wake (.readable sent) ∧ c.r.responseDone = false ∧
    NullRead c.r (c.b.recv sent) (c.behind.drop ((c.b.recv sent).bytes.length - c.b.bytes.length))

/-- `http_proxy_pass` clears the buffer in front of a line only. -/
def HeadersConn.ClearsBetween (c : HeadersConn) (event : HeaderEvent) : Prop :=
  event = .proxyPass → c.r.state = .hdBegin

theorem recv_begin {b : Buffer} (hb : b.begin ≤ b.bytes.length) (sent : List UInt8) :
    (b.recv sent).begin ≤ (b.recv sent).bytes.length := by
  rw [Buffer.recv, List.length_append]
  exact Nat.le_add_right_of_le hb

theorem event_null_iff {c : HeadersConn} (h : Open c.r) (hb : c.b.begin ≤ c.b.bytes.length)
    (event : HeaderEvent) :
    c.event event = .error .null ↔ c.NullEvent event := by
  rcases event with wake | _ | _
  · cases wake with
    | timedout | closed =>
        exact iff_of_false (by simp [HeadersConn.event, httpParseHeaders]) (by simp [HeadersConn.NullEvent])
    | readable sent =>
        by_cases hdone : c.r.responseDone = true
        · refine iff_of_false ?_ (by simp [HeadersConn.NullEvent, hdone])
          rw [HeadersConn.event, httpParseHeaders, headersLoop_done hdone]
          simp
        · have hdone : c.r.responseDone = false := eq_false_of_ne_true hdone
          refine (headersLoop_nullRead_iff h hdone (recv_begin hb sent) _).trans
            ⟨fun hn => ⟨sent, rfl, hdone, hn⟩, ?_⟩
          rintro ⟨_, ⟨⟩, -, hn⟩
          exact hn
  · exact iff_of_false (by simp [HeadersConn.event]) (by simp [HeadersConn.NullEvent])
  · exact iff_of_false (by simp [HeadersConn.event]) (by simp [HeadersConn.NullEvent])

theorem event_open {c c' : HeadersConn} {event : HeaderEvent} (h : Open c.r)
    (hb : c.b.begin ≤ c.b.bytes.length) (hevent : c.event event = .ok c')
    (hwaits : c'.status = .waiting) : Open c'.r ∧ c'.b.begin ≤ c'.b.bytes.length := by
  rcases event with wake | _ | _
  · cases wake with
    | timedout | closed =>
        cases hevent
        cases hwaits
    | readable sent =>
        exact ⟨headersLoop_open h hevent hwaits, (headersLoop_parsed hevent).begins (recv_begin hb sent)⟩
  · cases hevent
    exact ⟨h, Nat.le_refl _⟩
  · cases hevent
    exact ⟨⟨h.name, h.bare, h.value⟩, hb⟩

/-- A run writes through `NULL` when one of its reads does. -/
theorem headersRun_null_iff (events : List HeaderEvent) :
    ∀ {c : HeadersConn}, Open c.r → c.b.begin ≤ c.b.bytes.length →
      (headersRun events c ≠ .error .null ↔ EveryEvent (fun c event => ¬ c.NullEvent event) events c) := by
  induction events with
  | nil =>
      intro c h hb
      exact iff_of_true (by simp [headersRun]) trivial
  | cons event events ih =>
      intro c h hb
      have hnull := event_null_iff h hb event
      rw [headersRun, EveryEvent, ← hnull]
      cases hevent : c.event event with
      | error f => simp [bind, Except.bind]
      | ok c' =>
          simp only [bind, Except.bind, reduceCtorEq, not_false_eq_true, true_and, Except.ok.injEq, forall_eq']
          by_cases hwaits : c'.status = .waiting
          · obtain ⟨h', hb'⟩ := event_open h hb hevent hwaits
            rw [if_pos hwaits, ih h' hb']
            simp [hwaits]
          · simp [hwaits, pure, Except.pure]

/-! ## runs without a clear inside a line -/

/-- One read in the middle of a line, when the rest of the run is known to fail
on such streams only. -/
theorem headersLoop_read {next : HeadersConn → Except Fault HeadersConn} (ys zs m : List UInt8)
    (hq : q.state = .hdBegin) (hdone : q.responseDone = false)
    (h : HeaderPrefix q pre.length w w' r)
    (hnext : ∀ {q' : HttpRequest} {pre' t t' m' : List UInt8} {r' : HttpRequest},
      q'.state = .hdBegin → q'.responseDone = false → HeaderPrefix q' pre'.length t t' r' →
      (pre' ++ t').length = (pre ++ w').length + ys.length →
      headersLoop r ⟨pre ++ w' ++ ys, (pre ++ w').length⟩ m =
        .ok ⟨.waiting, r', ⟨pre' ++ t', (pre' ++ t').length⟩, m'⟩ →
      (next ⟨.waiting, r', ⟨pre' ++ t', (pre' ++ t').length⟩, m'⟩ = .error .null ↔
        NullStream (t ++ zs))) :
    (headersLoop r ⟨pre ++ w' ++ ys, (pre ++ w').length⟩ m >>= fun c =>
        if c.status = .waiting then next c else pure c) = .error .null ↔
      NullStream (w ++ ys ++ zs) := by
  have hresume := headersLoop_resume hq hdone h ys m
  obtain ⟨s, t, hst, hs, ht⟩ := stream_cases (w ++ ys)
  obtain ⟨q', l', hwritten, hq', hdone', hloop⟩ := hs.loop hq hdone pre t m
  have hlen := hwritten.length
  rw [hst, hloop] at hresume
  rw [hst, List.append_assoc s t zs, hs.nullStream_iff]
  rcases ht with ht | ⟨l, rest, null, rfl, hend⟩
  · obtain ⟨t', r', hfront⟩ := ht q' (pre ++ l').length
    have hwait := headersLoop_again (m := m) hdone' (parseHeader_again hq' hfront)
    rw [hwait] at hresume
    obtain heq | ⟨d, d', -, heq, -, hclosed⟩ := hresume
    · rw [heq]
      refine hnext hq' hdone' hfront ?_ heq
      have hlength := congrArg List.length hst
      simp only [List.length_append, hfront.length, h.length, hlen] at hlength ⊢
      omega
    · cases heq
      cases hclosed
  · have hres := hend.loop hq' hdone' (pre ++ l') rest m
    have hall := hend.loop hq' hdone' (pre ++ l') (rest ++ zs) m
    rw [List.append_assoc l rest zs, ← headersLoop_null_iff hq' hdone' (pre ++ l') _ m]
    cases null with
    | true =>
        obtain heq | ⟨d, d', -, heq, -⟩ := hresume
        · rw [heq, hres]
          exact iff_of_true rfl hall
        · rw [hres] at heq
          cases heq
    | false =>
        obtain ⟨c, hc, hstatus⟩ := hres
        obtain ⟨c', hc', -⟩ := hall
        refine iff_of_false ?_ (by rw [hc']; simp)
        obtain heq | ⟨d, d', heq, -, hclosed, -⟩ := hresume
        · rw [heq, hc]
          simp [bind, Except.bind, hstatus, pure, Except.pure]
        · rw [heq]
          simp [bind, Except.bind, hclosed, pure, Except.pure]

/-- A request that has been answered is not read any more. -/
theorem headersRun_done (events : List HeaderEvent) :
    ∀ {c : HeadersConn}, c.r.responseDone = true → headersRun events c ≠ .error .null := by
  induction events with
  | nil => simp [headersRun]
  | cons event events ih =>
      intro c hdone
      rcases event with wake | _ | _
      · cases wake with
        | timedout | closed =>
            simp [headersRun, HeadersConn.event, httpParseHeaders, bind, Except.bind, pure, Except.pure]
        | readable sent =>
            rw [headersRun, HeadersConn.event, httpParseHeaders, headersLoop_done hdone]
            simp [bind, Except.bind, pure, Except.pure]
      · simp only [headersRun, HeadersConn.event, bind, Except.bind]
        split_ifs
        · exact ih hdone
        · simp [pure, Except.pure]
      · simp only [headersRun, HeadersConn.event, bind, Except.bind]
        split_ifs
        · exact ih rfl
        · simp [pure, Except.pure]

/-- The run from the middle of a line on. -/
theorem headersRun_midLine (events : List HeaderEvent) :
    ∀ {q : HttpRequest} {pre w w' : List UInt8} {r : HttpRequest} {m : List UInt8}, q.state = .hdBegin →
      q.responseDone = false → HeaderPrefix q pre.length w w' r →
        EveryEvent HeadersConn.ClearsBetween events ⟨.waiting, r, ⟨pre ++ w', (pre ++ w').length⟩, m⟩ →
        (headersRun events ⟨.waiting, r, ⟨pre ++ w', (pre ++ w').length⟩, m⟩ = .error .null ↔
          NullStream (w ++ receivedBy (pre ++ w').length events)) := by
  induction events with
  | nil =>
      intro q pre w w' r m _ _ h _
      refine iff_of_false (by simp [headersRun]) ?_
      simpa [receivedBy] using h.not_nullStream
  | cons event events ih =>
      intro q pre w w' r m hq hdone h hclears
      obtain ⟨hclear, hafter⟩ := hclears
      rcases event with wake | _ | _
      · cases wake with
        | timedout | closed =>
            refine iff_of_false
              (by simp [headersRun, HeadersConn.event, httpParseHeaders, bind, Except.bind, pure, Except.pure]) ?_
            simpa [receivedBy] using h.not_nullStream
        | readable sent =>
            have hread := headersLoop_read (sent.take (bufSize - (pre ++ w').length))
              (receivedBy ((pre ++ w').length + (sent.take (bufSize - (pre ++ w').length)).length) events)
              (m.drop ((pre ++ w' ++ sent.take (bufSize - (pre ++ w').length)).length - (pre ++ w').length))
              hq hdone h (fun {q' pre' t t' m' r'} hq' hdone' h' hlen hloop => by
                rw [ih hq' hdone' h' (hafter _ hloop rfl), hlen])
            rw [List.append_assoc w] at hread
            exact hread
      · -- the buffer is cleared in front of a line
        have hstate : r.state = .hdBegin := hclear rfl
        have hopen : r.responseDone = false := h.responseDone.trans hdone
        have hnext := @ih r [] [] [] r (pre ++ w' ++ m) hstate hopen .start (hafter _ rfl rfl)
        have hspaces : ∃ k, w = spaces k := by
          cases h with
          | start => exact ⟨0, rfl⟩
          | blanks k => exact ⟨k + 1, rfl⟩
          | blankCr | name | nameCr | nameSpace | colon | beforeValue | value | valueCr => cases hstate
        obtain ⟨k, rfl⟩ := hspaces
        rw [nullStream_spaces]
        exact hnext
      · refine iff_of_false ?_ (by simpa [receivedBy] using h.not_nullStream)
        simp only [headersRun, HeadersConn.event, bind, Except.bind, if_true]
        exact headersRun_done events rfl

/-- The run from the start of the header, with what came behind the request
line already in the buffer. -/
theorem headersRun_start (hq : q.state = .hdBegin) (hdone : q.responseDone = false)
    (line rest sent m : List UInt8) (events : List HeaderEvent)
    (hclears : EveryEvent HeadersConn.ClearsBetween (.wake (.readable sent) :: events)
      ⟨.waiting, q, ⟨line ++ rest, line.length⟩, m⟩) :
    headersRun (.wake (.readable sent) :: events) ⟨.waiting, q, ⟨line ++ rest, line.length⟩, m⟩ = .error .null ↔
      NullStream (rest ++ receivedBy (line ++ rest).length (.wake (.readable sent) :: events)) := by
  have hread := headersLoop_read (rest ++ sent.take (bufSize - (line ++ rest).length))
    (receivedBy ((line ++ rest).length + (sent.take (bufSize - (line ++ rest).length)).length) events)
    (m.drop ((line ++ rest ++ sent.take (bufSize - (line ++ rest).length)).length - (line ++ rest).length))
    hq hdone (.start (o := line.length)) (fun {q' pre' t t' m' r'} hq' hdone' h' hlen hloop => by
      rw [List.append_nil, ← List.append_assoc] at hloop
      rw [headersRun_midLine events hq' hdone' h' (hclears.2 _ hloop rfl), hlen]
      simp only [List.length_append, List.length_nil, Nat.add_zero, Nat.add_assoc])
  rw [List.nil_append, List.append_assoc rest, List.append_nil, ← List.append_assoc line] at hread
  exact hread

/-- The request behind its request line, as `ngx_http_process_request_line`
hands it over. -/
def HttpRequest.beginHeader (base : HttpRequest) : HttpRequest := { base with state := .hdBegin }

/-- Its connection: `rest` came with the line, `m` lies behind the end. -/
def headersBegin (base : HttpRequest) (line rest m : List UInt8) : HeadersConn :=
  ⟨.waiting, base.beginHeader, ⟨line ++ rest, line.length⟩, m⟩

/-- **The header and the write through `NULL`**: behind a request line, over any
number of reads with the back end's write events and the answers of other
handlers in between, `http_parse_headers` ends only names that have begun, unless
one of the reads is a `NullEvent`.  While the buffer is cleared in front of lines
only, that is a matter of the stream: the request is not answered yet, the first
read succeeds and the bytes are wrong in front of a name. -/
theorem headersRun_safe_iff (base : HttpRequest) (line rest m : List UInt8) (wake : Wake)
    (events : List HeaderEvent) :
    (headersRun (.wake wake :: events) (headersBegin base line rest m) ≠ .error .null ↔
        EveryEvent (fun c event => ¬ c.NullEvent event) (.wake wake :: events)
          (headersBegin base line rest m)) ∧
      (EveryEvent HeadersConn.ClearsBetween (.wake wake :: events) (headersBegin base line rest m) →
        (headersRun (.wake wake :: events) (headersBegin base line rest m) ≠ .error .null ↔
          ¬ (base.responseDone = false ∧ (∃ sent, wake = .readable sent) ∧
            NullStream (rest ++ receivedBy (line ++ rest).length (.wake wake :: events))))) := by
  refine ⟨headersRun_null_iff _ (.start rfl) (by simp [headersBegin]), fun hclears => not_congr ?_⟩
  cases wake with
  | timedout | closed =>
      refine iff_of_false ?_ (by simp)
      simp [headersRun, HeadersConn.event, httpParseHeaders, bind, Except.bind, pure, Except.pure]
  | readable sent =>
      by_cases hdone : base.responseDone = true
      · exact iff_of_false (headersRun_done _ hdone) (by simp [hdone])
      · have hdone : base.responseDone = false := eq_false_of_ne_true hdone
        refine (headersRun_start (q := base.beginHeader) rfl hdone line rest sent m events hclears).trans ?_
        exact ⟨fun h => ⟨hdone, ⟨_, rfl⟩, h⟩, fun h => h.2.2⟩

/-- `GET / HTTP/1.1` and the end of its line. -/
def plainGet : List UInt8 :=
  text ['G', 'E', 'T', ' ', '/', ' ', 'H', 'T', 'T', 'P', '/', '1', '.', '1', '\r', '\n']

-- the line that is open when the buffer is cleared ends in the next read, and the one behind it is wrong
example : (headersRun [.wake (.readable (text ['A', ':', 'x'])), .proxyPass, .wake (.readable [cr, lf, colon])]
    (headersBegin {} plainGet [] [])).map (fun _ => ()) = .error .null := by decide +kernel

/-- A colon that stands in front of any name. -/
theorem nullStream_colon (rest : List UInt8) : NullStream (colon :: rest) :=
  ⟨[], [colon], rest, rfl, .nil, .junk 0 (by decide) (by decide) (by decide) (by decide)⟩

/-- A line that begins with its colon, behind a buffer that was cleared. -/
theorem headersRun_afterClear :
    headersRun [.wake (.readable []), .proxyPass, .wake (.readable [colon])]
      (headersBegin {} plainGet [] []) = .error .null := by
  have hclears : EveryEvent HeadersConn.ClearsBetween
      [.wake (.readable []), .proxyPass, .wake (.readable [colon])] (headersBegin {} plainGet [] []) := by
    refine ⟨fun h => (by cases h), fun c hc _ => ⟨fun _ => ?_, fun _ _ _ => ?_⟩⟩
    swap
    · exact ⟨fun h => (by cases h), fun _ _ _ => trivial⟩
    have hread := (headersLoop_again (r := HttpRequest.beginHeader {}) rfl rfl).symm.trans hc
    cases hread
    rfl
  have hsafe := (headersRun_safe_iff {} plainGet [] [] (.readable [])
    [.proxyPass, .wake (.readable [colon])]).2 hclears
  exact (not_iff_not.mp hsafe).mpr ⟨rfl, ⟨_, rfl⟩, nullStream_colon []⟩

/-- `GET / HTTP/1.1` and a line that begins with its colon. -/
theorem headersRun_colonLine :
    headersRun [.wake (.readable [colon, cr, lf])] (headersBegin {} plainGet [] []) = .error .null :=
  (headersRun_start (q := HttpRequest.beginHeader {}) rfl rfl _ [] [colon, cr, lf] [] []
    ⟨fun h => (by cases h), fun _ _ _ => trivial⟩).mpr (nullStream_colon [cr, lf])

end PWebServer
