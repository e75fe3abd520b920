import PWebServer.Http.RequestLine

/-!
# Http.UriGrammar

The texts `parse_uri` reads without an error, with the slices it has set by
then: `UriPrefix` has one constructor for each state of the machine, and
`uriPrefix_iff` says that it is exactly what a run of the machine reaches.
-/

namespace PWebServer

open Scan

/-! ## words -/

/-- A non-empty text: a byte of one class, then bytes of another. -/
def Word (first rest : UInt8 → Bool) : List UInt8 → Prop
  | [] => False
  | c :: cs => first c = true ∧ ∀ x ∈ cs, rest x = true

instance (first rest : UInt8 → Bool) : ∀ w, Decidable (Word first rest w)
  | [] => inferInstanceAs (Decidable False)
  | c :: cs => inferInstanceAs (Decidable (first c = true ∧ ∀ x ∈ cs, rest x = true))

theorem Word.single (h : first c = true) : Word first rest [c] := ⟨h, by simp⟩

theorem Word.snoc (h : Word first rest w) (hc : rest c = true) : Word first rest (w ++ [c]) := by
  cases w with
  | nil => exact h.elim
  | cons x xs =>
      refine ⟨h.1, fun y hy => ?_⟩
      rcases List.mem_append.mp hy with hy | hy
      · exact h.2 y hy
      · rwa [List.mem_singleton.mp hy]

theorem Word.ne_nil (h : Word first rest w) : w ≠ [] := by
  rintro rfl
  exact h

/-- A scheme. -/
abbrev SchemeWord : List UInt8 → Prop := Word isAlpha allowedInScheme

/-- A host. -/
abbrev HostWord : List UInt8 → Prop := Word (fun c => isAlpha c || isDigit c) allowedInHost

/-- The digits of a port. -/
def Digits (d : List UInt8) : Prop := ∀ c ∈ d, isDigit c = true

/-- What the missing `default` lets through inside a path. -/
def passedInAbsPath (c : UInt8) : Bool := decide (c ≠ dot) && decide (c ≠ question)

theorem passedInAbsPath_of_allowed (h : allowedInAbsPath c = true) : passedInAbsPath c = true := by
  have hdot : c ≠ dot := by
    rintro rfl
    exact absurd h (by decide)
  have hquestion : c ≠ question := by
    rintro rfl
    exact absurd h (by decide)
  simp [passedInAbsPath, hdot, hquestion]

/-- A path, as the machine reads it. -/
abbrev PathWord : List UInt8 → Prop := Word allowedInAbsPath passedInAbsPath

/-- The letters of an extension. -/
abbrev ExtensionWord : List UInt8 → Prop := Word isAlpha isAlpha

/-- A query. -/
abbrev QueryWord : List UInt8 → Prop := Word allowedInQuery allowedInQuery

/-! ## prefixes of a URI -/

/-- What may stand before the path of a URI that begins at `a`, with the
slices it leaves. -/
inductive Origin (a : Nat) : List UInt8 → Uri → Prop
  | none : Origin a [] {}
  | host {s h : List UInt8} (hs : SchemeWord s) (hh : HostWord h) :
      Origin a (s ++ colon :: slash :: slash :: h)
        { scheme := ⟨some a, s.length⟩, host := ⟨some (a + s.length + 3), h.length⟩ }
  | port {s h d : List UInt8} (hs : SchemeWord s) (hh : HostWord h) (hd : Digits d) :
      Origin a (s ++ colon :: slash :: slash :: (h ++ colon :: d))
        { scheme := ⟨some a, s.length⟩
          host := ⟨some (a + s.length + 3), h.length⟩
          port := ⟨some (a + s.length + 3 + h.length + 1), d.length⟩ }

/-- What may stand before a query.  The length of a path that a query follows
at once is not set. -/
inductive Target (a : Nat) : List UInt8 → Uri → Prop
  | path {o p : List UInt8} {uri : Uri} (ho : Origin a o uri) (hp : PathWord p) :
      Target a (o ++ slash :: p) { uri with absPath := ⟨some (a + o.length + 1), 0⟩ }
  | extension {o p e : List UInt8} {uri : Uri} (ho : Origin a o uri) (hp : PathWord p)
      (he : ExtensionWord e) :
      Target a (o ++ slash :: (p ++ dot :: e))
        { uri with
          absPath := ⟨some (a + o.length + 1), p.length⟩
          extensionStr := ⟨some (a + o.length + 1 + p.length + 1), e.length⟩ }

/-- The text read so far of a URI that begins at `a`, with the machine that
has read it. -/
inductive UriPrefix (a : Nat) : List UInt8 → Uri → Prop
  | start : UriPrefix a [] {}
  | scheme {s : List UInt8} (hs : SchemeWord s) :
      UriPrefix a s { state := .uriScheme, scheme := ⟨some a, 0⟩ }
  | schemeColon {s : List UInt8} (hs : SchemeWord s) :
      UriPrefix a (s ++ [colon]) { state := .uriSchemeColon, scheme := ⟨some a, s.length⟩ }
  | slashAfterScheme {s : List UInt8} (hs : SchemeWord s) :
      UriPrefix a (s ++ [colon, slash])
        { state := .uriSlashAfterScheme, scheme := ⟨some a, s.length⟩ }
  | slashSlashAfterScheme {s : List UInt8} (hs : SchemeWord s) :
      UriPrefix a (s ++ [colon, slash, slash])
        { state := .uriSlashSlashAfterScheme, scheme := ⟨some a, s.length⟩ }
  | host {s h : List UInt8} (hs : SchemeWord s) (hh : HostWord h) :
      UriPrefix a (s ++ colon :: slash :: slash :: h)
        { state := .uriHost, scheme := ⟨some a, s.length⟩, host := ⟨some (a + s.length + 3), 0⟩ }
  | port {s h d : List UInt8} (hs : SchemeWord s) (hh : HostWord h) (hd : Digits d) :
      UriPrefix a (s ++ colon :: slash :: slash :: (h ++ colon :: d))
        { state := .uriPort
          scheme := ⟨some a, s.length⟩
          host := ⟨some (a + s.length + 3), h.length⟩
          port := ⟨some (a + s.length + 3 + h.length), 0⟩ }
  | slashBeforeAbsPath {o : List UInt8} {uri : Uri} (ho : Origin a o uri) :
      UriPrefix a (o ++ [slash]) { uri with state := .uriSlashBeforeAbsPath }
  | absPath {o p : List UInt8} {uri : Uri} (ho : Origin a o uri) (hp : PathWord p) :
      UriPrefix a (o ++ slash :: p)
        { uri with state := .uriAbsPath, absPath := ⟨some (a + o.length + 1), 0⟩ }
  | beforeExtension {o p : List UInt8} {uri : Uri} (ho : Origin a o uri) (hp : PathWord p) :
      UriPrefix a (o ++ slash :: (p ++ [dot]))
        { uri with state := .uriBeforeExtension, absPath := ⟨some (a + o.length + 1), p.length⟩ }
  | extension {o p e : List UInt8} {uri : Uri} (ho : Origin a o uri) (hp : PathWord p)
      (he : ExtensionWord e) :
      UriPrefix a (o ++ slash :: (p ++ dot :: e))
        { uri with
          state := .uriExtension
          absPath := ⟨some (a + o.length + 1), p.length⟩
          extensionStr := ⟨some (a + o.length + 1 + p.length + 1), 0⟩ }
  | beforeQuery {t : List UInt8} {uri : Uri} (ht : Target a t uri) :
      UriPrefix a (t ++ [question]) { uri with state := .uriBeforeQuery }
  | query {t q : List UInt8} {uri : Uri} (ht : Target a t uri) (hq : QueryWord q) :
      UriPrefix a (t ++ question :: q)
        { uri with state := .uriQuery, query := ⟨some (a + t.length + 1), 0⟩ }

/-! ## one byte -/

/-- Before the path the slices of what comes later are untouched. -/
theorem Origin.untouched (h : Origin a o uri) :
    uri.state = .uriBegin ∧ uri.absPath = {} ∧ uri.extensionStr = {} ∧ uri.query = {} := by
  cases h <;> simp

theorem Target.query_eq (ht : Target a t uri) : uri.query = {} := by
  cases ht with
  | path ho => simp [ho.untouched.2.2.2]
  | extension ho => simp [ho.untouched.2.2.2]

/-- `p - s.c` when `p` is `n` bytes on. -/
theorem Str.upTo_eq {c p : Nat} {len : Int} (h : p = c + n) :
    Str.upTo ⟨some c, len⟩ p = n := by
  simp only [Str.upTo, Option.getD_some, h]
  omega

/-- One more byte that `parse_uri` takes. -/
theorem UriPrefix.step (h : UriPrefix a w uri) (hok : parseUri uri (a + w.length) c = (.ok, uri')) :
    UriPrefix a (w ++ [c]) uri' := by
  cases h with
  | start =>
      simp only [parseUri] at hok
      split_ifs at hok with hslash halpha <;> cases hok
      · subst hslash
        exact .slashBeforeAbsPath .none
      · exact .scheme (.single halpha)
  | scheme hs =>
      simp only [parseUri] at hok
      split_ifs at hok with hin hcolon <;> cases hok
      · exact .scheme (hs.snoc hin)
      · subst hcolon
        rw [Str.upTo_eq rfl]
        exact .schemeColon hs
  | schemeColon hs =>
      simp only [parseUri] at hok
      split_ifs at hok with hslash <;> cases hok
      subst hslash
      simpa using UriPrefix.slashAfterScheme (a := a) hs
  | slashAfterScheme hs =>
      simp only [parseUri] at hok
      split_ifs at hok with hslash <;> cases hok
      subst hslash
      simpa using UriPrefix.slashSlashAfterScheme (a := a) hs
  | @slashSlashAfterScheme s hs =>
      simp only [parseUri] at hok
      split_ifs at hok with hin <;> cases hok
      have hpos : a + (s ++ [colon, slash, slash]).length = a + s.length + 3 := by simp; omega
      rw [hpos]
      simpa using UriPrefix.host (a := a) hs (.single hin)
  | @host s h hs hh =>
      simp only [parseUri] at hok
      have hpos : a + (s ++ colon :: slash :: slash :: h).length = a + s.length + 3 + h.length := by
        simp; omega
      rw [hpos] at hok
      split_ifs at hok with hin hcolon hslash <;> cases hok
      · simpa using UriPrefix.host (a := a) hs (hh.snoc hin)
      · subst hcolon
        rw [Str.upTo_eq rfl]
        simpa using UriPrefix.port (a := a) (d := []) hs hh (by simp [Digits])
      · subst hslash
        rw [Str.upTo_eq rfl]
        simpa using UriPrefix.slashBeforeAbsPath (.host (a := a) hs hh)
  | @port s h d hs hh hd =>
      simp only [parseUri, Option.map_some] at hok
      have hpos : a + (s ++ colon :: slash :: slash :: (h ++ colon :: d)).length =
          a + s.length + 3 + h.length + 1 + d.length := by
        simp; omega
      rw [hpos] at hok
      split_ifs at hok with hin hslash <;> cases hok
      · have hd' : Digits (d ++ [c]) := by
          intro x hx
          rcases List.mem_append.mp hx with hx | hx
          · exact hd x hx
          · rwa [List.mem_singleton.mp hx]
        simpa using UriPrefix.port (a := a) hs hh hd'
      · subst hslash
        rw [Str.upTo_eq rfl]
        simpa using UriPrefix.slashBeforeAbsPath (.port (a := a) hs hh hd)
  | @slashBeforeAbsPath o uri ho =>
      simp only [parseUri] at hok
      split_ifs at hok with hin <;> cases hok
      have hpos : a + (o ++ [slash]).length = a + o.length + 1 := by simp; omega
      rw [ho.untouched.2.1, hpos]
      simpa using UriPrefix.absPath ho (.single hin)
  | @absPath o p uri ho hp =>
      simp only [parseUri] at hok
      have hpos : a + (o ++ slash :: p).length = a + o.length + 1 + p.length := by simp; omega
      rw [hpos] at hok
      split_ifs at hok with hin hdot hquestion <;> cases hok
      · simpa using UriPrefix.absPath ho (hp.snoc (passedInAbsPath_of_allowed hin))
      · subst hdot
        rw [Str.upTo_eq rfl]
        simpa using UriPrefix.beforeExtension ho hp
      · subst hquestion
        simpa using UriPrefix.beforeQuery (.path ho hp)
      · have hpass : passedInAbsPath c = true := by
          simp [passedInAbsPath, hdot, hquestion]
        simpa using UriPrefix.absPath ho (hp.snoc hpass)
  | @beforeExtension o p uri ho hp =>
      simp only [parseUri] at hok
      split_ifs at hok with hin <;> cases hok
      have hpos : a + (o ++ slash :: (p ++ [dot])).length = a + o.length + 1 + p.length + 1 := by
        simp; omega
      rw [ho.untouched.2.2.1, hpos]
      simpa using UriPrefix.extension ho hp (.single hin)
  | @extension o p e uri ho hp he =>
      simp only [parseUri] at hok
      have hpos : a + (o ++ slash :: (p ++ dot :: e)).length =
          a + o.length + 1 + p.length + 1 + e.length := by
        simp; omega
      rw [hpos] at hok
      split_ifs at hok with hin hquestion <;> cases hok
      · simpa using UriPrefix.extension ho hp (he.snoc hin)
      · subst hquestion
        rw [Str.upTo_eq rfl]
        simpa using UriPrefix.beforeQuery (.extension ho hp he)
  | @beforeQuery t uri ht =>
      simp only [parseUri] at hok
      split_ifs at hok with hin <;> cases hok
      have hpos : a + (t ++ [question]).length = a + t.length + 1 := by simp; omega
      rw [ht.query_eq, hpos]
      simpa using UriPrefix.query ht (.single hin)
  | query ht hq =>
      simp only [parseUri] at hok
      split_ifs at hok with hin <;> cases hok
      simpa using UriPrefix.query ht (hq.snoc hin)

/-! ## runs -/

/-- `parse_uri` as the body of a scan, for a URI that begins at `a`. -/
def uriBody (a : Nat) (uri : Uri) (before : List UInt8) (ch : UInt8) : UInt8 × Next Uri Ret :=
  (ch, match parseUri uri (a + before.length) ch with
    | (.ok, uri) => .go uri
    | (err, uri) => .stop err uri)

/-- A fresh `uri_t` becomes `uri` over the text `w` that begins at `a`. -/
def UriReach (a : Nat) (w : List UInt8) (uri : Uri) : Prop := Reads (uriBody a) {} w uri

theorem uriBody_go (h : parseUri uri (a + before.length) c = (.ok, uri')) :
    uriBody a uri before c = (c, .go uri') := by
  simp [uriBody, h]

theorem uriBody_cases (h : uriBody a uri before c = (c', .go uri')) :
    c' = c ∧ parseUri uri (a + before.length) c = (.ok, uri') := by
  unfold uriBody at h
  split at h <;> simp only [Prod.mk.injEq, Next.go.injEq, reduceCtorEq, and_false] at h
  next uri'' hok =>
    obtain ⟨rfl, rfl⟩ := h
    exact ⟨rfl, hok⟩

theorem UriReach.byte (h : UriReach a w uri) (hc : parseUri uri (a + w.length) c = (.ok, uri')) :
    UriReach a (w ++ [c]) uri' :=
  h.snoc (uriBody_go hc)

/-- Bytes the machine passes over. -/
theorem UriReach.loop (h : UriReach a w uri)
    (hstay : ∀ c ∈ xs, ∀ p, parseUri uri p c = (.ok, uri)) : UriReach a (w ++ xs) uri :=
  Reads.loop h fun c hc _ => uriBody_go (hstay c hc _)

/-- A word, whose first byte opens a slice. -/
theorem UriReach.word (h : UriReach a w uri) (hx : Word first rest xs)
    (hfirst : ∀ c, first c = true → parseUri uri (a + w.length) c = (.ok, uri'))
    (hrest : ∀ c p, rest c = true → parseUri uri' p c = (.ok, uri')) :
    UriReach a (w ++ xs) uri' := by
  cases xs with
  | nil => exact hx.elim
  | cons c cs =>
      exact Reads.word h (uriBody_go (hfirst c hx.1)) fun x hcs _ =>
        uriBody_go (hrest x _ (hx.2 x hcs))

theorem UriReach.scheme (hs : SchemeWord s) :
    UriReach a s { state := .uriScheme, scheme := ⟨some a, 0⟩ } := by
  have hstart : UriReach a [] {} := .nil _
  refine hstart.word hs (fun c hc => ?_) fun c p hc => by simp [parseUri, hc]
  have hslash : c ≠ slash := by
    rintro rfl
    exact absurd hc (by decide)
  simp [parseUri, hc, hslash]

theorem UriReach.schemeColon (hs : SchemeWord s) :
    UriReach a (s ++ [colon]) { state := .uriSchemeColon, scheme := ⟨some a, s.length⟩ } := by
  refine (UriReach.scheme hs).byte ?_
  simp [parseUri, show allowedInScheme colon = false by decide, Str.upTo_eq rfl]

theorem UriReach.slashAfterScheme (hs : SchemeWord s) :
    UriReach a (s ++ [colon, slash])
      { state := .uriSlashAfterScheme, scheme := ⟨some a, s.length⟩ } := by
  simpa using (UriReach.schemeColon hs).byte (c := slash) (by simp [parseUri])

theorem UriReach.slashSlashAfterScheme (hs : SchemeWord s) :
    UriReach a (s ++ [colon, slash, slash])
      { state := .uriSlashSlashAfterScheme, scheme := ⟨some a, s.length⟩ } := by
  simpa using (UriReach.slashAfterScheme hs).byte (c := slash) (by simp [parseUri])

theorem UriReach.host (hs : SchemeWord s) (hh : HostWord h) :
    UriReach a (s ++ colon :: slash :: slash :: h)
      { state := .uriHost, scheme := ⟨some a, s.length⟩, host := ⟨some (a + s.length + 3), 0⟩ } := by
  have hreach : UriReach a ((s ++ [colon, slash, slash]) ++ h)
      { state := .uriHost, scheme := ⟨some a, s.length⟩
        host := ⟨some (a + s.length + 3), 0⟩ } := by
    refine (UriReach.slashSlashAfterScheme hs).word hh (fun c hc => ?_) fun c p hc => by
      simp [parseUri, hc]
    have hpos : a + (s ++ [colon, slash, slash]).length = a + s.length + 3 := by simp; omega
    simp only [parseUri, hc, if_true, hpos]
  simpa using hreach

theorem UriReach.port (hs : SchemeWord s) (hh : HostWord h) (hd : Digits d) :
    UriReach a (s ++ colon :: slash :: slash :: (h ++ colon :: d))
      { state := .uriPort
        scheme := ⟨some a, s.length⟩
        host := ⟨some (a + s.length + 3), h.length⟩
        port := ⟨some (a + s.length + 3 + h.length), 0⟩ } := by
  have hpos : a + (s ++ colon :: slash :: slash :: h).length = a + s.length + 3 + h.length := by
    simp; omega
  have hcolon : UriReach a ((s ++ colon :: slash :: slash :: h) ++ [colon])
      { state := .uriPort
        scheme := ⟨some a, s.length⟩
        host := ⟨some (a + s.length + 3), h.length⟩
        port := ⟨some (a + s.length + 3 + h.length), 0⟩ } := by
    refine (UriReach.host hs hh).byte ?_
    rw [hpos]
    simp [parseUri, show allowedInHost colon = false by decide, Str.upTo_eq rfl]
  simpa using hcolon.loop (fun c hc p => by simp [parseUri, hd c hc])

/-- The slash that opens the path. -/
theorem UriReach.slashBeforeAbsPath (ho : Origin a o uri) :
    UriReach a (o ++ [slash]) { uri with state := .uriSlashBeforeAbsPath } := by
  cases ho with
  | none =>
      have hstart : UriReach a [] {} := .nil _
      exact hstart.byte (by simp [parseUri])
  | @host s h hs hh =>
      refine (UriReach.host hs hh).byte ?_
      have hpos : a + (s ++ colon :: slash :: slash :: h).length = a + s.length + 3 + h.length := by
        simp; omega
      rw [hpos]
      simp [parseUri, show allowedInHost slash = false by decide, show slash ≠ colon by decide,
        Str.upTo_eq rfl]
  | @port s h d hs hh hd =>
      refine (UriReach.port hs hh hd).byte ?_
      have hpos : a + (s ++ colon :: slash :: slash :: (h ++ colon :: d)).length =
          a + s.length + 3 + h.length + 1 + d.length := by
        simp; omega
      rw [hpos]
      simp [parseUri, show isDigit slash = false by decide, Str.upTo_eq rfl]

theorem UriReach.absPath (ho : Origin a o uri) (hp : PathWord p) :
    UriReach a (o ++ slash :: p)
      { uri with state := .uriAbsPath, absPath := ⟨some (a + o.length + 1), 0⟩ } := by
  have hreach : UriReach a ((o ++ [slash]) ++ p)
      { uri with state := .uriAbsPath, absPath := ⟨some (a + o.length + 1), 0⟩ } := by
    refine (UriReach.slashBeforeAbsPath ho).word hp (fun c hc => ?_) fun c p hc => ?_
    · have hpos : a + (o ++ [slash]).length = a + o.length + 1 := by simp; omega
      simp only [parseUri, hc, if_true, hpos, ho.untouched.2.1]
    · obtain ⟨hdot, hquestion⟩ : c ≠ dot ∧ c ≠ question := by simpa [passedInAbsPath] using hc
      simp [parseUri, hdot, hquestion]
  simpa using hreach

theorem UriReach.beforeExtension (ho : Origin a o uri) (hp : PathWord p) :
    UriReach a (o ++ slash :: (p ++ [dot]))
      { uri with state := .uriBeforeExtension, absPath := ⟨some (a + o.length + 1), p.length⟩ } := by
  have hpos : a + (o ++ slash :: p).length = a + o.length + 1 + p.length := by simp; omega
  have hreach : UriReach a ((o ++ slash :: p) ++ [dot])
      { uri with
        state := .uriBeforeExtension, absPath := ⟨some (a + o.length + 1), p.length⟩ } := by
    refine (UriReach.absPath ho hp).byte ?_
    rw [hpos]
    simp [parseUri, show allowedInAbsPath dot = false by decide, Str.upTo_eq rfl]
  simpa using hreach

theorem UriReach.extension (ho : Origin a o uri) (hp : PathWord p) (he : ExtensionWord e) :
    UriReach a (o ++ slash :: (p ++ dot :: e))
      { uri with
        state := .uriExtension
        absPath := ⟨some (a + o.length + 1), p.length⟩
        extensionStr := ⟨some (a + o.length + 1 + p.length + 1), 0⟩ } := by
  have hreach : UriReach a ((o ++ slash :: (p ++ [dot])) ++ e)
      { uri with
        state := .uriExtension
        absPath := ⟨some (a + o.length + 1), p.length⟩
        extensionStr := ⟨some (a + o.length + 1 + p.length + 1), 0⟩ } := by
    refine (UriReach.beforeExtension ho hp).word he (fun c hc => ?_) fun c p hc => by
      simp [parseUri, hc]
    have hpos : a + (o ++ slash :: (p ++ [dot])).length = a + o.length + 1 + p.length + 1 := by
      simp; omega
    simp only [parseUri, hc, if_true, hpos, ho.untouched.2.2.1]
  simpa using hreach

/-- The question mark before a query. -/
theorem UriReach.beforeQuery (ht : Target a t uri) :
    UriReach a (t ++ [question]) { uri with state := .uriBeforeQuery } := by
  cases ht with
  | path ho hp =>
      refine (UriReach.absPath ho hp).byte ?_
      simp [parseUri, show allowedInAbsPath question = false by decide,
        show question ≠ dot by decide]
  | @extension o p e uri ho hp he =>
      refine (UriReach.extension ho hp he).byte ?_
      have hpos : a + (o ++ slash :: (p ++ dot :: e)).length =
          a + o.length + 1 + p.length + 1 + e.length := by
        simp; omega
      rw [hpos]
      simp [parseUri, show isAlpha question = false by decide, Str.upTo_eq rfl]

theorem UriReach.query (ht : Target a t uri) (hq : QueryWord q) :
    UriReach a (t ++ question :: q)
      { uri with state := .uriQuery, query := ⟨some (a + t.length + 1), 0⟩ } := by
  have hreach : UriReach a ((t ++ [question]) ++ q)
      { uri with state := .uriQuery, query := ⟨some (a + t.length + 1), 0⟩ } := by
    refine (UriReach.beforeQuery ht).word hq (fun c hc => ?_) fun c p hc => by
      simp [parseUri, hc]
    have hpos : a + (t ++ [question]).length = a + t.length + 1 := by simp; omega
    simp only [parseUri, hc, if_true, hpos, ht.query_eq]
  simpa using hreach

/-- The machine reads exactly the prefixes of a URI, in the passed-over sense
of `PathWord`. -/
theorem uriPrefix_iff : UriPrefix a w uri ↔ UriReach a w uri := by
  constructor
  · intro h
    cases h with
    | start => exact .nil _
    | scheme hs => exact .scheme hs
    | schemeColon hs => exact .schemeColon hs
    | slashAfterScheme hs => exact .slashAfterScheme hs
    | slashSlashAfterScheme hs => exact .slashSlashAfterScheme hs
    | host hs hh => exact .host hs hh
    | port hs hh hd => exact .port hs hh hd
    | slashBeforeAbsPath ho => exact .slashBeforeAbsPath ho
    | absPath ho hp => exact .absPath ho hp
    | beforeExtension ho hp => exact .beforeExtension ho hp
    | extension ho hp he => exact .extension ho hp he
    | beforeQuery ht => exact .beforeQuery ht
    | query ht hq => exact .query ht hq
  · intro h
    refine Reads.rule h (fun w uri => UriPrefix a w uri) .start fun hw hbody => ?_
    obtain ⟨rfl, hok⟩ := uriBody_cases hbody
    exact ⟨rfl, hw.step hok⟩

end PWebServer
