import Mathlib.Data.List.TakeWhile
import PWebServer.Http.LineGrammar

/-!
# Http.Slices

The slices `parse_request_line` leaves in the `uri_t` of an accepted request,
against the parts of the URI's text as its grammar names them.

Two kinds of URIs are sliced wrong: the length of a path that a query follows
at once is never set, and a scheme is closed at its colon whether or not `//`
follows.  `slicesRight_iff` says that these are the only ones.
-/

namespace PWebServer

/-! ## the parts of a URI -/

/-- Where the URI of a request line begins: after the first word and the
spaces behind it. -/
def uriStart (data : List UInt8) : Nat :=
  (data.takeWhile (· ≠ space)).length + ((data.dropWhile (· ≠ space)).takeWhile (· = space)).length

/-- The URI of a request line, up to the space after it. -/
def uriText (data : List UInt8) : List UInt8 := (data.drop (uriStart data)).takeWhile (· ≠ space)

/-- The text before `://`, of a URI that does not begin with its path. -/
def schemePart (u : List UInt8) : List UInt8 :=
  let s := u.takeWhile (· ≠ colon)
  if u.head? ≠ some slash ∧ [colon, slash, slash] <+: u.drop s.length then s else []

/-- The text from the one after `://` up to the path. -/
def authorityPart (u : List UInt8) : List UInt8 :=
  if schemePart u = [] then [] else (u.drop ((schemePart u).length + 3)).takeWhile (· ≠ slash)

/-- The host: up to `:`, `/` or the end. -/
def hostPart (u : List UInt8) : List UInt8 := (authorityPart u).takeWhile (· ≠ colon)

/-- The port: the text after `:`. -/
def portPart (u : List UInt8) : List UInt8 := ((authorityPart u).dropWhile (· ≠ colon)).drop 1

/-- Where the slash that opens the path stands, if there is one. -/
def pathStart (u : List UInt8) : Nat :=
  if schemePart u = [] then 0 else (schemePart u).length + 3 + (authorityPart u).length

/-- The text after the slash that opens the path. -/
def afterSlash (u : List UInt8) : List UInt8 :=
  if u[pathStart u]? = some slash then u.drop (pathStart u + 1) else []

/-- The path: up to the first `.` or `?` or the end. -/
def pathPart (u : List UInt8) : List UInt8 := (afterSlash u).takeWhile passedInAbsPath

/-- What follows the path. -/
def afterPath (u : List UInt8) : List UInt8 := (afterSlash u).dropWhile passedInAbsPath

/-- The extension: after `.`, up to `?` or the end. -/
def extensionPart (u : List UInt8) : List UInt8 :=
  if (afterPath u).head? = some dot then ((afterPath u).drop 1).takeWhile (· ≠ question) else []

/-- The query: after `?`. -/
def queryPart (u : List UInt8) : List UInt8 := ((afterSlash u).dropWhile (· ≠ question)).drop 1

/-- A slice is the given text, which begins at `start`; an empty text may be
anywhere. -/
structure Str.Covers (s : Str) (start : Nat) (text : List UInt8) : Prop where
  len : s.len = text.length
  c : text ≠ [] → s.c = some start

/-- The slices of a `uri_t` are the parts of the URI `u` that begins at `a`. -/
structure SlicesRight (a : Nat) (u : List UInt8) (uri : Uri) : Prop where
  scheme : uri.scheme.Covers a (schemePart u)
  host : uri.host.Covers (a + (schemePart u).length + 3) (hostPart u)
  port : uri.port.Covers (a + (schemePart u).length + 3 + (hostPart u).length + 1) (portPart u)
  absPath : uri.absPath.Covers (a + pathStart u + 1) (pathPart u)
  extension : uri.extensionStr.Covers (a + pathStart u + 1 + (pathPart u).length + 1)
    (extensionPart u)
  query : uri.query.Covers (a + (u.length - (queryPart u).length)) (queryPart u)

/-- A path directly followed by a query. -/
def PathThenQuery (u : List UInt8) : Prop :=
  pathPart u ≠ [] ∧ (afterPath u).head? = some question

/-- A scheme and its colon without a `//` behind it. -/
def BareScheme (u : List UInt8) : Prop :=
  u.head? ≠ some slash ∧ colon ∈ u ∧ schemePart u = []

/-! ## the parts of what the machine reads -/

theorem takeWhile_stop {p : UInt8 → Bool} (h : ∀ x ∈ xs, p x = true) (hc : p c = false) :
    (xs ++ c :: ys).takeWhile p = xs := by
  rw [List.takeWhile_append_of_pos h, List.takeWhile_cons_of_neg (by simp [hc]), List.append_nil]

theorem dropWhile_stop {p : UInt8 → Bool} (h : ∀ x ∈ xs, p x = true) (hc : p c = false) :
    (xs ++ c :: ys).dropWhile p = c :: ys := by
  rw [List.dropWhile_append_of_pos h, List.dropWhile_cons_of_neg (by simp [hc])]

/-- No byte of a word is one that neither of its classes has. -/
theorem Word.all_ne (h : Word first rest w) (hfirst : first c = false) (hrest : rest c = false) :
    ∀ x ∈ w, decide (x ≠ c) = true := by
  intro x hx
  rw [decide_eq_true_iff]
  rintro rfl
  cases w with
  | nil => exact h
  | cons y ys =>
      rcases List.mem_cons.mp hx with rfl | hx
      · exact absurd h.1 (by simp [hfirst])
      · exact absurd (h.2 _ hx) (by simp [hrest])

theorem Word.all {p : UInt8 → Bool} (h : Word p p w) : ∀ x ∈ w, p x = true := by
  cases w with
  | nil => exact h.elim
  | cons y ys => exact List.forall_mem_cons.mpr h

theorem Word.head_ne (h : Word first rest w) (hfirst : first c = false) : w.head? ≠ some c := by
  cases w with
  | nil => exact h.elim
  | cons y ys =>
      intro heq
      obtain rfl := Option.some.inj heq
      exact absurd h.1 (by simp [hfirst])

theorem schemePart_scheme (hs : SchemeWord s) :
    schemePart (s ++ colon :: slash :: slash :: t) = s := by
  have hcolon := hs.all_ne (c := colon) (by decide) (by decide)
  have hslash : (s ++ colon :: slash :: slash :: t).head? ≠ some slash := by
    cases s with
    | nil => exact hs.elim
    | cons x xs => exact hs.head_ne (by decide)
  simp only [schemePart]
  rw [takeWhile_stop hcolon (by simp), if_pos ⟨hslash, by simp⟩]

theorem authorityPart_scheme (hs : SchemeWord s) :
    authorityPart (s ++ colon :: slash :: slash :: t) = t.takeWhile (· ≠ slash) := by
  rw [authorityPart, schemePart_scheme hs, if_neg hs.ne_nil]
  congr 1
  simp

theorem schemePart_slash (t : List UInt8) : schemePart (slash :: t) = [] := by
  simp [schemePart]

theorem Str.covers_nil (start : Nat) : Str.Covers {} start [] := ⟨rfl, by simp⟩

theorem Str.covers_mk (start : Nat) (text : List UInt8) :
    Str.Covers ⟨some start, text.length⟩ start text := ⟨rfl, fun _ => rfl⟩

theorem Str.covers_zero (c : Option Nat) (start : Nat) (text : List UInt8) :
    Str.Covers ⟨c, 0⟩ start text ↔ text = [] := by
  refine ⟨fun h => ?_, ?_⟩
  · have hlen := h.len
    dsimp only at hlen
    exact List.length_eq_zero_iff.mp (by omega)
  · rintro rfl
    exact ⟨rfl, by simp⟩

theorem HostWord.all_ne_slash (hh : HostWord h) : ∀ x ∈ h, decide (x ≠ slash) = true :=
  hh.all_ne (by decide) (by decide)

theorem HostWord.all_ne_colon (hh : HostWord h) : ∀ x ∈ h, decide (x ≠ colon) = true :=
  hh.all_ne (by decide) (by decide)

theorem Digits.all_ne (hd : Digits d) (hc : isDigit c = false) : ∀ x ∈ d, decide (x ≠ c) = true := by
  intro x hx
  rw [decide_eq_true_iff]
  rintro rfl
  exact absurd (hd x hx) (by simp [hc])

theorem HostWord.split (hh : HostWord h) :
    h.takeWhile (· ≠ colon) = h ∧ h.dropWhile (· ≠ colon) = [] :=
  ⟨List.takeWhile_eq_self_iff.mpr hh.all_ne_colon, List.dropWhile_eq_nil_iff.mpr hh.all_ne_colon⟩

theorem HostWord.split_port (hh : HostWord h) (d : List UInt8) :
    (h ++ colon :: d).takeWhile (· ≠ colon) = h ∧
      (h ++ colon :: d).dropWhile (· ≠ colon) = colon :: d :=
  ⟨takeWhile_stop hh.all_ne_colon (by simp), dropWhile_stop hh.all_ne_colon (by simp)⟩

theorem authority_ne_slash (hh : HostWord h) (hd : Digits d) :
    ∀ x ∈ h ++ colon :: d, decide (x ≠ slash) = true := by
  intro x hx
  rcases List.mem_append.mp hx with hx | hx
  · exact hh.all_ne_slash x hx
  · rcases List.mem_cons.mp hx with rfl | hx
    · decide
    · exact hd.all_ne (by decide) x hx

/-- What stands before the path, when the path begins. -/
structure Before (a : Nat) (u o : List UInt8) (rest : List UInt8) (uri : Uri) : Prop where
  pathStart : pathStart u = o.length
  afterSlash : afterSlash u = rest
  scheme : uri.scheme.Covers a (schemePart u)
  host : uri.host.Covers (a + (schemePart u).length + 3) (hostPart u)
  port : uri.port.Covers (a + (schemePart u).length + 3 + (hostPart u).length + 1) (portPart u)
  notBare : ¬ BareScheme u

/-- What follows an element. -/
theorem drop_past (xs : List UInt8) (c : UInt8) (ys : List UInt8) :
    (xs ++ c :: ys).drop (xs.length + 1) = ys := by
  rw [List.drop_length_add_append]
  rfl

/-- A scheme and an authority, before the path. -/
theorem before_authority (hs : SchemeWord s) (hauth : ∀ x ∈ auth, decide (x ≠ slash) = true)
    (hscheme : uri.scheme = ⟨some a, s.length⟩)
    (hhost : uri.host.Covers (a + s.length + 3) (auth.takeWhile (· ≠ colon)))
    (hport : uri.port.Covers (a + s.length + 3 + (auth.takeWhile (· ≠ colon)).length + 1)
      ((auth.dropWhile (· ≠ colon)).drop 1)) (rest : List UInt8) :
    Before a ((s ++ colon :: slash :: slash :: auth) ++ slash :: rest)
      (s ++ colon :: slash :: slash :: auth) rest uri := by
  have hsplit : (s ++ colon :: slash :: slash :: auth) ++ slash :: rest =
      s ++ colon :: slash :: slash :: (auth ++ slash :: rest) := by simp
  have hsp : schemePart ((s ++ colon :: slash :: slash :: auth) ++ slash :: rest) = s := by
    rw [hsplit, schemePart_scheme hs]
  have hap : authorityPart ((s ++ colon :: slash :: slash :: auth) ++ slash :: rest) = auth := by
    rw [hsplit, authorityPart_scheme hs, takeWhile_stop hauth (by simp)]
  have hpos : pathStart ((s ++ colon :: slash :: slash :: auth) ++ slash :: rest) =
      (s ++ colon :: slash :: slash :: auth).length := by
    rw [pathStart, hsp, hap, if_neg hs.ne_nil]
    simp
    omega
  refine ⟨hpos, ?_, ?_, ?_, ?_, ?_⟩
  · rw [PWebServer.afterSlash, hpos, List.getElem?_append_right (Nat.le_refl _), Nat.sub_self,
      drop_past]
    rfl
  · rw [hsp, hscheme]
    exact Str.covers_mk _ _
  · rwa [hsp, hostPart, hap]
  · rwa [hsp, hostPart, portPart, hap]
  · rintro ⟨-, -, hnil⟩
    rw [hsp] at hnil
    exact hs.ne_nil hnil

theorem Origin.before (ho : Origin a o uri) (rest : List UInt8) :
    Before a (o ++ slash :: rest) o rest uri := by
  cases ho with
  | none =>
      have hsp := schemePart_slash rest
      have hap : authorityPart (slash :: rest) = [] := by simp [authorityPart, hsp]
      refine ⟨by simp [PWebServer.pathStart, hsp], by simp [PWebServer.afterSlash, pathStart, hsp],
        ?_, ?_, ?_, ?_⟩
      · simpa [hsp] using Str.covers_nil a
      · simpa [hostPart, hap] using Str.covers_nil _
      · simpa [portPart, hap] using Str.covers_nil _
      · rintro ⟨hhead, -⟩
        exact hhead rfl
  | @host s h hs hh =>
      exact before_authority hs hh.all_ne_slash rfl (by rw [hh.split.1]; exact Str.covers_mk _ _)
        (by rw [hh.split.2]; exact Str.covers_nil _) rest
  | @port s h d hs hh hd =>
      have hsplit := hh.split_port d
      exact before_authority hs (authority_ne_slash hh hd) rfl
        (by rw [hsplit.1]; exact Str.covers_mk _ _)
        (by rw [hsplit.2, hsplit.1]; exact Str.covers_mk _ _) rest

/-- The bytes after the slash that opens the path: a path, an extension `x`
behind its dot, and a query `y` behind its question mark. -/
structure Tail (p x y : List UInt8) : Prop where
  path : p = [] ∨ PathWord p
  extension : x = [] ∨ ∃ e, x = dot :: e ∧ ∀ c ∈ e, isAlpha c = true
  query : y = [] ∨ ∃ q, y = question :: q
  pathless : p = [] → x = [] ∧ y = []

theorem Tail.passed (h : Tail p x y) : ∀ c ∈ p, passedInAbsPath c = true := by
  rcases h.path with rfl | hp
  · simp
  · intro c hc
    cases p with
    | nil => exact hp.elim
    | cons b bs =>
        rcases List.mem_cons.mp hc with rfl | hc
        · exact passedInAbsPath_of_allowed hp.1
        · exact hp.2 c hc

theorem Tail.path_eq (h : Tail p x y) :
    (p ++ (x ++ y)).takeWhile passedInAbsPath = p ∧
      (p ++ (x ++ y)).dropWhile passedInAbsPath = x ++ y := by
  have hstop : ∀ c cs, x ++ y = c :: cs → passedInAbsPath c = false := by
    intro c cs hxy
    rcases h.extension with rfl | ⟨e, rfl, -⟩
    · rcases h.query with rfl | ⟨q, rfl⟩
      · simp at hxy
      · obtain ⟨rfl, -⟩ := List.cons_eq_cons.mp hxy
        decide
    · obtain ⟨rfl, -⟩ := List.cons_eq_cons.mp hxy
      decide
  cases hxy : x ++ y with
  | nil =>
      rw [List.append_nil]
      exact ⟨List.takeWhile_eq_self_iff.mpr h.passed, List.dropWhile_eq_nil_iff.mpr h.passed⟩
  | cons c cs =>
      exact ⟨takeWhile_stop h.passed (hstop c cs hxy), dropWhile_stop h.passed (hstop c cs hxy)⟩

theorem ne_question_of_alpha (hc : isAlpha c = true) : decide (c ≠ question) = true := by
  rw [decide_eq_true_iff]
  rintro rfl
  exact absurd hc (by decide)

theorem Tail.query_eq (h : Tail p x y) :
    ((p ++ (x ++ y)).dropWhile (· ≠ question)).drop 1 = y.drop 1 := by
  have hbefore : ∀ c ∈ p ++ x, decide (c ≠ question) = true := by
    intro c hc
    rcases List.mem_append.mp hc with hc | hc
    · have := h.passed c hc
      simp only [passedInAbsPath, Bool.and_eq_true] at this
      exact this.2
    · rcases h.extension with rfl | ⟨e, rfl, he⟩
      · simp at hc
      · rcases List.mem_cons.mp hc with rfl | hc
        · decide
        · exact ne_question_of_alpha (he c hc)
  rw [← List.append_assoc]
  rcases h.query with rfl | ⟨q, rfl⟩
  · rw [List.append_nil, List.dropWhile_eq_nil_iff.mpr hbefore]
  · rw [dropWhile_stop hbefore (by simp)]

theorem Tail.extension_eq (h : Tail p x y) :
    (if (x ++ y).head? = some dot then ((x ++ y).drop 1).takeWhile (· ≠ question) else []) =
      x.drop 1 := by
  rcases h.extension with rfl | ⟨e, rfl, he⟩
  · rcases h.query with rfl | ⟨q, rfl⟩
    · rfl
    · rfl
  · have he' : ∀ c ∈ e, decide (c ≠ question) = true := fun c hc => ne_question_of_alpha (he c hc)
    rcases h.query with rfl | ⟨q, rfl⟩
    · simp only [List.append_nil, List.head?_cons, if_true, List.drop_succ_cons, List.drop_zero]
      exact List.takeWhile_eq_self_iff.mpr he'
    · simp only [List.cons_append, List.head?_cons, if_true, List.drop_succ_cons, List.drop_zero]
      exact takeWhile_stop he' (by simp)

/-- With the path begun, the slices are right unless a path stands directly
before the query, if those of the extension and the query are and the path's is
in all other cases. -/
theorem Origin.slicesRight_iff (ho : Origin a o uri₀) (ht : Tail p x y)
    (hscheme : uri.scheme = uri₀.scheme) (hhost : uri.host = uri₀.host)
    (hport : uri.port = uri₀.port) (hu : u = o ++ slash :: (p ++ (x ++ y)))
    (hpath : uri.absPath.Covers (a + o.length + 1) p ↔ ¬ (p ≠ [] ∧ x = [] ∧ y ≠ []))
    (hext : uri.extensionStr.Covers (a + o.length + 1 + p.length + 1) (x.drop 1))
    (hquery : uri.query.Covers (a + (u.length - (y.drop 1).length)) (y.drop 1)) :
    SlicesRight a u uri ↔ ¬ PathThenQuery u ∧ ¬ BareScheme u := by
  have hb := ho.before (p ++ (x ++ y))
  rw [← hu] at hb
  have hp : pathPart u = p := by rw [pathPart, hb.afterSlash, ht.path_eq.1]
  have hafter : afterPath u = x ++ y := by rw [afterPath, hb.afterSlash, ht.path_eq.2]
  have hx : extensionPart u = x.drop 1 := by rw [extensionPart, hafter, ht.extension_eq]
  have hy : queryPart u = y.drop 1 := by rw [queryPart, hb.afterSlash, ht.query_eq]
  have hdefect : PathThenQuery u ↔ p ≠ [] ∧ x = [] ∧ y ≠ [] := by
    rw [PathThenQuery, hp, hafter]
    refine and_congr_right fun _ => ?_
    rcases ht.extension with rfl | ⟨e, rfl, -⟩
    · rcases ht.query with rfl | ⟨q, rfl⟩ <;> simp
    · simp [show dot ≠ question by decide]
  rw [hdefect, ← hpath, and_iff_left hb.notBare]
  refine ⟨fun h => by simpa only [hp, hb.pathStart] using h.absPath, fun h => ?_⟩
  exact ⟨hscheme ▸ hb.scheme, hhost ▸ hb.host, hport ▸ hb.port,
    by rwa [hp, hb.pathStart], by rwa [hx, hp, hb.pathStart], by rwa [hy]⟩

/-- A URI without a path: nothing but the scheme and the authority counts. -/
theorem slicesRight_pathless (hslash : afterSlash u = [])
    (hafter : uri.absPath = {} ∧ uri.extensionStr = {} ∧ uri.query = {})
    (hscheme : uri.scheme.Covers a (schemePart u) ↔ ¬ BareScheme u)
    (hhost : uri.host.Covers (a + (schemePart u).length + 3) (hostPart u))
    (hport : uri.port.Covers (a + (schemePart u).length + 3 + (hostPart u).length + 1)
      (portPart u)) :
    SlicesRight a u uri ↔ ¬ PathThenQuery u ∧ ¬ BareScheme u := by
  have hp : pathPart u = [] := by rw [pathPart, hslash]; rfl
  have hx : extensionPart u = [] := by rw [extensionPart, afterPath, hslash]; rfl
  have hy : queryPart u = [] := by rw [queryPart, hslash]; rfl
  rw [and_iff_right fun h => h.1 hp, ← hscheme]
  refine ⟨fun h => h.scheme, fun h => ⟨h, hhost, hport, ?_, ?_, ?_⟩⟩
  · simpa only [hp, hafter.1] using Str.covers_nil _
  · simpa only [hx, hafter.2.1] using Str.covers_nil _
  · simpa only [hy, hafter.2.2] using Str.covers_nil _

/-- A scheme without `://` is no part of a URI. -/
theorem schemePart_bare (hs : SchemeWord s) (ht : ¬ [colon, slash, slash] <+: t)
    (hhead : t = [] ∨ ∃ t', t = colon :: t') : schemePart (s ++ t) = [] := by
  have hcolon := hs.all_ne (c := colon) (by decide) (by decide)
  have hword : (s ++ t).takeWhile (· ≠ colon) = s := by
    rcases hhead with rfl | ⟨t', rfl⟩
    · rw [List.append_nil]
      exact List.takeWhile_eq_self_iff.mpr hcolon
    · exact takeWhile_stop hcolon (by simp)
  simp only [schemePart, hword, List.drop_left']
  rw [if_neg]
  rintro ⟨-, hfront⟩
  exact ht hfront

theorem head_scheme_ne_slash (hs : SchemeWord s) (t : List UInt8) :
    (s ++ t).head? ≠ some slash := by
  cases s with
  | nil => exact hs.elim
  | cons x xs => exact hs.head_ne (by decide)

/-- A URI of nothing but a scheme and some of `:/`. -/
theorem slicesRight_bare (hs : SchemeWord s) (ht : ¬ [colon, slash, slash] <+: t)
    (hhead : t = [] ∨ ∃ t', t = colon :: t')
    (hafter : uri.host = {} ∧ uri.port = {} ∧ uri.absPath = {} ∧ uri.extensionStr = {} ∧
      uri.query = {})
    (hlen : uri.scheme.len = if t = [] then 0 else (s.length : Int)) :
    SlicesRight a (s ++ t) uri ↔ ¬ PathThenQuery (s ++ t) ∧ ¬ BareScheme (s ++ t) := by
  have hsp := schemePart_bare hs ht hhead
  have hap : authorityPart (s ++ t) = [] := by rw [authorityPart, if_pos hsp]
  have hslash : afterSlash (s ++ t) = [] := by
    rw [afterSlash, pathStart, if_pos hsp, ← List.head?_eq_getElem?,
      if_neg (head_scheme_ne_slash hs t)]
  have hbare : BareScheme (s ++ t) ↔ t ≠ [] := by
    rw [BareScheme, and_iff_right (head_scheme_ne_slash hs t), and_iff_left hsp]
    rcases hhead with rfl | ⟨t', rfl⟩
    · simp only [List.append_nil, ne_eq, not_true_eq_false, iff_false]
      intro hmem
      exact absurd (hs.all_ne (c := colon) (by decide) (by decide) _ hmem) (by simp)
    · simp
  refine slicesRight_pathless hslash hafter.2.2 ?_ ?_ ?_
  · rw [hsp, hbare, not_not]
    refine ⟨fun h => ?_, fun h => ⟨by simp [hlen, h], by simp⟩⟩
    by_contra hne
    have := h.len
    rw [hlen, if_neg hne] at this
    exact hs.ne_nil (List.length_eq_zero_iff.mp (by simpa using this))
  · rw [hostPart, hap, hafter.1]
    exact Str.covers_nil _
  · rw [portPart, hap, hafter.2.1]
    exact Str.covers_nil _

/-- A URI that ends with its authority has no path. -/
theorem afterSlash_authority (hs : SchemeWord s) (hauth : ∀ x ∈ auth, decide (x ≠ slash) = true) :
    afterSlash (s ++ colon :: slash :: slash :: auth) = [] := by
  have hpos : pathStart (s ++ colon :: slash :: slash :: auth) =
      (s ++ colon :: slash :: slash :: auth).length := by
    rw [pathStart, schemePart_scheme hs, authorityPart_scheme hs,
      List.takeWhile_eq_self_iff.mpr hauth, if_neg hs.ne_nil]
    simp
    omega
  rw [afterSlash, hpos, List.getElem?_eq_none (Nat.le_refl _)]
  rfl

/-- A URI that ends with its authority. -/
theorem slicesRight_authority (hs : SchemeWord s)
    (hauth : ∀ x ∈ auth, decide (x ≠ slash) = true)
    (hscheme : uri.scheme = ⟨some a, s.length⟩)
    (hhost : uri.host.Covers (a + s.length + 3) (auth.takeWhile (· ≠ colon)))
    (hport : uri.port.Covers (a + s.length + 3 + (auth.takeWhile (· ≠ colon)).length + 1)
      ((auth.dropWhile (· ≠ colon)).drop 1))
    (hafter : uri.absPath = {} ∧ uri.extensionStr = {} ∧ uri.query = {})
    (hu : u = s ++ colon :: slash :: slash :: auth) :
    SlicesRight a u uri ↔ ¬ PathThenQuery u ∧ ¬ BareScheme u := by
  have hsp : schemePart u = s := by rw [hu, schemePart_scheme hs]
  have hap : authorityPart u = auth := by
    rw [hu, authorityPart_scheme hs, List.takeWhile_eq_self_iff.mpr hauth]
  have hslash : afterSlash u = [] := hu ▸ afterSlash_authority hs hauth
  refine slicesRight_pathless hslash hafter (iff_of_true ?_ ?_) ?_ ?_
  · rw [hsp, hscheme]
    exact Str.covers_mk _ _
  · rintro ⟨-, -, hnil⟩
    rw [hsp] at hnil
    exact hs.ne_nil hnil
  · rwa [hsp, hostPart, hap]
  · rwa [hsp, hostPart, portPart, hap]

/-! ## the slices -/

/-- A URI with a query, or with the question mark before one. -/
theorem Target.slicesRight_iff (ht : Target a t uri₀)
    (huri : uri = { uri₀ with state := uri.state, query := uri.query })
    (hquery : uri.query.Covers (a + t.length + 1) q) :
    SlicesRight a (t ++ question :: q) uri ↔
      ¬ PathThenQuery (t ++ question :: q) ∧ ¬ BareScheme (t ++ question :: q) := by
  have hpos : a + t.length + 1 = a + ((t ++ question :: q).length - q.length) := by simp; omega
  rw [hpos] at hquery
  cases ht with
  | @path o p uri₁ ho hp =>
      have htail : Tail p [] (question :: q) :=
        ⟨.inr hp, .inl rfl, .inr ⟨q, rfl⟩, fun h => absurd h hp.ne_nil⟩
      rw [huri] at hquery ⊢
      refine ho.slicesRight_iff htail rfl rfl rfl (by simp) ?_ ?_ hquery
      · rw [Str.covers_zero]
        simp
      · simpa [ho.untouched] using Str.covers_nil _
  | @extension o p e uri₁ ho hp he =>
      have htail : Tail p (dot :: e) (question :: q) :=
        ⟨.inr hp, .inr ⟨e, rfl, he.all⟩, .inr ⟨q, rfl⟩, fun h => absurd h hp.ne_nil⟩
      rw [huri] at hquery ⊢
      refine ho.slicesRight_iff htail rfl rfl rfl (by simp) (iff_of_true ?_ (by simp)) ?_ hquery
      · exact Str.covers_mk _ _
      · exact Str.covers_mk _ _

/-- The slices a URI is left with, at the space after it. -/
theorem UriPrefix.slicesRight_iff (h : UriPrefix a u uri) (hne : u ≠ []) :
    SlicesRight a u (closeUri uri (a + u.length)) ↔ ¬ PathThenQuery u ∧ ¬ BareScheme u := by
  cases h with
  | start => exact absurd rfl hne
  | scheme hs =>
      rw [← List.append_nil u]
      exact slicesRight_bare hs (by simp) (.inl rfl) ⟨rfl, rfl, rfl, rfl, rfl⟩ rfl
  | schemeColon hs =>
      exact slicesRight_bare hs (by decide) (.inr ⟨_, rfl⟩) ⟨rfl, rfl, rfl, rfl, rfl⟩ rfl
  | slashAfterScheme hs =>
      exact slicesRight_bare hs (by decide) (.inr ⟨_, rfl⟩) ⟨rfl, rfl, rfl, rfl, rfl⟩ rfl
  | slashSlashAfterScheme hs =>
      have hauth : ∀ x ∈ [], decide (x ≠ slash) = true := by simp
      exact slicesRight_authority hs hauth rfl (Str.covers_nil _) (Str.covers_nil _)
        ⟨rfl, rfl, rfl⟩ rfl
  | @host s h hs hh =>
      refine slicesRight_authority hs hh.all_ne_slash rfl ?_ ?_ ⟨rfl, rfl, rfl⟩ rfl
      · rw [hh.split.1]
        have hpos : a + (s ++ colon :: slash :: slash :: h).length =
            a + s.length + 3 + h.length := by simp; omega
        simp only [closeUri, hpos, Str.upTo_eq rfl]
        exact Str.covers_mk _ _
      · rw [hh.split.2]
        exact Str.covers_nil _
  | @port s h d hs hh hd =>
      have hpos : a + (s ++ colon :: slash :: slash :: (h ++ colon :: d)).length =
          a + s.length + 3 + h.length + 1 + d.length := by simp; omega
      refine slicesRight_authority hs (authority_ne_slash hh hd) rfl ?_ ?_ ⟨rfl, rfl, rfl⟩ rfl
      · rw [(hh.split_port d).1]
        exact Str.covers_mk _ _
      · rw [(hh.split_port d).1, (hh.split_port d).2]
        simp only [closeUri, hpos, Option.map_some, Str.upTo_eq rfl]
        exact Str.covers_mk _ _
  | slashBeforeAbsPath ho =>
      have ht : Tail [] [] [] := ⟨.inl rfl, .inl rfl, .inl rfl, fun _ => ⟨rfl, rfl⟩⟩
      refine ho.slicesRight_iff ht rfl rfl rfl rfl (iff_of_true ?_ (by simp)) ?_ ?_
      · simpa [closeUri, ho.untouched] using Str.covers_nil _
      · simpa [closeUri, ho.untouched] using Str.covers_nil _
      · simpa [closeUri, ho.untouched] using Str.covers_nil _
  | @absPath o p uri ho hp =>
      have ht : Tail p [] [] := ⟨.inr hp, .inl rfl, .inl rfl, fun _ => ⟨rfl, rfl⟩⟩
      refine ho.slicesRight_iff ht rfl rfl rfl (by simp) (iff_of_true ?_ (by simp)) ?_ ?_
      · have hpos : a + (o ++ slash :: p).length = a + o.length + 1 + p.length := by simp; omega
        simp only [closeUri, hpos, Str.upTo_eq rfl]
        exact Str.covers_mk _ _
      · simpa [closeUri, ho.untouched] using Str.covers_nil _
      · simpa [closeUri, ho.untouched] using Str.covers_nil _
  | @beforeExtension o p uri ho hp =>
      have ht : Tail p [dot] [] :=
        ⟨.inr hp, .inr ⟨[], rfl, by simp⟩, .inl rfl, fun h => absurd h hp.ne_nil⟩
      refine ho.slicesRight_iff ht rfl rfl rfl (by simp) (iff_of_true ?_ (by simp)) ?_ ?_
      · exact Str.covers_mk _ _
      · simpa [closeUri, ho.untouched] using Str.covers_nil _
      · simpa [closeUri, ho.untouched] using Str.covers_nil _
  | @extension o p e uri ho hp he =>
      have ht : Tail p (dot :: e) [] :=
        ⟨.inr hp, .inr ⟨e, rfl, he.all⟩, .inl rfl, fun h => absurd h hp.ne_nil⟩
      refine ho.slicesRight_iff ht rfl rfl rfl (by simp) (iff_of_true ?_ (by simp)) ?_ ?_
      · exact Str.covers_mk _ _
      · have hpos : a + (o ++ slash :: (p ++ dot :: e)).length =
            a + o.length + 1 + p.length + 1 + e.length := by simp; omega
        simp only [closeUri, hpos, Str.upTo_eq rfl]
        exact Str.covers_mk _ _
      · simpa [closeUri, ho.untouched] using Str.covers_nil _
  | beforeQuery ht =>
      refine ht.slicesRight_iff rfl ?_
      simpa [closeUri, ht.query_eq] using Str.covers_nil _
  | @query t q uri ht hq =>
      refine ht.slicesRight_iff rfl ?_
      have hpos : a + (t ++ question :: q).length = a + t.length + 1 + q.length := by simp; omega
      simp only [closeUri, hpos, Str.upTo_eq rfl]
      exact Str.covers_mk _ _

/-- The first word of a request line and the URI in it. -/
theorem LineHead.uri_eq (h : LineHead w r) (rest : List UInt8) :
    ∃ uri, UriPrefix (uriStart (w ++ rest)) (uriText (w ++ rest)) uri ∧ uriText (w ++ rest) ≠ [] ∧
      r.uri = closeUri uri (uriStart (w ++ rest) + (uriText (w ++ rest)).length) := by
  cases h with
  | @mk m u k j uri hm hmethod hu hne hin =>
      have hword : ∀ x ∈ m, decide (x ≠ space) = true := hm.all_ne (by decide) (by simp)
      have hnospace : ∀ x ∈ u, decide (x ≠ space) = true := fun x hx => by
        have := hin x hx
        simp only [inUri, Bool.and_eq_true] at this
        exact this.2
      have hfirst : ∀ tail, (m ++ spaces (k + 1) ++ tail).takeWhile (· ≠ space) = m := fun tail => by
        rw [List.append_assoc, spaces, List.replicate_succ, List.cons_append]
        exact takeWhile_stop hword (by simp)
      have hafter : ∀ tail, (m ++ spaces (k + 1) ++ tail).dropWhile (· ≠ space) =
          spaces (k + 1) ++ tail := fun tail => by
        rw [List.append_assoc, spaces, List.replicate_succ, List.cons_append]
        exact dropWhile_stop hword (by simp)
      have hdata : m ++ (spaces (k + 1) ++ (u ++ spaces (j + 1))) ++ rest =
          m ++ spaces (k + 1) ++ (u ++ space :: (spaces j ++ rest)) := by
        simp [spaces, List.replicate_succ]
      have hstart : uriStart (m ++ (spaces (k + 1) ++ (u ++ spaces (j + 1))) ++ rest) =
          m.length + (k + 1) := by
        rw [hdata, uriStart, hfirst, hafter]
        cases u with
        | nil => exact absurd rfl hne
        | cons c cs =>
            rw [List.cons_append, takeWhile_stop]
            · simp
            · intro x hx
              rw [List.eq_of_mem_replicate hx]
              simp
            · simpa using hnospace c (by simp)
      have htext : uriText (m ++ (spaces (k + 1) ++ (u ++ spaces (j + 1))) ++ rest) = u := by
        rw [uriText, hstart, hdata, ← length_beforeUri, List.drop_append_length]
        exact takeWhile_stop hnospace (by simp)
      rw [hstart, htext]
      exact ⟨uri, hu, hne, rfl⟩

/-- **The slices of a request line**: of an accepted line they are the parts of
its URI exactly if no path is directly followed by a query and no scheme lacks
its `//`. -/
theorem slices_iff (hok : parseRequestLine createHttpRequest ⟨data, 0⟩ = (.ok, r, b)) :
    SlicesRight (uriStart data) (uriText data) r.uri ↔
      ¬ PathThenQuery (uriText data) ∧ ¬ BareScheme (uriText data) := by
  obtain ⟨w, rest, rfl, hw, -⟩ := parseRequestLine_ok_iff.mp hok
  cases hw with
  | @mk h v r version k hh hv =>
      obtain ⟨uri, hfront, hne, huri⟩ := hh.uri_eq (v ++ (spaces k ++ [cr, lf]) ++ rest)
      rw [← List.append_assoc] at hfront hne huri
      dsimp only
      rw [huri]
      exact hfront.slicesRight_iff hne

/-- `GET /a HTTP/1.1`, with the line break. -/
def plainLine : List UInt8 :=
  text ['G', 'E', 'T', ' ', '/', 'a', ' ', 'H', 'T', 'T', 'P', '/', '1', '.', '1', '\r', '\n']

/-- The line with a plain path is sliced right. -/
theorem slices_plainLine :
    ∃ r b, parseRequestLine createHttpRequest ⟨plainLine, 0⟩ = (.ok, r, b) ∧
      SlicesRight (uriStart plainLine) (uriText plainLine) r.uri :=
  ⟨_, _, rfl, (slices_iff rfl).mpr ⟨by unfold PathThenQuery; decide, by unfold BareScheme; decide⟩⟩

/-- `GET /a?b HTTP/1.1`, with the line break. -/
def queryLine : List UInt8 :=
  text ['G', 'E', 'T', ' ', '/', 'a', '?', 'b', ' ', 'H', 'T', 'T', 'P', '/', '1', '.', '1', '\r',
    '\n']

/-- The path `a` of `/a?b` is left with length 0. -/
theorem slices_queryLine :
    ∃ r b, parseRequestLine createHttpRequest ⟨queryLine, 0⟩ = (.ok, r, b) ∧
      ¬ SlicesRight (uriStart queryLine) (uriText queryLine) r.uri :=
  ⟨_, _, rfl, fun h => absurd h.absPath.len (by decide)⟩

end PWebServer
