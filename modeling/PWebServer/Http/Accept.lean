import PWebServer.Http.Slices

/-!
# Http.Accept

Which lines `parse_request_line` accepts, against the documented grammar of a
request line.  The two differ in both directions: URIs that stop halfway, bytes
of any kind inside a path, any byte for the dot of the version and an empty
minor number are accepted; a major number of two digits and a query right
behind the first slash are rejected.  `accepts_documented_iff` says that these
are all the differences.
-/

namespace PWebServer

open Scan

/-! ## the documented grammar -/

/-- `[scheme "://" host [":" port]]` -/
inductive DocAuthority : List UInt8 → Prop
  | none : DocAuthority []
  | host {s h : List UInt8} (hs : SchemeWord s) (hh : HostWord h) :
      DocAuthority (s ++ colon :: slash :: slash :: h)
  | port {s h d : List UInt8} (hs : SchemeWord s) (hh : HostWord h) (hd : Digits d)
      (hne : d ≠ []) : DocAuthority (s ++ colon :: slash :: slash :: (h ++ colon :: d))

/-- A byte inside a path. -/
def inPath (c : UInt8) : Bool := allowedInAbsPath c || decide (c = slash)

/-- `"/" [path ["." letters]]`, without the slash. -/
inductive DocPath : List UInt8 → Prop
  | empty : DocPath []
  | path {p : List UInt8} (hp : Word allowedInAbsPath inPath p) : DocPath p
  | extension {p e : List UInt8} (hp : Word allowedInAbsPath inPath p) (he : ExtensionWord e) :
      DocPath (p ++ dot :: e)

/-- A documented URI: `[scheme "://" host [":" port]] [abs_path ["?" query]]`,
not empty. -/
inductive DocUri : List UInt8 → Prop
  | authority {o : List UInt8} (ho : DocAuthority o) (hne : o ≠ []) : DocUri o
  | absPath {o p : List UInt8} (ho : DocAuthority o) (hp : DocPath p) : DocUri (o ++ slash :: p)
  | query {o p q : List UInt8} (ho : DocAuthority o) (hp : DocPath p) (hq : QueryWord q) :
      DocUri (o ++ slash :: (p ++ question :: q))

/-- The methods. -/
def methods : List (List UInt8) :=
  [text ['G', 'E', 'T'], text ['P', 'O', 'S', 'T'], text ['O', 'P', 'T', 'I', 'O', 'N', 'S']]

/-- A line of a method, a URI and a rest, with the spaces between them. -/
def requestLine (m : List UInt8) (k : Nat) (u : List UInt8) (j : Nat) (t : List UInt8) : List UInt8 :=
  m ++ (spaces (k + 1) ++ (u ++ (spaces (j + 1) ++ t)))

/-- `HTTP/`, a number, a separator and a number, up to the line break. -/
def versionText (major : List UInt8) (x : UInt8) (minor : List UInt8) (i : Nat) : List UInt8 :=
  text ['H', 'T', 'T', 'P', '/'] ++ (major ++ x :: (minor ++ (spaces i ++ [cr, lf])))

/-- A documented request line of the given parts. -/
structure DocParts (m u major minor : List UInt8) : Prop where
  method : m ∈ methods
  uri : DocUri u
  major_ne : major ≠ []
  major_digits : Digits major
  major_le : decimal major ≤ 100
  minor_ne : minor ≠ []
  minor_digits : Digits minor
  minor_le : decimal minor ≤ 100

/-- A documented request line. -/
def DocLine (w : List UInt8) : Prop :=
  ∃ m k u j major minor i, DocParts m u major minor ∧
    w = requestLine m k u j (versionText major dot minor i)

/-! ## the differences -/

/-- A text the machine reads as a URI up to a space. -/
def LooseUri (u : List UInt8) : Prop :=
  u ≠ [] ∧ (∀ c ∈ u, inUri c = true) ∧ ∃ uri, UriPrefix 0 u uri

/-- A URI that stops where a part of it is still to come. -/
inductive UnfinishedUri : List UInt8 → Prop
  | scheme {s : List UInt8} (hs : SchemeWord s) : UnfinishedUri s
  | schemeColon {s : List UInt8} (hs : SchemeWord s) : UnfinishedUri (s ++ [colon])
  | slashAfterScheme {s : List UInt8} (hs : SchemeWord s) : UnfinishedUri (s ++ [colon, slash])
  | slashSlashAfterScheme {s : List UInt8} (hs : SchemeWord s) :
      UnfinishedUri (s ++ [colon, slash, slash])
  | beforeExtension {o p : List UInt8} {uri : Uri} (ho : Origin 0 o uri) (hp : PathWord p) :
      UnfinishedUri (o ++ slash :: (p ++ [dot]))
  | beforeQuery {t : List UInt8} {uri : Uri} (ht : Target 0 t uri) : UnfinishedUri (t ++ [question])

/-- A colon behind the host without a port. -/
def EmptyPort (u : List UInt8) : Prop := colon ∈ authorityPart u ∧ portPart u = []

/-- A path with a byte that is neither a slash nor one of
`ALLOWED_IN_ABS_PATH`. -/
def JunkPath (u : List UInt8) : Prop := ∃ c ∈ pathPart u, inPath c = false

/-- A query right behind the slash that opens the path. -/
def SlashQuery (u : List UInt8) : Prop :=
  ∃ o q, DocAuthority o ∧ QueryWord q ∧ u = o ++ slash :: question :: q

/-- The lines that are accepted although they are not documented. -/
def OverAccepted (w : List UInt8) : Prop :=
  ∃ m k u j d x ds i, m ∈ methods ∧ LooseUri u ∧ isDigit d = true ∧ isDigit x = false ∧
    Digits ds ∧ decimal ds ≤ 100 ∧ w = requestLine m k u j (versionText [d] x ds i) ∧
    (UnfinishedUri u ∨ EmptyPort u ∨ JunkPath u ∨ x ≠ dot ∨ ds = [])

/-- The documented lines that are rejected. -/
def OverRejected (w : List UInt8) : Prop :=
  ∃ m k u j major minor i, DocParts m u major minor ∧
    w = requestLine m k u j (versionText major dot minor i) ∧ (2 ≤ major.length ∨ SlashQuery u)

/-! ## what is accepted -/

theorem parseRequestMethod_iff : parseRequestMethod m ≠ .invalidMethod ↔ m ∈ methods := by
  unfold parseRequestMethod methods
  split_ifs with hget hpost hoptions <;> simp_all

theorem methodWord_of_mem (h : m ∈ methods) : MethodWord m := by
  simp only [methods, List.mem_cons, List.not_mem_nil, or_false] at h
  rcases h with rfl | rfl | rfl <;> decide +kernel

/-- What the machine reads does not depend on where the URI begins. -/
theorem Origin.shift (ho : Origin a o uri) (b : Nat) : ∃ uri', Origin b o uri' := by
  cases ho with
  | none => exact ⟨_, .none⟩
  | host hs hh => exact ⟨_, .host hs hh⟩
  | port hs hh hd => exact ⟨_, .port hs hh hd⟩

theorem Target.shift (ht : Target a t uri) (b : Nat) : ∃ uri', Target b t uri' := by
  cases ht with
  | path ho hp =>
      obtain ⟨uri', ho'⟩ := ho.shift b
      exact ⟨_, .path ho' hp⟩
  | extension ho hp he =>
      obtain ⟨uri', ho'⟩ := ho.shift b
      exact ⟨_, .extension ho' hp he⟩

theorem UriPrefix.shift (h : UriPrefix a u uri) (b : Nat) : ∃ uri', UriPrefix b u uri' := by
  cases h with
  | start => exact ⟨_, .start⟩
  | scheme hs => exact ⟨_, .scheme hs⟩
  | schemeColon hs => exact ⟨_, .schemeColon hs⟩
  | slashAfterScheme hs => exact ⟨_, .slashAfterScheme hs⟩
  | slashSlashAfterScheme hs => exact ⟨_, .slashSlashAfterScheme hs⟩
  | host hs hh => exact ⟨_, .host hs hh⟩
  | port hs hh hd => exact ⟨_, .port hs hh hd⟩
  | slashBeforeAbsPath ho =>
      obtain ⟨uri', ho'⟩ := ho.shift b
      exact ⟨_, .slashBeforeAbsPath ho'⟩
  | absPath ho hp =>
      obtain ⟨uri', ho'⟩ := ho.shift b
      exact ⟨_, .absPath ho' hp⟩
  | beforeExtension ho hp =>
      obtain ⟨uri', ho'⟩ := ho.shift b
      exact ⟨_, .beforeExtension ho' hp⟩
  | extension ho hp he =>
      obtain ⟨uri', ho'⟩ := ho.shift b
      exact ⟨_, .extension ho' hp he⟩
  | beforeQuery ht =>
      obtain ⟨uri', ht'⟩ := ht.shift b
      exact ⟨_, .beforeQuery ht'⟩
  | query ht hq =>
      obtain ⟨uri', ht'⟩ := ht.shift b
      exact ⟨_, .query ht' hq⟩

/-- A request line as the machine wants it. -/
structure CodeParts (m u : List UInt8) (d x : UInt8) (ds : List UInt8) : Prop where
  method : m ∈ methods
  uri : LooseUri u
  digit : isDigit d = true
  nondigit : isDigit x = false
  digits : Digits ds
  le : decimal ds ≤ 100

/-- `parse_request_line` returns `OK` on a fresh request. -/
def Accepts (w : List UInt8) : Prop :=
  (parseRequestLine createHttpRequest ⟨w, 0⟩).1 = .ok

/-- Nothing follows the first occurrence of an element that comes last. -/
theorem tail_eq_nil {c : UInt8} (h : v ++ [c] = xs ++ c :: ys) (hc : c ∉ v) : ys = [] := by
  rcases List.eq_nil_or_concat ys with rfl | ⟨ys', y, rfl⟩
  · rfl
  · rw [List.concat_eq_append, ← List.cons_append, ← List.append_assoc] at h
    have hv := (List.append_inj' h rfl).1
    exact absurd (by simp [hv]) hc

/-- A string that ends at its first line feed is accepted if all of it is a
request line. -/
theorem accepts_iff (hlf : lf ∉ v) :
    Accepts (v ++ [lf]) ↔
      ∃ m k u j d x ds i, CodeParts m u d x ds ∧
        v ++ [lf] = requestLine m k u j (versionText [d] x ds i) := by
  unfold Accepts
  constructor
  · intro hok
    obtain ⟨r, b, hparse⟩ : ∃ r b,
        parseRequestLine createHttpRequest ⟨v ++ [lf], 0⟩ = (.ok, r, b) := ⟨_, _, Prod.ext hok rfl⟩
    obtain ⟨w, rest, hw, haccepted, -⟩ := parseRequestLine_ok_iff.mp hparse
    cases haccepted with
    | @mk h t r version i hh hv =>
        have hrest : rest = [] := by
          have hsplit : v ++ [lf] = (h ++ (t ++ (spaces i ++ [cr]))) ++ lf :: rest := by
            rw [hw]
            simp
          exact tail_eq_nil hsplit hlf
        subst hrest
        rw [List.append_nil] at hw
        cases hh with
        | @mk m u k j uri hm hmethod hu hne hin =>
            cases hv with
            | @mk d x ds hd hx hds hle =>
                refine ⟨m, k, u, j, d, x, ds, i, ⟨parseRequestMethod_iff.mp hmethod,
                  ⟨hne, hin, hu.shift 0⟩, hd, hx, hds, hle⟩, ?_⟩
                rw [hw]
                simp [requestLine, versionText]
  · rintro ⟨m, k, u, j, d, x, ds, i, hparts, hw⟩
    obtain ⟨hne, hin, uri, hu⟩ := hparts.uri
    obtain ⟨uri', hu'⟩ := hu.shift (m.length + (k + 1))
    have hhead := LineHead.mk (j := j) (methodWord_of_mem hparts.method)
      (parseRequestMethod_iff.mpr hparts.method) hu' hne hin
    have hversion := VersionText.mk hparts.digit hparts.nondigit hparts.digits hparts.le
    have haccepted := AcceptedLine.mk (k := i) hhead hversion
    have hok := parseRequestLine_ok_iff.mpr ⟨_, [], (List.append_nil _).symm, haccepted, rfl⟩
    have heq : v ++ [lf] = m ++ (spaces (k + 1) ++ (u ++ spaces (j + 1))) ++
        (text ['H', 'T', 'T', 'P', '/'] ++ d :: x :: ds ++ (spaces i ++ [cr, lf])) := by
      rw [hw]
      simp [requestLine, versionText]
    rw [heq]
    exact congrArg Prod.fst hok

/-! ## URIs -/

/-- The states in which a URI may end, by the documented grammar. -/
def UriState.finished : UriState → Bool
  | .uriHost | .uriPort | .uriSlashBeforeAbsPath | .uriAbsPath | .uriExtension | .uriQuery => true
  | _ => false

theorem passedInAbsPath_of_inPath (h : inPath c = true) : passedInAbsPath c = true := by
  rcases Bool.or_eq_true _ _ |>.mp h with h | h
  · exact passedInAbsPath_of_allowed h
  · obtain rfl := of_decide_eq_true h
    decide

theorem pathWord_of_doc (hp : Word allowedInAbsPath inPath p) : PathWord p := by
  cases p with
  | nil => exact hp.elim
  | cons c cs => exact ⟨hp.1, fun x hx => passedInAbsPath_of_inPath (hp.2 x hx)⟩

/-- A path is documented or has a byte it should not have. -/
theorem PathWord.doc_or (hp : PathWord p) :
    Word allowedInAbsPath inPath p ∨ ∃ c ∈ p, inPath c = false := by
  cases p with
  | nil => exact hp.elim
  | cons c cs =>
      by_cases h : ∀ x ∈ cs, inPath x = true
      · exact .inl ⟨hp.1, h⟩
      · push Not at h
        obtain ⟨x, hx, hbad⟩ := h
        exact .inr ⟨x, List.mem_cons_of_mem _ hx, by simpa using hbad⟩

theorem Word.inPath_all (hp : Word allowedInAbsPath inPath p) : ∀ c ∈ p, inPath c = true := by
  cases p with
  | nil => exact hp.elim
  | cons c cs =>
      intro x hx
      rcases List.mem_cons.mp hx with rfl | hx
      · simp [inPath, hp.1]
      · exact hp.2 x hx

theorem DocAuthority.origin (h : DocAuthority o) (a : Nat) : ∃ uri, Origin a o uri := by
  cases h with
  | none => exact ⟨_, .none⟩
  | host hs hh => exact ⟨_, .host hs hh⟩
  | port hs hh hd => exact ⟨_, .port hs hh hd⟩

theorem Origin.pathPart_eq (ho : Origin a o uri) (ht : Tail p x y) :
    pathPart (o ++ slash :: (p ++ (x ++ y))) = p := by
  rw [pathPart, (ho.before _).afterSlash, ht.path_eq.1]

/-- The authority of a URI that ends with it or goes on with a path. -/
theorem authorityPart_eq (hs : SchemeWord s) (hauth : ∀ x ∈ auth, decide (x ≠ slash) = true)
    (hrest : rest = [] ∨ ∃ t, rest = slash :: t) :
    authorityPart (s ++ colon :: slash :: slash :: (auth ++ rest)) = auth := by
  rw [authorityPart_scheme hs]
  rcases hrest with rfl | ⟨t, rfl⟩
  · rw [List.append_nil, List.takeWhile_eq_self_iff.mpr hauth]
  · rw [takeWhile_stop hauth (by simp)]

theorem emptyPort_scheme (hs : SchemeWord s) (hauth : ∀ x ∈ auth, decide (x ≠ slash) = true)
    (hrest : rest = [] ∨ ∃ t, rest = slash :: t) :
    EmptyPort (s ++ colon :: slash :: slash :: (auth ++ rest)) ↔
      colon ∈ auth ∧ (auth.dropWhile (· ≠ colon)).drop 1 = [] := by
  rw [EmptyPort, portPart, authorityPart_eq hs hauth hrest]

/-- A documented authority has no empty port. -/
theorem DocAuthority.not_emptyPort (h : DocAuthority o)
    (hrest : rest = [] ∨ ∃ t, rest = slash :: t) : ¬ EmptyPort (o ++ rest) := by
  cases h with
  | none =>
      rintro ⟨hmem, -⟩
      rcases hrest with rfl | ⟨t, rfl⟩
      · simp [authorityPart, schemePart] at hmem
      · simp [authorityPart, schemePart] at hmem
  | @host s h hs hh =>
      rw [List.append_assoc, List.cons_append, List.cons_append, List.cons_append,
        emptyPort_scheme hs hh.all_ne_slash hrest]
      rintro ⟨hmem, -⟩
      simpa using hh.all_ne_colon colon hmem
  | @port s h d hs hh hd hne =>
      rw [List.append_assoc, List.cons_append, List.cons_append, List.cons_append,
        emptyPort_scheme hs (authority_ne_slash hh hd) hrest, (hh.split_port d).2]
      rintro ⟨-, hnil⟩
      exact hne hnil

/-- What may stand before a path is documented or has an empty port. -/
theorem Origin.doc_or (ho : Origin a o uri) :
    DocAuthority o ∨ ∀ t, EmptyPort (o ++ slash :: t) := by
  cases ho with
  | none => exact .inl .none
  | host hs hh => exact .inl (.host hs hh)
  | @port s h d hs hh hd =>
      rcases eq_or_ne d [] with rfl | hne
      · refine .inr fun t => ?_
        rw [List.append_assoc, List.cons_append, List.cons_append, List.cons_append,
          emptyPort_scheme hs (authority_ne_slash hh hd) (.inr ⟨t, rfl⟩), (hh.split_port []).2]
        simp
      · exact .inl (.port hs hh hd hne)

/-- A path behind its origin is documented, or the port is empty or the path
has a byte it should not have. -/
theorem Origin.path_doc_or (ho : Origin a o uri) (hp : PathWord p) (ht : Tail p x y)
    (hu : u = o ++ slash :: (p ++ (x ++ y))) :
    (DocAuthority o ∧ Word allowedInAbsPath inPath p) ∨ EmptyPort u ∨ JunkPath u := by
  rcases ho.doc_or with hdoc | hport
  · rcases hp.doc_or with hp' | hjunk
    · exact .inl ⟨hdoc, hp'⟩
    · exact .inr (.inr (by rwa [JunkPath, hu, ho.pathPart_eq ht]))
  · exact .inr (.inl (hu ▸ hport _))

/-- What the machine reads is documented or has one of three defects. -/
theorem LooseUri.doc_or (h : LooseUri u) :
    DocUri u ∨ UnfinishedUri u ∨ EmptyPort u ∨ JunkPath u := by
  obtain ⟨hne, -, uri, hu⟩ := h
  cases hu with
  | start => exact absurd rfl hne
  | scheme hs => exact .inr (.inl (.scheme hs))
  | schemeColon hs => exact .inr (.inl (.schemeColon hs))
  | slashAfterScheme hs => exact .inr (.inl (.slashAfterScheme hs))
  | slashSlashAfterScheme hs => exact .inr (.inl (.slashSlashAfterScheme hs))
  | host hs hh => exact .inl (.authority (.host hs hh) (by simp))
  | @port s h d hs hh hd =>
      rcases eq_or_ne d [] with rfl | hd'
      · refine .inr (.inr (.inl ?_))
        have := (emptyPort_scheme hs (authority_ne_slash hh hd) (.inl rfl)).mpr
        rw [List.append_nil, (hh.split_port []).2] at this
        exact this (by simp)
      · exact .inl (.authority (.port hs hh hd hd') (by simp))
  | @slashBeforeAbsPath o uri ho =>
      rcases ho.doc_or with hdoc | hport
      · exact .inl (.absPath hdoc .empty)
      · exact .inr (.inr (.inl (hport [])))
  | @absPath o p uri ho hp =>
      have ht : Tail p [] [] := ⟨.inr hp, .inl rfl, .inl rfl, fun _ => ⟨rfl, rfl⟩⟩
      rcases ho.path_doc_or (u := o ++ slash :: p) hp ht (by simp) with ⟨hdoc, hp'⟩ | hdefect
      · exact .inl (.absPath hdoc (.path hp'))
      · exact .inr (.inr hdefect)
  | beforeExtension ho hp => exact .inr (.inl (.beforeExtension ho hp))
  | @extension o p e uri ho hp he =>
      have ht : Tail p (dot :: e) [] :=
        ⟨.inr hp, .inr ⟨e, rfl, he.all⟩, .inl rfl, fun h => absurd h hp.ne_nil⟩
      rcases ho.path_doc_or (u := o ++ slash :: (p ++ dot :: e)) hp ht (by simp) with ⟨hdoc, hp'⟩ | hdefect
      · exact .inl (.absPath hdoc (.extension hp' he))
      · exact .inr (.inr hdefect)
  | beforeQuery ht => exact .inr (.inl (.beforeQuery ht))
  | @query t q uri ht hq =>
      cases ht with
      | @path o p uri ho hp =>
          have htail : Tail p [] (question :: q) :=
            ⟨.inr hp, .inl rfl, .inr ⟨q, rfl⟩, fun h => absurd h hp.ne_nil⟩
          rcases ho.path_doc_or (u := o ++ slash :: p ++ question :: q) hp htail (by simp) with ⟨hdoc, hp'⟩ | hdefect
          · have hquery := DocUri.query hdoc (.path hp') hq
            exact .inl (by simpa using hquery)
          · exact .inr (.inr hdefect)
      | @extension o p e uri ho hp he =>
          have htail : Tail p (dot :: e) (question :: q) :=
            ⟨.inr hp, .inr ⟨e, rfl, he.all⟩, .inr ⟨q, rfl⟩, fun h => absurd h hp.ne_nil⟩
          rcases ho.path_doc_or (u := o ++ slash :: (p ++ dot :: e) ++ question :: q) hp htail (by simp) with ⟨hdoc, hp'⟩ | hdefect
          · have hquery := DocUri.query hdoc (.extension hp' he) hq
            exact .inl (by simpa using hquery)
          · exact .inr (.inr hdefect)

/-- The path of a documented URI and what follows it. -/
theorem DocPath.tail (hp : DocPath p) (hy : y = [] ∨ ∃ q, y = question :: q) (hne : p = [] → y = []) :
    ∃ p' x, p = p' ++ x ∧ Tail p' x y ∧ ∀ c ∈ p', inPath c = true := by
  cases hp with
  | empty => exact ⟨[], [], rfl, ⟨.inl rfl, .inl rfl, hy, fun _ => ⟨rfl, hne rfl⟩⟩, by simp⟩
  | path hp =>
      have hword := pathWord_of_doc hp
      exact ⟨p, [], by simp, ⟨.inr hword, .inl rfl, hy, fun h => absurd h hword.ne_nil⟩,
        hp.inPath_all⟩
  | @extension p e hp he =>
      have hword := pathWord_of_doc hp
      exact ⟨p, dot :: e, rfl,
        ⟨.inr hword, .inr ⟨e, rfl, he.all⟩, hy, fun h => absurd h hword.ne_nil⟩, hp.inPath_all⟩

/-- A documented URI that is no query right behind the first slash is read to
the end, in a state in which it may end. -/
theorem DocUri.reads (h : DocUri u) :
    SlashQuery u ∨ ∃ uri, UriPrefix 0 u uri ∧ uri.state.finished = true := by
  cases h with
  | authority ho hne =>
      refine .inr ?_
      cases ho with
      | none => exact absurd rfl hne
      | host hs hh => exact ⟨_, .host hs hh, rfl⟩
      | port hs hh hd => exact ⟨_, .port hs hh hd, rfl⟩
  | absPath ho hp =>
      refine .inr ?_
      obtain ⟨uri, ho'⟩ := ho.origin 0
      cases hp with
      | empty => exact ⟨_, .slashBeforeAbsPath ho', rfl⟩
      | path hp => exact ⟨_, .absPath ho' (pathWord_of_doc hp), rfl⟩
      | extension hp he => exact ⟨_, .extension ho' (pathWord_of_doc hp) he, rfl⟩
  | @query o p q ho hp hq =>
      obtain ⟨uri, ho'⟩ := ho.origin 0
      cases hp with
      | empty => exact .inl ⟨o, q, ho, hq, rfl⟩
      | path hp =>
          have hu := UriPrefix.query (.path ho' (pathWord_of_doc hp)) hq
          exact .inr ⟨_, by simpa using hu, rfl⟩
      | extension hp he =>
          have hu := UriPrefix.query (.extension ho' (pathWord_of_doc hp) he) hq
          exact .inr ⟨_, by simpa using hu, rfl⟩

theorem UnfinishedUri.reads (h : UnfinishedUri u) :
    ∃ uri, UriPrefix 0 u uri ∧ uri.state.finished = false := by
  cases h with
  | scheme hs => exact ⟨_, .scheme hs, rfl⟩
  | schemeColon hs => exact ⟨_, .schemeColon hs, rfl⟩
  | slashAfterScheme hs => exact ⟨_, .slashAfterScheme hs, rfl⟩
  | slashSlashAfterScheme hs => exact ⟨_, .slashSlashAfterScheme hs, rfl⟩
  | beforeExtension ho hp => exact ⟨_, .beforeExtension ho hp, rfl⟩
  | beforeQuery ht => exact ⟨_, .beforeQuery ht, rfl⟩

/-- The machine is deterministic. -/
theorem UriPrefix.unique (h : UriPrefix a u uri) (h' : UriPrefix a u uri') : uri = uri' :=
  (Reaches.unique (uriPrefix_iff.mp h) (uriPrefix_iff.mp h')).2

/-- A query right behind the slash that opens the path is not read. -/
theorem SlashQuery.not_reads (h : SlashQuery u) : ¬ UriPrefix 0 u uri := by
  obtain ⟨o, q, ho, -, rfl⟩ := h
  intro hu
  obtain ⟨uri₀, ho'⟩ := ho.origin 0
  have hreach := uriPrefix_iff.mp hu
  have hslash := UriReach.slashBeforeAbsPath ho'
  have hrest := Reaches.scan hslash (question :: q)
  rw [List.append_assoc, List.singleton_append] at hrest
  obtain ⟨c', uri₁, hbody, -⟩ := Reaches.cons_iff.mp (hrest.symm.trans hreach)
  have hparse := (uriBody_cases hbody).2
  simp [parseUri, show allowedInAbsPath question = false by decide] at hparse

/-- The path of a documented URI has no byte it should not have. -/
theorem DocUri.not_junkPath (h : DocUri u) : ¬ JunkPath u := by
  have hpath : ∀ {o p y}, DocAuthority o → DocPath p → (y = [] ∨ ∃ q, y = question :: q) →
      (p = [] → y = []) → ¬ JunkPath (o ++ slash :: (p ++ y)) := by
    rintro o p y ho hp hy hne ⟨c, hc, hbad⟩
    obtain ⟨uri, ho'⟩ := ho.origin 0
    obtain ⟨p', x, rfl, ht, hclean⟩ := hp.tail hy hne
    rw [List.append_assoc, ho'.pathPart_eq ht] at hc
    simp [hclean c hc] at hbad
  cases h with
  | authority ho hne =>
      have hslash : afterSlash u = [] := by
        cases ho with
        | none => exact absurd rfl hne
        | host hs hh => exact afterSlash_authority hs hh.all_ne_slash
        | port hs hh hd => exact afterSlash_authority hs (authority_ne_slash hh hd)
      rintro ⟨c, hc, -⟩
      simp [pathPart, hslash] at hc
  | absPath ho hp => simpa using hpath ho hp (.inl rfl) (fun _ => rfl)
  | @query o p q ho hp hq =>
      rcases eq_or_ne p [] with rfl | hne
      · obtain ⟨uri, ho'⟩ := ho.origin 0
        rintro ⟨c, hc, -⟩
        rw [List.nil_append, pathPart, (ho'.before _).afterSlash] at hc
        simp [passedInAbsPath] at hc
      · exact hpath ho hp (.inr ⟨q, rfl⟩) (fun h => absurd h hne)

/-- A documented URI has none of the three defects. -/
theorem DocUri.not_defect (h : DocUri u) (hloose : LooseUri u) :
    ¬ (UnfinishedUri u ∨ EmptyPort u ∨ JunkPath u) := by
  rintro (hunfinished | hport | hjunk)
  · obtain ⟨uri, hu, hstate⟩ := hunfinished.reads
    rcases h.reads with hslash | ⟨uri', hu', hstate'⟩
    · exact hslash.not_reads hu
    · rw [hu.unique hu', hstate'] at hstate
      exact absurd hstate (by decide)
  · cases h with
    | authority ho hne =>
        have : ¬ EmptyPort (_ ++ []) := ho.not_emptyPort (.inl rfl)
        rw [List.append_nil] at this
        exact this hport
    | absPath ho hp => exact ho.not_emptyPort (.inr ⟨_, rfl⟩) hport
    | query ho hp hq => exact ho.not_emptyPort (.inr ⟨_, rfl⟩) hport
  · exact h.not_junkPath hjunk

/-- A documented URI is read unless a query stands right behind the slash. -/
theorem DocUri.loose_iff (h : DocUri u) (hin : ∀ c ∈ u, inUri c = true) :
    LooseUri u ↔ ¬ SlashQuery u := by
  constructor
  · rintro ⟨-, -, uri, hu⟩ hslash
    exact hslash.not_reads hu
  · intro hslash
    have hne : u ≠ [] := by
      cases h with
      | authority _ hne => exact hne
      | absPath => simp
      | query => simp
    rcases h.reads with hbad | ⟨uri, hu, -⟩
    · exact absurd hbad hslash
    · exact ⟨hne, hin, uri, hu⟩

/-- A class without the bytes that end a URI. -/
def Unbroken (p : UInt8 → Bool) : Prop :=
  p '\t'.toUInt8 = false ∧ p cr = false ∧ p lf = false ∧ p space = false

instance (p : UInt8 → Bool) : Decidable (Unbroken p) := inferInstanceAs (Decidable (_ ∧ _))

theorem isBreak_iff : isBreak c = true ↔ c = '\t'.toUInt8 ∨ c = cr ∨ c = lf := by
  simp [isBreak, oneOf, cr, lf]

theorem Unbroken.inUri {p : UInt8 → Bool} (h : Unbroken p) (hc : p c = true) :
    PWebServer.inUri c = true := by
  obtain ⟨htab, hcr, hlf, hspace⟩ := h
  by_contra hbad
  have hcases : isBreak c = true ∨ c = space := by
    simpa [PWebServer.inUri, or_iff_not_imp_left] using hbad
  rw [isBreak_iff] at hcases
  rcases hcases with (rfl | rfl | rfl) | rfl <;> simp_all

theorem Word.inUri (h : Word first rest w) (hfirst : Unbroken first) (hrest : Unbroken rest) :
    ∀ c ∈ w, PWebServer.inUri c = true := by
  cases w with
  | nil => exact h.elim
  | cons x xs =>
      intro c hc
      rcases List.mem_cons.mp hc with rfl | hc
      · exact hfirst.inUri h.1
      · exact hrest.inUri (h.2 c hc)

theorem DocAuthority.inUri (h : DocAuthority o) : ∀ c ∈ o, PWebServer.inUri c = true := by
  have hcolon : PWebServer.inUri colon = true := by decide
  have hslash : PWebServer.inUri slash = true := by decide
  cases h with
  | none => simp
  | host hs hh =>
      simp only [List.forall_mem_append, List.forall_mem_cons]
      exact ⟨hs.inUri (by decide) (by decide), hcolon, hslash, hslash,
        hh.inUri (by decide) (by decide)⟩
  | port hs hh hd =>
      have hdigit : Unbroken isDigit := by decide
      simp only [List.forall_mem_append, List.forall_mem_cons]
      exact ⟨hs.inUri (by decide) (by decide), hcolon, hslash, hslash,
        hh.inUri (by decide) (by decide), hcolon, fun c hc => hdigit.inUri (hd c hc)⟩

theorem DocPath.inUri (h : DocPath p) : ∀ c ∈ p, PWebServer.inUri c = true := by
  cases h with
  | empty => simp
  | path hp => exact hp.inUri (by decide) (by decide)
  | extension hp he =>
      simp only [List.forall_mem_append, List.forall_mem_cons]
      exact ⟨hp.inUri (by decide) (by decide), by decide, he.inUri (by decide) (by decide)⟩

/-- No byte of a documented URI is a space, a tab or a line break. -/
theorem DocUri.inUri (h : DocUri u) : ∀ c ∈ u, PWebServer.inUri c = true := by
  have hslash : PWebServer.inUri slash = true := by decide
  cases h with
  | authority ho => exact ho.inUri
  | absPath ho hp =>
      simp only [List.forall_mem_append, List.forall_mem_cons]
      exact ⟨ho.inUri, hslash, hp.inUri⟩
  | query ho hp hq =>
      simp only [List.forall_mem_append, List.forall_mem_cons]
      exact ⟨ho.inUri, hslash, hp.inUri, by decide, hq.inUri (by decide) (by decide)⟩

/-! ## lines -/

/-- A text splits in one way only into bytes of a class and a rest that does
not begin with one. -/
theorem word_unique {p : UInt8 → Bool} {xs xs' ys ys' : List UInt8} (hx : ∀ c ∈ xs, p c = true) (hx' : ∀ c ∈ xs', p c = true)
    (hy : ∀ c, ys.head? = some c → p c = false) (hy' : ∀ c, ys'.head? = some c → p c = false)
    (h : xs ++ ys = xs' ++ ys') : xs = xs' ∧ ys = ys' := by
  have htake : ∀ {xs ys : List UInt8}, (∀ c ∈ xs, p c = true) →
      (∀ c, ys.head? = some c → p c = false) → (xs ++ ys).takeWhile p = xs := by
    intro xs ys hx hy
    cases ys with
    | nil => rw [List.append_nil, List.takeWhile_eq_self_iff.mpr hx]
    | cons c cs => exact takeWhile_stop hx (hy c rfl)
  have hxs : xs = xs' := by rw [← htake hx hy, h, htake hx' hy']
  rw [hxs] at h
  exact ⟨hxs, List.append_cancel_left h⟩

/-- The head of `k + 1` spaces. -/
theorem head_spaces (k : Nat) (xs : List UInt8) (c : UInt8)
    (h : (spaces (k + 1) ++ xs).head? = some c) : c = space := by
  simpa [spaces, List.replicate_succ, eq_comm] using h

/-- A request line has one method, one URI and one rest. -/
theorem requestLine_inj (hm : ∀ c ∈ m, c ≠ space) (hm' : ∀ c ∈ m', c ≠ space)
    (hu : ∀ c ∈ u, c ≠ space) (hu' : ∀ c ∈ u', c ≠ space) (hne : u ≠ []) (hne' : u' ≠ [])
    (ht : t.head? ≠ some space) (ht' : t'.head? ≠ some space)
    (h : requestLine m k u j t = requestLine m' k' u' j' t') : m = m' ∧ u = u' ∧ t = t' := by
  have hspaces : ∀ k, ∀ c ∈ spaces k, decide (c = space) = true := by
    intro k c hc
    simp [List.eq_of_mem_replicate hc]
  have hhead : ∀ {u : List UInt8} (rest), u ≠ [] → (∀ c ∈ u, c ≠ space) →
      ∀ c, (u ++ rest).head? = some c → decide (c = space) = false := by
    intro u rest hne hu c hc
    cases u with
    | nil => exact absurd rfl hne
    | cons b bs =>
        obtain rfl : b = c := by simpa using hc
        simp [hu b (by simp)]
  have hstop : ∀ k xs c, (spaces (k + 1) ++ xs).head? = some c → decide (c ≠ space) = false := by
    intro k xs c hc
    simp [head_spaces k xs c hc]
  obtain ⟨hmeq, h₁⟩ :=
    word_unique (by simpa using hm) (by simpa using hm') (hstop _ _) (hstop _ _) h
  obtain ⟨-, h₂⟩ := word_unique (hspaces _) (hspaces _) (hhead _ hne hu) (hhead _ hne' hu') h₁
  obtain ⟨hueq, h₃⟩ :=
    word_unique (by simpa using hu) (by simpa using hu') (hstop _ _) (hstop _ _) h₂
  obtain ⟨-, hteq⟩ := word_unique (hspaces _) (hspaces _)
    (fun c hc => decide_eq_false fun heq => ht (heq ▸ hc))
    (fun c hc => decide_eq_false fun heq => ht' (heq ▸ hc)) h₃
  exact ⟨hmeq, hueq, hteq⟩

/-- A version has one major number, one separator and one minor number. -/
theorem versionText_inj (hmajor : Digits major) (hmajor' : Digits major') (hminor : Digits minor)
    (hminor' : Digits minor') (hx : isDigit x = false) (hx' : isDigit x' = false)
    (h : versionText major x minor i = versionText major' x' minor' i') :
    major = major' ∧ x = x' ∧ minor = minor' := by
  have hend : ∀ i c, (spaces i ++ [cr, lf]).head? = some c → isDigit c = false := by
    intro i c hc
    cases i with
    | zero =>
        obtain rfl : cr = c := by simpa using hc
        decide
    | succ i =>
        rw [head_spaces i _ c hc]
        decide
  have h₀ := List.append_cancel_left h
  obtain ⟨hmaj, h₁⟩ := word_unique hmajor hmajor' (by simpa using hx) (by simpa using hx') h₀
  obtain ⟨hsep, h₂⟩ := List.cons_eq_cons.mp h₁
  obtain ⟨hmin, -⟩ := word_unique hminor hminor' (hend _) (hend _) h₂
  exact ⟨hmaj, hsep, hmin⟩

theorem versionText_head (major minor : List UInt8) (x : UInt8) (i : Nat) :
    (versionText major x minor i).head? ≠ some space := by
  simp [versionText, text, show 'H'.toUInt8 ≠ space by decide]

theorem methods_ne_space (h : m ∈ methods) : ∀ c ∈ m, c ≠ space := by
  have := (methodWord_of_mem h).all_ne (c := space) (by decide) (by simp)
  simpa using this

theorem inUri_ne_space {u : List UInt8} (h : ∀ c ∈ u, inUri c = true) : ∀ c ∈ u, c ≠ space := by
  intro c hc
  have := h c hc
  simp only [inUri, Bool.and_eq_true, decide_eq_true_eq] at this
  exact this.2

theorem DocUri.ne_nil (h : DocUri u) : u ≠ [] := by
  cases h with
  | authority _ hne => exact hne
  | absPath => simp
  | query => simp

/-- A line that the machine reads and that is documented: its parts are the
same both ways. -/
theorem parts_unique (hcode : CodeParts m u d x ds) (hdoc : DocParts m' u' major minor)
    (h : requestLine m k u j (versionText [d] x ds i) =
      requestLine m' k' u' j' (versionText major dot minor i')) :
    u = u' ∧ [d] = major ∧ x = dot ∧ ds = minor := by
  have hd : Digits [d] := by simpa [Digits] using hcode.digit
  obtain ⟨-, hu, ht⟩ := requestLine_inj (methods_ne_space hcode.method)
    (methods_ne_space hdoc.method) (inUri_ne_space hcode.uri.2.1) (inUri_ne_space hdoc.uri.inUri)
    hcode.uri.1 hdoc.uri.ne_nil (versionText_head _ _ _ _) (versionText_head _ _ _ _) h
  exact ⟨hu, versionText_inj hd hdoc.major_digits hcode.digits hdoc.minor_digits hcode.nondigit
    (by decide) ht⟩

theorem decimal_digit (hd : isDigit d = true) : decimal [d] ≤ 100 := by
  have := digit_le hd
  simp only [decimal, List.foldl_cons, List.foldl_nil]
  omega

/-- **Acceptance**: a string that ends at its first line feed is accepted
exactly if it is a documented request line, unless it is one of the lines
`OverAccepted` and `OverRejected` describe. -/
theorem accepts_documented_iff (hlf : lf ∉ v) :
    (Accepts (v ++ [lf]) ↔ DocLine (v ++ [lf])) ↔
      ¬ OverAccepted (v ++ [lf]) ∧ ¬ OverRejected (v ++ [lf]) := by
  rw [accepts_iff hlf]
  constructor
  · intro hiff
    constructor
    · rintro ⟨m, k, u, j, d, x, ds, i, hm, hu, hd, hx, hds, hle, hw, hdefect⟩
      have hcode : CodeParts m u d x ds := ⟨hm, hu, hd, hx, hds, hle⟩
      obtain ⟨m', k', u', j', major, minor, i', hdoc, hw'⟩ :=
        hiff.mp ⟨m, k, u, j, d, x, ds, i, hcode, hw⟩
      obtain ⟨rfl, -, rfl, rfl⟩ := parts_unique hcode hdoc (hw.symm.trans hw')
      have hnone := hdoc.uri.not_defect hu
      rcases hdefect with h | h | h | h | h
      · exact hnone (.inl h)
      · exact hnone (.inr (.inl h))
      · exact hnone (.inr (.inr h))
      · exact h rfl
      · exact hdoc.minor_ne h
    · rintro ⟨m, k, u, j, major, minor, i, hdoc, hw, hdefect⟩
      obtain ⟨m', k', u', j', d, x, ds, i', hcode, hw'⟩ :=
        hiff.mpr ⟨m, k, u, j, major, minor, i, hdoc, hw⟩
      obtain ⟨rfl, rfl, -, -⟩ := parts_unique hcode hdoc (hw'.symm.trans hw)
      rcases hdefect with h | h
      · simp at h
      · exact (hdoc.uri.loose_iff hdoc.uri.inUri).mp hcode.uri h
  · rintro ⟨hover, hunder⟩
    constructor
    · rintro ⟨m, k, u, j, d, x, ds, i, hcode, hw⟩
      have hclean : ¬ (UnfinishedUri u ∨ EmptyPort u ∨ JunkPath u ∨ x ≠ dot ∨ ds = []) :=
        fun hdefect => hover ⟨m, k, u, j, d, x, ds, i, hcode.method, hcode.uri, hcode.digit,
          hcode.nondigit, hcode.digits, hcode.le, hw, hdefect⟩
      have huri : DocUri u := by
        have := hcode.uri.doc_or
        tauto
      have hdot : x = dot := by tauto
      subst hdot
      have hne : ds ≠ [] := by tauto
      refine ⟨m, k, u, j, [d], ds, i, ⟨hcode.method, huri, by simp, ?_, decimal_digit hcode.digit,
        hne, hcode.digits, hcode.le⟩, hw⟩
      simpa [Digits] using hcode.digit
    · rintro ⟨m, k, u, j, major, minor, i, hdoc, hw⟩
      have hclean : ¬ (2 ≤ major.length ∨ SlashQuery u) :=
        fun hdefect => hunder ⟨m, k, u, j, major, minor, i, hdoc, hw, hdefect⟩
      rw [not_or, not_le] at hclean
      have hloose := (hdoc.uri.loose_iff hdoc.uri.inUri).mpr hclean.2
      obtain ⟨d, rfl⟩ : ∃ d, major = [d] := by
        have hpos := List.length_pos_iff.mpr hdoc.major_ne
        exact List.length_eq_one_iff.mp (by omega)
      exact ⟨m, k, u, j, d, dot, minor, i, ⟨hdoc.method, hloose,
        hdoc.major_digits d (by simp), by decide, hdoc.minor_digits, hdoc.minor_le⟩, hw⟩

/-- `GET / HTTP/1`, a separator and `1`, without the line feed. -/
def versionLine (x : Char) : List UInt8 :=
  text ['G', 'E', 'T', ' ', '/', ' ', 'H', 'T', 'T', 'P', '/', '1', x, '1', '\r']

theorem versionLine_eq (x : Char) : versionLine x ++ [lf] =
    requestLine (text ['G', 'E', 'T']) 0 (text ['/']) 0 (versionText (text ['1']) x.toUInt8 (text ['1']) 0) :=
  rfl

/-- The plain line has none of the defects. -/
theorem documented_plainLine :
    ¬ OverAccepted (versionLine '.' ++ [lf]) ∧ ¬ OverRejected (versionLine '.' ++ [lf]) := by
  refine (accepts_documented_iff (by decide)).mp (iff_of_true rfl ?_)
  refine ⟨_, _, _, _, _, _, _, ⟨by decide, .absPath .none .empty, by decide, ?_, by decide,
    by decide, ?_, by decide⟩, versionLine_eq '.'⟩
  · unfold Digits
    decide +kernel
  · unfold Digits
    decide +kernel

/-- `GET / HTTP/1-1` is accepted but not documented. -/
theorem accepts_dashLine :
    Accepts (versionLine '-' ++ [lf]) ∧ ¬ DocLine (versionLine '-' ++ [lf]) := by
  refine ⟨rfl, ?_⟩
  rintro ⟨m, k, u, j, major, minor, i, hdoc, hw⟩
  have hdigits : Digits (text ['1']) := by
    unfold Digits
    decide +kernel
  have hloose : LooseUri (text ['/']) := ⟨by decide +kernel, by decide +kernel, _, .slashBeforeAbsPath .none⟩
  have hcode : CodeParts (text ['G', 'E', 'T']) (text ['/']) '1'.toUInt8 '-'.toUInt8 (text ['1']) :=
    ⟨by decide, hloose, by decide, by decide, hdigits, by decide⟩
  have hsep := (parts_unique hcode hdoc ((versionLine_eq '-').symm.trans hw)).2.2.1
  exact absurd hsep (by decide)

end PWebServer
