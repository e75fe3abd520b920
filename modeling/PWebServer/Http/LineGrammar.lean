import Mathlib.Data.List.Induction
import PWebServer.Http.UriGrammar

/-!
# Http.LineGrammar

The texts `parse_request_line` reads without an error, with the request as it
stands by then: `LinePrefix` has one constructor for each state of the machine,
`linePrefix_iff` says that it is exactly what a run over a fresh request
reaches, and `parseRequestLine_ok_iff` which texts it accepts.
-/

namespace PWebServer

open Scan

/-! ## numbers -/

/-- The number written by decimal digits. -/
def decimal (ds : List UInt8) : Nat := ds.foldl (fun n c => n * 10 + (c.toNat - '0'.toUInt8.toNat)) 0

@[simp] theorem decimal_snoc (ds : List UInt8) (c : UInt8) :
    decimal (ds ++ [c]) = decimal ds * 10 + (c.toNat - '0'.toUInt8.toNat) := by
  simp [decimal]

theorem digit_le (h : isDigit c = true) : c.toNat - '0'.toUInt8.toNat ≤ 9 := by
  have hbound : c.toNat ≤ 57 := by
    simp only [isDigit, Bool.and_eq_true, decide_eq_true_eq] at h
    exact UInt8.le_iff_toNat_le.mp h.2
  have hzero : '0'.toUInt8.toNat = 48 := by decide
  omega

/-- A number of at most 100 has room for one more digit. -/
theorem toNat_pushDigit {n : BitVec 16} (hn : n.toNat ≤ 100) (hc : isDigit c = true) :
    (pushDigit n c).toNat = n.toNat * 10 + (c.toNat - '0'.toUInt8.toNat) := by
  have hdigit := digit_le hc
  have hten : (10 : BitVec 16).toNat = 10 := rfl
  simp only [pushDigit, BitVec.toNat_add, BitVec.toNat_mul, BitVec.toNat_ofNat, hten]
  omega

theorem toNat_foldl_pushDigit (hd : Digits ds) (hle : decimal ds ≤ 100) :
    (ds.foldl pushDigit 0).toNat = decimal ds := by
  induction ds using List.reverseRecOn with
  | nil => rfl
  | append_singleton ds c ih =>
      have hd' : Digits ds := fun x hx => hd x (List.mem_append_left _ hx)
      have hc : isDigit c = true := hd c (by simp)
      rw [decimal_snoc] at hle
      have hds := ih hd' (by omega)
      rw [List.foldl_append, List.foldl_cons, List.foldl_nil, decimal_snoc,
        toNat_pushDigit (by omega) hc, hds]

/-! ## prefixes of a request line -/

/-- A byte that can stand in a URI: no space, tab or line break. -/
def inUri (c : UInt8) : Bool := !isBreak c && decide (c ≠ space)

/-- What the first state of the machine takes for a method. -/
abbrev MethodWord : List UInt8 → Prop := Word isUpper (fun c => decide (c ≠ space))

/-- `k` spaces. -/
abbrev spaces (k : Nat) : List UInt8 := List.replicate k space

/-- The text of a request line up to the version, with the request as it stands
then. -/
inductive LineHead : List UInt8 → HttpRequest → Prop
  | mk {m u : List UInt8} {k j : Nat} {uri : Uri} (hm : MethodWord m)
      (hmethod : parseRequestMethod m ≠ .invalidMethod)
      (hu : UriPrefix (m.length + (k + 1)) u uri) (hne : u ≠ []) (hin : ∀ c ∈ u, inUri c = true) :
      LineHead (m ++ (spaces (k + 1) ++ (u ++ spaces (j + 1))))
        { state := .rqBeforeVersion
          requestLine := ⟨some 0, 0⟩
          method := parseRequestMethod m
          uri := closeUri uri (m.length + (k + 1) + u.length) }

/-- The beginnings of `HTTP/` and the states they lead to. -/
def httpStates : List (List UInt8 × ReqState) :=
  [(text ['H'], .rqVersionH), (text ['H', 'T'], .rqVersionHt), (text ['H', 'T', 'T'], .rqVersionHtt),
    (text ['H', 'T', 'T', 'P'], .rqVersionHttp), (text ['H', 'T', 'T', 'P', '/'], .rqVersionSlash)]

/-- `HTTP/`, one digit, a byte that is none, and the digits of a number of at
most 100. -/
inductive VersionText : List UInt8 → Version → Prop
  | mk {d x : UInt8} {ds : List UInt8} (hd : isDigit d = true) (hx : isDigit x = false)
      (hds : Digits ds) (hle : decimal ds ≤ 100) :
      VersionText (text ['H', 'T', 'T', 'P', '/'] ++ d :: x :: ds)
        ⟨pushDigit 0 d, ds.foldl pushDigit 0⟩

/-- The text read so far of a request line, with the request the machine has
made of it. -/
inductive LinePrefix : List UInt8 → HttpRequest → Prop
  | start : LinePrefix [] {}
  | method {m : List UInt8} (hm : MethodWord m) :
      LinePrefix m { state := .rqMethod, requestLine := ⟨some 0, 0⟩ }
  | beforeUri {m : List UInt8} {k : Nat} (hm : MethodWord m)
      (hmethod : parseRequestMethod m ≠ .invalidMethod) :
      LinePrefix (m ++ spaces (k + 1))
        { state := .rqBeforeUri, requestLine := ⟨some 0, 0⟩, method := parseRequestMethod m }
  | uri {m u : List UInt8} {k : Nat} {uri : Uri} (hm : MethodWord m)
      (hmethod : parseRequestMethod m ≠ .invalidMethod)
      (hu : UriPrefix (m.length + (k + 1)) u uri) (hne : u ≠ []) (hin : ∀ c ∈ u, inUri c = true) :
      LinePrefix (m ++ (spaces (k + 1) ++ u))
        { state := .rqUri
          requestLine := ⟨some 0, 0⟩
          method := parseRequestMethod m
          uri := uri }
  | beforeVersion {h : List UInt8} {r : HttpRequest} (hh : LineHead h r) : LinePrefix h r
  | http {h xs : List UInt8} {r : HttpRequest} {st : ReqState} (hh : LineHead h r)
      (hx : (xs, st) ∈ httpStates) : LinePrefix (h ++ xs) { r with state := st }
  | versionDot {h : List UInt8} {r : HttpRequest} {d : UInt8} (hh : LineHead h r)
      (hd : isDigit d = true) :
      LinePrefix (h ++ (text ['H', 'T', 'T', 'P', '/'] ++ [d]))
        { r with state := .rqVersionDot, version := ⟨pushDigit 0 d, 0⟩ }
  | versionMinor {h v : List UInt8} {r : HttpRequest} {version : Version} (hh : LineHead h r)
      (hv : VersionText v version) :
      LinePrefix (h ++ v) { r with state := .rqVersionMinor, version := version }
  | afterVersion {h v : List UInt8} {r : HttpRequest} {version : Version} {k : Nat}
      (hh : LineHead h r) (hv : VersionText v version) :
      LinePrefix (h ++ (v ++ spaces (k + 1)))
        { r with state := .rqAfterVersion, version := version }
  | almostDone {h v : List UInt8} {r : HttpRequest} {version : Version} {k : Nat}
      (hh : LineHead h r) (hv : VersionText v version) :
      LinePrefix (h ++ (v ++ (spaces k ++ [cr])))
        { r with state := .rqAlmostDone, version := version }

/-! ## one byte -/

theorem spaces_snoc (k : Nat) : spaces k ++ [space] = spaces (k + 1) := by
  simp [spaces, List.replicate_succ']

theorem LineHead.snoc_space (h : LineHead w r) : LineHead (w ++ [space]) r := by
  cases h with
  | @mk m u k j uri hm hmethod hu hne hin =>
      have := LineHead.mk (j := j + 1) hm hmethod hu hne hin
      simpa [spaces, List.replicate_succ' (n := j + 1)] using this

theorem LineHead.state_eq (h : LineHead w r) : r.state = .rqBeforeVersion := by
  cases h
  rfl

theorem LineHead.version_eq (h : LineHead w r) : r.version = {} := by
  cases h
  rfl

theorem spaces_append (k : Nat) (xs : List UInt8) :
    spaces k ++ space :: xs = spaces (k + 1) ++ xs := by
  rw [← spaces_snoc, List.append_assoc, List.singleton_append]

/-- The length of what stands before the URI. -/
theorem length_beforeUri (m : List UInt8) (k : Nat) :
    (m ++ spaces (k + 1)).length = m.length + (k + 1) := by
  simp

/-- The first byte of a version's minor number, or one more of it. -/
theorem VersionText.snoc (hv : VersionText v version) (hc : isDigit c = true)
    (hle : (pushDigit version.minor c).toNat ≤ 100) :
    VersionText (v ++ [c]) { version with minor := pushDigit version.minor c } := by
  cases hv with
  | @mk d x ds hd hx hds hle' =>
      have hds' : Digits (ds ++ [c]) := by
        intro y hy
        rcases List.mem_append.mp hy with hy | hy
        · exact hds y hy
        · rwa [List.mem_singleton.mp hy]
      have hnat := toNat_foldl_pushDigit hds hle'
      dsimp only at hle
      rw [toNat_pushDigit (by omega) hc, hnat, ← decimal_snoc] at hle
      have hmk := VersionText.mk hd hx hds' hle
      rw [List.foldl_append] at hmk
      simpa using hmk

/-- One more byte of `HTTP/`. -/
theorem LineHead.http (hh : LineHead h r) (hx : (xs ++ [c], st) ∈ httpStates) :
    LinePrefix (h ++ xs ++ [c]) { r with state := st } := by
  rw [List.append_assoc]
  exact .http hh hx

/-- One more byte that the machine takes. -/
theorem LinePrefix.step (h : LinePrefix w r) (hgo : requestLineBody r w c = .go r') :
    LinePrefix (w ++ [c]) r' := by
  cases h with
  | start =>
      simp only [requestLineBody] at hgo
      split_ifs at hgo with hupper
      cases hgo
      exact .method (.single hupper)
  | method hm =>
      simp only [requestLineBody] at hgo
      split_ifs at hgo with hupper hspace hinvalid <;> cases hgo
      · have hne : c ≠ space := by
          rintro rfl
          exact absurd hupper (by decide)
        exact .method (hm.snoc (by simpa using hne))
      · subst hspace
        simpa using LinePrefix.beforeUri (k := 0) hm hinvalid
      · exact .method (hm.snoc (by simpa using hspace))
  | @beforeUri m k hm hmethod =>
      simp only [requestLineBody] at hgo
      split_ifs at hgo with hbreak hspace
      · cases hgo
        subst hspace
        simpa [spaces_append] using LinePrefix.beforeUri (k := k + 1) hm hmethod
      · split at hgo <;> cases hgo
        next uri hok =>
          rw [length_beforeUri] at hok
          have hu := UriPrefix.start.step (c := c) (a := m.length + (k + 1)) (by simpa using hok)
          have hin : inUri c = true := by simp [inUri, hbreak, hspace]
          simpa using LinePrefix.uri hm hmethod hu (by simp) (by simpa using hin)
  | @uri m u k uri hm hmethod hu hne hin =>
      simp only [requestLineBody] at hgo
      have hpos : (m ++ (spaces (k + 1) ++ u)).length = m.length + (k + 1) + u.length := by
        simp; omega
      rw [hpos] at hgo
      split_ifs at hgo with hbreak hspace
      · cases hgo
        subst hspace
        simpa using LinePrefix.beforeVersion (.mk (j := 0) hm hmethod hu hne hin)
      · split at hgo <;> cases hgo
        next uri' hok =>
          have hin' : ∀ x ∈ u ++ [c], inUri x = true := by
            intro x hx
            rcases List.mem_append.mp hx with hx | hx
            · exact hin x hx
            · simp [List.mem_singleton.mp hx, inUri, hbreak, hspace]
          simpa using LinePrefix.uri hm hmethod (hu.step hok) (by simp) hin'
  | beforeVersion hh =>
      simp only [requestLineBody, hh.state_eq] at hgo
      split_ifs at hgo with hspace hH <;> cases hgo
      · subst hspace
        exact .beforeVersion hh.snoc_space
      · subst hH
        exact .http hh (by simp [httpStates, text])
  | @http h xs r st hh hx =>
      simp only [httpStates, List.mem_cons, Prod.mk.injEq, List.not_mem_nil, or_false] at hx
      rcases hx with ⟨rfl, rfl⟩ | ⟨rfl, rfl⟩ | ⟨rfl, rfl⟩ | ⟨rfl, rfl⟩ | ⟨rfl, rfl⟩ <;>
        simp only [requestLineBody] at hgo <;> split_ifs at hgo with hc <;> cases hgo
      · exact hh.http (by simp [not_not.mp hc, httpStates, text])
      · exact hh.http (by simp [not_not.mp hc, httpStates, text])
      · exact hh.http (by simp [not_not.mp hc, httpStates, text])
      · exact hh.http (by simp [not_not.mp hc, httpStates, text]; decide)
      · simpa [hh.version_eq] using LinePrefix.versionDot hh hc
  | versionDot hh hd =>
      simp only [requestLineBody] at hgo
      split_ifs at hgo with hc
      cases hgo
      have hnone : Digits [] := by simp [Digits]
      have hv := VersionText.mk hd (by simpa using hc) hnone (by decide)
      simpa using LinePrefix.versionMinor hh hv
  | versionMinor hh hv =>
      simp only [requestLineBody] at hgo
      split_ifs at hgo with hdigit hbig hspace hcr <;> cases hgo
      · simpa using LinePrefix.versionMinor hh (hv.snoc hdigit (by omega))
      · subst hspace
        simpa using LinePrefix.afterVersion (k := 0) hh hv
      · subst hcr
        simpa using LinePrefix.almostDone (k := 0) hh hv
  | @afterVersion h v r version k hh hv =>
      simp only [requestLineBody] at hgo
      split_ifs at hgo with hspace hcr <;> cases hgo
      · subst hspace
        simpa [spaces_append] using LinePrefix.afterVersion (k := k + 1) hh hv
      · subst hcr
        simpa using LinePrefix.almostDone (k := k + 1) hh hv
  | almostDone hh hv =>
      simp only [requestLineBody] at hgo
      split_ifs at hgo

/-! ## runs -/

/-- A fresh request becomes `r` over the text `w`. -/
def LineReach (w : List UInt8) (r : HttpRequest) : Prop := Reads lineBody {} w r

theorem LineReach.byte (h : LineReach w r) (hc : requestLineBody r w c = .go r') :
    LineReach (w ++ [c]) r' :=
  h.snoc (by simp [lineBody, hc])

theorem LineReach.loop (h : LineReach w r)
    (hstay : ∀ c ∈ xs, ∀ before, requestLineBody r before c = .go r) : LineReach (w ++ xs) r :=
  Reads.loop h fun c hc before => by simp [lineBody, hstay c hc before]

/-- Spaces the machine skips. -/
theorem LineReach.skip (h : LineReach w r)
    (hstay : ∀ before, requestLineBody r before space = .go r) (k : Nat) :
    LineReach (w ++ spaces k) r :=
  h.loop fun c hc before => by rw [List.eq_of_mem_replicate hc, hstay]

theorem LineReach.method (hm : MethodWord m) :
    LineReach m { state := .rqMethod, requestLine := ⟨some 0, 0⟩ } := by
  cases m with
  | nil => exact hm.elim
  | cons c cs =>
      refine Reads.word (.nil _) (by simp [lineBody, requestLineBody, hm.1]) fun x hx before => ?_
      have hne : x ≠ space := by simpa using hm.2 x hx
      simp [lineBody, requestLineBody, hne]

theorem LineReach.beforeUri (hm : MethodWord m) (hmethod : parseRequestMethod m ≠ .invalidMethod)
    (k : Nat) :
    LineReach (m ++ spaces (k + 1))
      { state := .rqBeforeUri, requestLine := ⟨some 0, 0⟩, method := parseRequestMethod m } := by
  have hspace : LineReach (m ++ [space])
      { state := .rqBeforeUri, requestLine := ⟨some 0, 0⟩, method := parseRequestMethod m } := by
    refine (LineReach.method hm).byte ?_
    simp [requestLineBody, show isUpper space = false by decide, hmethod]
  have hskip := hspace.skip (fun before => by
    simp [requestLineBody, show isBreak space = false by decide]) k
  rw [List.append_assoc, List.singleton_append] at hskip
  exact hskip

/-- Inside a URI the request line's machine runs that of the URI. -/
theorem reaches_uri (pre : List UInt8) (r : HttpRequest) (hr : r.state = .rqUri) (xs : List UInt8)
    (hin : ∀ c ∈ xs, inUri c = true) :
    ∀ {before uri}, Reaches (uriBody pre.length) before uri xs before' uri' →
      Reaches lineBody (pre ++ before) { r with uri := uri } xs (pre ++ before')
        { r with uri := uri' } := by
  induction xs with
  | nil =>
      intro before uri h
      obtain ⟨rfl, rfl⟩ := h.unique (.refl _ _)
      exact .refl _ _
  | cons c xs ih =>
      intro before uri h
      obtain ⟨hc, hxs⟩ := List.forall_mem_cons.mp hin
      obtain ⟨c', uri₁, hbody, hrest⟩ := Reaches.cons_iff.mp h
      obtain ⟨rfl, hok⟩ := uriBody_cases hbody
      refine Reaches.cons_iff.mpr ⟨c', { r with uri := uri₁ }, ?_, ?_⟩
      · simp only [inUri, Bool.and_eq_true, Bool.not_eq_true', decide_eq_true_eq] at hc
        simp [lineBody, requestLineBody, hr, hc, hok]
      · simpa using ih hxs hrest

theorem LineReach.uri {uri : Uri} (hm : MethodWord m) (hmethod : parseRequestMethod m ≠ .invalidMethod)
    (hu : UriPrefix (m.length + (k + 1)) u uri) (hne : u ≠ []) (hin : ∀ c ∈ u, inUri c = true) :
    LineReach (m ++ (spaces (k + 1) ++ u))
      { state := .rqUri
        requestLine := ⟨some 0, 0⟩
        method := parseRequestMethod m
        uri := uri } := by
  have hreach := uriPrefix_iff.mp hu
  rw [← length_beforeUri] at hreach
  cases u with
  | nil => exact absurd rfl hne
  | cons c cs =>
      obtain ⟨hc, hcs⟩ := List.forall_mem_cons.mp hin
      obtain ⟨c', uri₁, hbody, hrest⟩ := Reaches.cons_iff.mp hreach
      obtain ⟨rfl, hok⟩ := uriBody_cases hbody
      have hfirst : LineReach (m ++ spaces (k + 1) ++ [c'])
          { state := .rqUri
            requestLine := ⟨some 0, 0⟩
            method := parseRequestMethod m
            uri := uri₁ } := by
        refine (LineReach.beforeUri hm hmethod k).byte ?_
        simp only [inUri, Bool.and_eq_true, Bool.not_eq_true', decide_eq_true_eq] at hc
        rw [List.length_nil, Nat.add_zero] at hok
        simp only [requestLineBody, hc, hok]
        simp
      have hlift := reaches_uri (m ++ spaces (k + 1))
        { state := .rqUri, requestLine := ⟨some 0, 0⟩, method := parseRequestMethod m }
        rfl cs hcs hrest
      have hall := Reaches.append hfirst hlift
      simpa [LineReach, Reads] using hall

theorem LineReach.head (hh : LineHead h r) : LineReach h r := by
  cases hh with
  | @mk m u k j uri hm hmethod hu hne hin =>
      have hpos : (m ++ (spaces (k + 1) ++ u)).length = m.length + (k + 1) + u.length := by
        simp; omega
      have hspace : LineReach ((m ++ (spaces (k + 1) ++ u)) ++ [space])
          { state := .rqBeforeVersion
            requestLine := ⟨some 0, 0⟩
            method := parseRequestMethod m
            uri := closeUri uri (m.length + (k + 1) + u.length) } := by
        refine (LineReach.uri hm hmethod hu hne hin).byte ?_
        simp [requestLineBody, show isBreak space = false by decide, hpos]
      have hskip := hspace.skip (fun before => by simp [requestLineBody]) j
      simpa [spaces, List.replicate_succ] using hskip

/-- The bytes of `HTTP/`. -/
theorem LineReach.http (hh : LineHead h r) (hx : (xs, st) ∈ httpStates) :
    LineReach (h ++ xs) { r with state := st } := by
  have h1 : LineReach (h ++ ['H'.toUInt8]) { r with state := .rqVersionH } :=
    (LineReach.head hh).byte (by simp [requestLineBody, hh.state_eq, show 'H'.toUInt8 ≠ space by decide])
  have h2 := h1.byte (c := 'T'.toUInt8) rfl
  have h3 := h2.byte (c := 'T'.toUInt8) rfl
  have h4 := h3.byte (c := 'P'.toUInt8) rfl
  have h5 := h4.byte (c := slash) rfl
  simp only [List.append_assoc, List.singleton_append] at h2 h3 h4 h5
  simp only [httpStates, List.mem_cons, Prod.mk.injEq, List.not_mem_nil, or_false] at hx
  rcases hx with ⟨rfl, rfl⟩ | ⟨rfl, rfl⟩ | ⟨rfl, rfl⟩ | ⟨rfl, rfl⟩ | ⟨rfl, rfl⟩
  · exact h1
  · exact h2
  · exact h3
  · exact h4
  · exact h5

theorem LineReach.versionDot (hh : LineHead h r) (hd : isDigit d = true) :
    LineReach (h ++ (text ['H', 'T', 'T', 'P', '/'] ++ [d]))
      { r with state := .rqVersionDot, version := ⟨pushDigit 0 d, 0⟩ } := by
  have hmem : (text ['H', 'T', 'T', 'P', '/'], ReqState.rqVersionSlash) ∈ httpStates := by
    simp [httpStates]
  rw [← List.append_assoc]
  refine (LineReach.http hh hmem).byte ?_
  have hle : ¬ 100 < (pushDigit 0 d).toNat := by
    have hdigit := digit_le hd
    have hzero : (0 : BitVec 16).toNat = 0 := rfl
    rw [toNat_pushDigit (by decide) hd, hzero]
    omega
  simp only [requestLineBody, hh.version_eq, hd, if_true]
  exact if_neg hle

/-- The digits of the minor number. -/
theorem LineReach.minorDigits {r : HttpRequest} (hr : r.state = .rqVersionMinor) (hds : Digits ds)
    (hle : decimal ds ≤ 100)
    (h : LineReach w { r with version := ⟨major, 0⟩ }) :
    LineReach (w ++ ds) { r with version := ⟨major, ds.foldl pushDigit 0⟩ } := by
  induction ds using List.reverseRecOn with
  | nil => simpa using h
  | append_singleton ds c ih =>
      have hds' : Digits ds := fun x hx => hds x (List.mem_append_left _ hx)
      have hc : isDigit c = true := hds c (by simp)
      have hnat := toNat_foldl_pushDigit hds hle
      rw [decimal_snoc] at hle
      have hreach := ih hds' (by omega)
      rw [List.foldl_append, List.foldl_cons, List.foldl_nil, decimal_snoc] at hnat
      rw [← List.append_assoc, List.foldl_append]
      refine hreach.byte ?_
      have hsmall : ¬ 100 < (pushDigit (ds.foldl pushDigit 0) c).toNat := by omega
      simp only [requestLineBody, hr, hc, if_true, List.foldl_cons, List.foldl_nil]
      exact if_neg hsmall

theorem LineReach.versionMinor (hh : LineHead h r) (hv : VersionText v version) :
    LineReach (h ++ v) { r with state := .rqVersionMinor, version := version } := by
  cases hv with
  | @mk d x ds hd hx hds hle =>
      have hdot : LineReach (h ++ (text ['H', 'T', 'T', 'P', '/'] ++ [d]) ++ [x])
          { r with state := .rqVersionMinor, version := ⟨pushDigit 0 d, 0⟩ } := by
        refine (LineReach.versionDot hh hd).byte ?_
        simp [requestLineBody, hx]
      have hall := LineReach.minorDigits (r := { r with state := .rqVersionMinor }) rfl hds hle hdot
      simpa using hall

theorem LineReach.afterVersion (hh : LineHead h r) (hv : VersionText v version) (k : Nat) :
    LineReach (h ++ (v ++ spaces (k + 1)))
      { r with state := .rqAfterVersion, version := version } := by
  have hspace : LineReach (h ++ v ++ [space])
      { r with state := .rqAfterVersion, version := version } :=
    (LineReach.versionMinor hh hv).byte rfl
  have hskip := hspace.skip (fun before => by simp [requestLineBody]) k
  simpa [spaces, List.replicate_succ] using hskip

theorem LineReach.almostDone (hh : LineHead h r) (hv : VersionText v version) (k : Nat) :
    LineReach (h ++ (v ++ (spaces k ++ [cr])))
      { r with state := .rqAlmostDone, version := version } := by
  cases k with
  | zero =>
      have hcr : LineReach (h ++ v ++ [cr]) { r with state := .rqAlmostDone, version := version } :=
        (LineReach.versionMinor hh hv).byte rfl
      simpa using hcr
  | succ k =>
      have hcr : LineReach (h ++ (v ++ spaces (k + 1)) ++ [cr])
          { r with state := .rqAlmostDone, version := version } :=
        (LineReach.afterVersion hh hv k).byte rfl
      simpa using hcr

/-- The machine reads exactly the beginnings of a request line. -/
theorem linePrefix_iff : LinePrefix w r ↔ LineReach w r := by
  constructor
  · intro h
    cases h with
    | start => exact .nil _
    | method hm => exact .method hm
    | beforeUri hm hmethod => exact .beforeUri hm hmethod _
    | uri hm hmethod hu hne hin => exact .uri hm hmethod hu hne hin
    | beforeVersion hh => exact .head hh
    | http hh hx => exact .http hh hx
    | versionDot hh hd => exact .versionDot hh hd
    | versionMinor hh hv => exact .versionMinor hh hv
    | afterVersion hh hv => exact .afterVersion hh hv _
    | almostDone hh hv => exact .almostDone hh hv _
  · intro h
    refine Reads.rule h LinePrefix .start fun hw hbody => ?_
    simp only [lineBody, Prod.mk.injEq] at hbody
    exact ⟨hbody.1.symm, hw.step hbody.2⟩

/-! ## acceptance -/

/-- The machine accepts in one state only, at a line feed. -/
theorem requestLineBody_stop_ok (h : requestLineBody r before c = .stop .ok r') :
    r.state = .rqAlmostDone ∧ c = lf ∧ r' = r := by
  unfold requestLineBody at h
  cases hst : r.state <;> simp only [hst] at h
  case rqAlmostDone =>
    split_ifs at h with hc
    · cases h
    · exact ⟨rfl, not_ne_iff.mp hc, (Next.stop.inj h).2.symm⟩
  case rqBeforeUri | rqUri =>
    split_ifs at h
    · cases h
    split at h
    · cases h
    · next err uri hne _ =>
        cases h
        exact (hne rfl).elim
  all_goals first
    | cases h
    | split_ifs at h <;> cases h

/-- A whole request line, with the request `parse_request_line` makes of it. -/
inductive AcceptedLine : List UInt8 → HttpRequest → Prop
  | mk {h v : List UInt8} {r : HttpRequest} {version : Version} {k : Nat} (hh : LineHead h r)
      (hv : VersionText v version) :
      AcceptedLine (h ++ (v ++ (spaces k ++ [cr, lf])))
        { r with
          state := .rqDone
          requestLine := ⟨some 0, (h ++ (v ++ (spaces k ++ [cr]))).length⟩
          version := version }

theorem LineHead.requestLine_eq (h : LineHead w r) : r.requestLine = ⟨some 0, 0⟩ := by
  cases h
  rfl

/-- The last state before acceptance. -/
theorem LinePrefix.eq_almostDone (h : LinePrefix w r) (hst : r.state = .rqAlmostDone) :
    ∃ hd v r₀ version k, LineHead hd r₀ ∧ VersionText v version ∧
      w = hd ++ (v ++ (spaces k ++ [cr])) ∧
      r = { r₀ with state := .rqAlmostDone, version := version } := by
  cases h with
  | almostDone hh hv => exact ⟨_, _, _, _, _, hh, hv, rfl, rfl⟩
  | beforeVersion hh => simp [hh.state_eq] at hst
  | http hh hx =>
      simp only [httpStates, List.mem_cons, Prod.mk.injEq, List.not_mem_nil, or_false] at hx
      rcases hx with ⟨-, rfl⟩ | ⟨-, rfl⟩ | ⟨-, rfl⟩ | ⟨-, rfl⟩ | ⟨-, rfl⟩ <;> simp at hst
  | _ => simp at hst

theorem lineResult_ok_iff {out : Outcome UInt8 HttpRequest Ret} :
    lineResult b out = (.ok, r, b') ↔
      out.res = some .ok ∧
      r = { out.state with
        requestLine := { out.state.requestLine with
          len := out.state.requestLine.upTo out.before.length }
        state := .rqDone } ∧
      b' = { b with begin := out.before.length + 1 } := by
  unfold lineResult
  cases hres : out.res with
  | none => simp
  | some res => cases res <;> simp [eq_comm]

/-- What a scan of a fresh request tells about the bytes it read. -/
theorem lineBody_rule (data : List UInt8) :
    ((scan lineBody [] data {}).res = none → LinePrefix data (scan lineBody [] data {}).state) ∧
    ((scan lineBody [] data {}).res = some .ok → ∃ read rest,
      data = read ++ lf :: rest ∧ (scan lineBody [] data {}).before = read ∧
      LinePrefix read (scan lineBody [] data {}).state ∧
      (scan lineBody [] data {}).state.state = .rqAlmostDone) := by
  obtain ⟨hend, hleft⟩ := scan_rule lineBody
    (fun raw before r => raw = before ∧ LinePrefix before r)
    (fun {raw before s c c' s'} hI hb => by
      obtain ⟨rfl, hfront⟩ := hI
      simp only [lineBody, Prod.mk.injEq] at hb
      obtain ⟨rfl, hgo⟩ := hb
      exact ⟨rfl, hfront.step hgo⟩) data [] [] {} ⟨rfl, .start⟩
  refine ⟨fun hres => ?_, fun hres => ?_⟩
  · obtain ⟨heq, hfront⟩ := hend hres
    rw [List.nil_append] at heq
    rwa [← heq] at hfront
  · obtain ⟨read, s, c, c', rest, hdata, ⟨heq, hfront⟩, hbody, -⟩ := hleft _ hres
    simp only [lineBody, Prod.mk.injEq] at hbody
    obtain ⟨hst, rfl, hs⟩ := requestLineBody_stop_ok hbody.2
    rw [List.nil_append] at heq
    rw [← heq, ← hs] at hfront
    exact ⟨read, rest, hdata, heq.symm, hfront, by rw [hs]; exact hst⟩

/-- A fresh request is accepted exactly on the request lines of `AcceptedLine`,
whatever follows in the buffer. -/
theorem parseRequestLine_ok_iff :
    parseRequestLine {} ⟨data, 0⟩ = (.ok, r, b) ↔
      ∃ w rest, data = w ++ rest ∧ AcceptedLine w r ∧ b = ⟨data, w.length⟩ := by
  have hfresh : parseRequestLine {} ⟨data, 0⟩ = lineResult ⟨data, 0⟩ (scan lineBody [] data {}) := rfl
  rw [hfresh, lineResult_ok_iff]
  constructor
  · rintro ⟨hres, rfl, rfl⟩
    obtain ⟨read, rest, hdata, hbefore, hfront, hst⟩ := (lineBody_rule data).2 hres
    obtain ⟨h, v, r₀, version, k, hh, hv, rfl, hr⟩ := hfront.eq_almostDone hst
    refine ⟨h ++ (v ++ (spaces k ++ [cr, lf])), rest, by simpa using hdata, ?_, ?_⟩
    · rw [hr, hbefore]
      convert AcceptedLine.mk hh hv (k := k) using 1
      simp [hh.requestLine_eq, Str.upTo]
    · rw [hbefore]
      simp
      omega
  · rintro ⟨w, rest, rfl, hw, rfl⟩
    cases hw with
    | @mk h v r version k hh hv =>
        have hreach := LineReach.almostDone hh hv k
        have hscan : scan lineBody [] (h ++ (v ++ (spaces k ++ [cr, lf])) ++ rest) {} =
            ⟨h ++ (v ++ (spaces k ++ [cr])), lf :: rest,
              { r with state := .rqAlmostDone, version := version }, some .ok⟩ := by
          have := Reaches.scan hreach (lf :: rest)
          simp only [List.append_assoc, List.cons_append, List.nil_append] at this ⊢
          rw [this, scan_stop rfl]
        rw [hscan]
        refine ⟨rfl, ?_, ?_⟩
        · simp [Str.upTo, hh.requestLine_eq]
        · simp
          omega

end PWebServer
