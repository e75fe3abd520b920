import PWebServer.Http.ReadLine
import PWebServer.Http.Response
import PWebServer.Http.Slices

/-!
# Http.AbsPath

`request_process_uri` up to the lookup: a path that `server_cfg.locations` has
goes to a back end, any other is opened below the document root, as the string
that `process_abs_path` ends in the receive buffer.

The path of a URI may hold any byte but `.` and `?`; `openat_confined` says that
the string names nothing outside the root all the same.
-/

namespace PWebServer

/-! ## the lookup -/

/-- The string at `p`, up to its NUL. -/
def stringAt (bytes : List UInt8) (p : Nat) : List UInt8 := (bytes.drop p).takeWhile (· ≠ 0)

/-- `process_abs_path`: the path it returns, and the buffer in which it has
ended the path and its extension. -/
def processAbsPath (uri : Uri) (b : Buffer) : List UInt8 × Buffer :=
  match uri.absPath.c with
  | none => (cstr "./", b)
  | some realPath =>
      let skipLen : Int :=
        match uri.extensionStr.c with
        | none => uri.absPath.len
        | some _ => uri.absPath.len + (uri.extensionStr.len + 1)
      let b := { b with bytes := b.bytes.set ((realPath : Int) + skipLen).toNat 0 }
      (stringAt b.bytes realPath, b)

/-- Where `request_process_uri` looks. -/
inductive Lookup where
  /-- a back end -/
  | upstream
  /-- `openat(server_cfg.root_fd, path, O_RDONLY)` -/
  | openat (path : List UInt8)
  deriving DecidableEq, Repr

/-- `request_process_uri` up to the lookup; `locations` are the keys of
`server_cfg.locations`. -/
def requestProcessUri (locations : List UInt8 → Bool) (uri : Uri) (b : Buffer) : Lookup × Buffer :=
  if locations (uri.absPath.text b.bytes) then (.upstream, b)
  else ((.openat (processAbsPath uri b).1), (processAbsPath uri b).2)

/-! ## paths below the root -/

/-- The components of a path. -/
def components (path : List UInt8) : List (List UInt8) := path.splitOn slash

/-- A relative path without `..`. -/
structure Confined (path : List UInt8) : Prop where
  relative : path.head? ≠ some slash
  noDotDot : [dot, dot] ∉ components path

/-- How many directories below the start a walk along the components ends;
`none` once it has left the start upwards. -/
def descend (depth : Nat) : List (List UInt8) → Option Nat
  | [] => some depth
  | name :: names =>
      if name = [dot, dot] then if depth = 0 then none else descend (depth - 1) names
      else if name = [] ∨ name = [dot] then descend depth names
      else descend (depth + 1) names

/-- Without `..` no walk leaves its start. -/
theorem descend_isSome {names : List (List UInt8)} (h : [dot, dot] ∉ names) (depth : Nat) :
    (descend depth names).isSome = true := by
  induction names generalizing depth with
  | nil => rfl
  | cons name names ih =>
      have hname : name ≠ [dot, dot] := fun heq => h (heq ▸ List.mem_cons_self)
      have hnames : [dot, dot] ∉ names := fun hmem => h (List.mem_cons_of_mem _ hmem)
      rw [descend, if_neg hname]
      split
      · exact ih hnames depth
      · exact ih hnames (depth + 1)

/-- A byte stands in a component at most as often as in the path. -/
theorem count_component {path name : List UInt8} (h : name ∈ components path) (c : UInt8) :
    name.count c ≤ path.count c := by
  unfold components at h
  induction path generalizing name with
  | nil =>
      rw [List.splitOn_nil, List.mem_singleton] at h
      rw [h]
  | cons x xs ih =>
      have hgrow : xs.count c ≤ (x :: xs).count c := (List.sublist_cons_self x xs).count_le c
      rw [List.splitOn_cons_eq_if_modifyHead] at h
      split at h
      · cases List.mem_cons.mp h with
        | inl heq =>
            rw [heq]
            exact Nat.zero_le _
        | inr hmem => exact Nat.le_trans (ih hmem) hgrow
      · cases hsplit : xs.splitOn slash with
        | nil => exact absurd hsplit (List.splitOn_ne_nil slash xs)
        | cons first rest =>
            rw [hsplit, List.modifyHead_cons] at h
            cases List.mem_cons.mp h with
            | inl heq =>
                have hfirst : first.count c ≤ xs.count c := ih (by rw [hsplit]; exact List.mem_cons_self)
                rw [heq, List.count_cons, List.count_cons]
                omega
            | inr hmem =>
                have hrest : name.count c ≤ xs.count c :=
                  ih (by rw [hsplit]; exact List.mem_cons_of_mem _ hmem)
                exact Nat.le_trans hrest hgrow

/-- A path with one dot has no `..`. -/
theorem confined_of_count {path : List UInt8} (hhead : path.head? ≠ some slash)
    (hcount : path.count dot ≤ 1) : Confined path where
  relative := hhead
  noDotDot := by
    intro hmem
    have hle := count_component hmem dot
    have htwo : List.count dot [dot, dot] = 2 := rfl
    omega

/-- What begins a confined path with one dot is one. -/
theorem confined_prefix {xs path : List UInt8} (hxs : xs <+: path) (hhead : path.head? ≠ some slash)
    (hcount : path.count dot ≤ 1) : Confined xs := by
  refine confined_of_count (fun hslash => hhead ?_) (Nat.le_trans (hxs.sublist.count_le dot) hcount)
  obtain ⟨tail, htail⟩ := hxs
  cases xs with
  | nil => contradiction
  | cons x xs =>
      rw [← htail]
      exact hslash

/-! ## the path of a URI -/

theorem PathWord.count_dot {p : List UInt8} (hp : PathWord p) : p.count dot = 0 := by
  refine List.count_eq_zero_of_not_mem fun hmem => ?_
  have hne := hp.all_ne (c := dot) (by decide) (by decide) dot hmem
  contradiction

theorem ExtensionWord.count_dot {e : List UInt8} (he : ExtensionWord e) : e.count dot = 0 := by
  refine List.count_eq_zero_of_not_mem fun hmem => ?_
  have hne := he.all_ne (c := dot) (by decide) (by decide) dot hmem
  contradiction

/-- What the machine has stored of the path of a URI that begins at `a`: nothing,
a part of the path, or the path and its extension. -/
inductive PathSlices (a : Nat) (u : List UInt8) (uri : Uri) : Prop
  | none (hc : uri.absPath.c = none)
  | path {o p : List UInt8} (rest : List UInt8) {n : Nat} (hu : u = o ++ slash :: (p ++ rest)) (hp : PathWord p)
      (hn : n = 0 ∨ n = p.length ∧ (rest = [] ∨ rest = [dot])) (hpath : uri.absPath = ⟨some (a + o.length + 1), n⟩)
      (hext : uri.extensionStr.c = Option.none)
  | extension {o p e : List UInt8} (rest : List UInt8)
      (hu : u = o ++ slash :: (p ++ dot :: (e ++ rest))) (hp : PathWord p) (he : ExtensionWord e)
      (hrest : rest = [] ∨ rest.head? = some question)
      (hpath : uri.absPath = ⟨some (a + o.length + 1), p.length⟩)
      (hext : uri.extensionStr = ⟨some (a + o.length + 1 + p.length + 1), e.length⟩)

/-- A URI, its last slice closed, in its text. -/
theorem UriPrefix.pathSlices {a : Nat} {u : List UInt8} {uri : Uri} (h : UriPrefix a u uri) :
    PathSlices a u (closeUri uri (a + u.length)) := by
  cases h with
  | start => exact .none rfl
  | scheme => exact .none rfl
  | schemeColon => exact .none rfl
  | slashAfterScheme => exact .none rfl
  | slashSlashAfterScheme => exact .none rfl
  | host => exact .none rfl
  | port => exact .none rfl
  | slashBeforeAbsPath ho =>
      refine .none ?_
      simp [closeUri, ho.untouched]
  | @absPath o p uri ho hp =>
      have hpos : a + (o ++ slash :: p).length = a + o.length + 1 + p.length := by
        simp
        omega
      refine .path [] (by rw [List.append_nil]) hp (.inr ⟨rfl, .inl rfl⟩) ?_ ?_
      · simp only [closeUri, hpos, Str.upTo_eq rfl]
      · simp [closeUri, ho.untouched]
  | @beforeExtension o p uri ho hp =>
      refine .path [dot] rfl hp (.inr ⟨rfl, .inr rfl⟩) rfl ?_
      simp [closeUri, ho.untouched]
  | @extension o p e uri ho hp he =>
      have hpos : a + (o ++ slash :: (p ++ dot :: e)).length =
          a + o.length + 1 + p.length + 1 + e.length := by
        simp
        omega
      refine .extension [] (by rw [List.append_nil]) hp he (.inl rfl) ?_ ?_
      · simp only [closeUri]
      · simp only [closeUri, hpos, Str.upTo_eq rfl]
  | beforeQuery ht =>
      cases ht with
      | @path o p uri ho hp =>
          refine .path [question] (by simp) hp (.inl rfl) rfl ?_
          simp [closeUri, ho.untouched]
      | extension ho hp he => exact .extension [question] (by simp) hp he (.inr rfl) rfl rfl
  | @query t q uri ht hq =>
      cases ht with
      | @path o p uri ho hp =>
          refine .path (question :: q) (by simp) hp (.inl rfl) rfl ?_
          simp [closeUri, ho.untouched]
      | extension ho hp he => exact .extension (question :: q) (by simp) hp he (.inr rfl) rfl rfl

/-- The string up to a NUL that has just been written. -/
theorem stringAt_set (bytes : List UInt8) (p n : Nat) :
    stringAt (bytes.set (p + n) 0) p <+: (bytes.drop p).take n := by
  have hdrop : (bytes.set (p + n) 0).drop p = (bytes.drop p).set n 0 := by
    rw [List.drop_set, if_neg (by omega), Nat.add_sub_cancel_left]
  rw [stringAt, hdrop]
  clear hdrop
  generalize bytes.drop p = xs
  induction xs generalizing n with
  | nil => exact List.nil_prefix
  | cons x xs ih =>
      cases n with
      | zero =>
          rw [List.set_cons_zero, List.takeWhile_cons_of_neg (by simp)]
          exact List.nil_prefix
      | succ n =>
          rw [List.set_cons_succ, List.take_succ_cons, List.takeWhile_cons]
          split
          · exact (List.prefix_cons_inj x).mpr (ih n)
          · exact List.nil_prefix

/-- **The path that is opened** for a URI in a buffer is confined. -/
theorem PathSlices.confined {a : Nat} {u : List UInt8} {uri : Uri} {b : Buffer}
    (h : PathSlices a u uri) (pre post : List UInt8) (hbytes : b.bytes = pre ++ (u ++ post)) (ha : a = pre.length) :
    Confined (processAbsPath uri b).1 := by
  cases h with
  | none hc =>
      have hpath : (processAbsPath uri b).1 = cstr "./" := by rw [processAbsPath, hc]
      rw [hpath]
      exact confined_of_count (by decide) (by decide)
  | @path o p rest n hu hp hend hpath hext =>
      have hn : n ≤ p.length := by
        cases hend with
        | inl hzero => omega
        | inr hall => omega
      have hdrop : b.bytes.drop (a + o.length + 1) = p ++ (rest ++ post) := by
        have hsplit : b.bytes = (pre ++ (o ++ [slash])) ++ (p ++ (rest ++ post)) := by
          simp [hbytes, hu]
        rw [hsplit, List.drop_left' (by simp [ha]; omega)]
      have hset : ((a + o.length + 1 : Nat) + (n : Int)).toNat = a + o.length + 1 + n := by omega
      have hstring := stringAt_set b.bytes (a + o.length + 1) n
      rw [hdrop, List.take_append_of_le_length hn] at hstring
      rw [processAbsPath, hpath, hext]
      simp only [hset]
      refine confined_prefix (hstring.trans (List.take_prefix n p)) (hp.head_ne (by decide)) ?_
      rw [hp.count_dot]
      exact Nat.zero_le _
  | @extension o p e rest hu hp he hrest hpath hext =>
      have hdrop : b.bytes.drop (a + o.length + 1) = (p ++ dot :: e) ++ (rest ++ post) := by
        have hsplit : b.bytes = (pre ++ (o ++ [slash])) ++ ((p ++ dot :: e) ++ (rest ++ post)) := by
          simp [hbytes, hu]
        rw [hsplit, List.drop_left' (by simp [ha]; omega)]
      have hset : ((a + o.length + 1 : Nat) + ((p.length : Int) + (e.length + 1))).toNat =
          a + o.length + 1 + (p ++ dot :: e).length := by
        rw [List.length_append, List.length_cons]
        omega
      have hstring := stringAt_set b.bytes (a + o.length + 1) (p ++ dot :: e).length
      rw [hdrop, List.take_left] at hstring
      rw [processAbsPath, hpath, hext]
      simp only [hset]
      refine confined_prefix hstring ?_ ?_
      · cases p with
        | nil => exact absurd rfl hp.ne_nil
        | cons c cs => exact hp.head_ne (by decide)
      · rw [List.count_append, List.count_cons_self, hp.count_dot, he.count_dot]

/-! ## the law -/

/-- **Confinement**: whatever the client sends, in whatever pieces, once the
request line is complete and its path is none of `server_cfg.locations`, the
string handed to `openat` does not begin with a slash, has no `..` and leads
nowhere above the root. -/
theorem openat_confined (base : HttpRequest) (wakes : List Wake) (locations : List UInt8 → Bool)
    (c : LineConn) (path : List UInt8) (hrun : lineRun wakes { r := base.beginLine } = .ok c)
    (hline : c.status = .headers) (hopen : (requestProcessUri locations c.r.uri c.b).1 = .openat path) :
    path.head? ≠ some slash ∧ [dot, dot] ∉ components path ∧
      (descend 0 (components path)).isSome = true := by
  have hread := lineRun_headers base wakes (w := []) (r := {}) (.nil _) (by decide) hrun hline
  obtain ⟨line, rest, r, haccepted, hb, hr, -⟩ := hread
  have hconfined : Confined path := by
    rw [requestProcessUri] at hopen
    split at hopen
    · contradiction
    · cases hopen
      cases haccepted with
      | @mk h v r version k hh hv =>
          cases hh with
          | @mk m u j i uri hm hmethod hu hne hin =>
              rw [hr, hb]
              refine hu.pathSlices.confined (m ++ spaces (j + 1))
                (spaces (i + 1) ++ (v ++ (spaces k ++ [cr, lf]) ++ rest)) ?_ ?_
              · simp only [List.append_assoc]
              · rw [List.length_append, List.length_replicate]
  exact ⟨hconfined.relative, hconfined.noDotDot, descend_isSome hconfined.noDotDot 0⟩

/-- `GET /a HTTP/1.1` on a server that forwards nothing. -/
theorem openat_plainLine :
    [97].head? ≠ some slash ∧ [dot, dot] ∉ components [97] ∧
      (descend 0 (components [97])).isSome = true :=
  openat_confined {} [.readable plainLine] (fun _ => false) _ [97] rfl rfl rfl

end PWebServer
