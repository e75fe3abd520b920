import PWebServer.Http.RequestLine

/-!
# Http.Header

`parse_header`: the state machine that reads one line of the header per call
and turns the capital letters of a name into small ones where they stand.
-/

namespace PWebServer

open Scan

/-! ## the line -/

/-- `HEADER_NAME_ALLOW_CASE` -/
def headerNameAllow (ch : UInt8) : Bool := isAlpha ch || isDigit ch || oneOf ['-', '_'] ch

/-- `*p = ch = ch - 'A' + 'a'` on `'A' ... 'Z'`. -/
def lowerCase (ch : UInt8) : UInt8 :=
  if isUpper ch then ch - 'A'.toUInt8 + 'a'.toUInt8 else ch

/-- The body of the loop of `parse_header`, on the byte `ch` with the bytes
`before` it.  The state a space behind a name leads to is none of the parser's
own. -/
def headerBody (r : HttpRequest) (before : List UInt8) (ch : UInt8) :
    UInt8 × Next HttpRequest Ret :=
  let p := before.length
  match r.state with
  | .hdBegin =>
      let r := { r with headerName := {}, headerValue := {} }
      if headerNameAllow ch then
        (lowerCase ch, .go { r with headerName := { c := some p, len := 0 }, state := .hdName })
      else if ch = cr then (ch, .go { r with state := .hdAlmostDone })
      else if ch = lf then (ch, .stop .ok r)
      else if ch = space then (ch, .go r)
      else (ch, .stop .error r)
  | .hdName =>
      if headerNameAllow ch then (lowerCase ch, .go r)
      else if ch = colon then
        (ch, .go { r with
          headerName := { r.headerName with len := r.headerName.upTo p }, state := .hdColon })
      else if ch = cr then (ch, .go { r with state := .hdAlmostDone })
      else if ch = space then (ch, .go { r with state := .error })
      else (ch, .stop .error r)
  | .hdBeforeValue | .hdColon =>
      if ch = space then (ch, .go { r with state := .hdBeforeValue })
      else
        (ch, .go { r with
          state := .hdValue, headerValue := { r.headerValue with c := some p } })
  | .hdValue =>
      if ch = cr then
        (ch, .go { r with
          headerValue := { r.headerValue with len := r.headerValue.upTo p }
          state := .hdAlmostDone })
      else if ch = lf then
        (ch, .stop .ok { r with
          headerValue := { r.headerValue with len := r.headerValue.upTo p } })
      else (ch, .go r)
  | .hdAlmostDone => if ch = lf then (ch, .stop .ok r) else (ch, .stop .error r)
  | _ => (ch, .stop .error r)

/-- What `parse_header` returns after its loop.  After an error `begin` stays
where it was. -/
def headerResult (b : Buffer) (out : Outcome UInt8 HttpRequest Ret) : Ret × HttpRequest × Buffer :=
  let b := { b with bytes := out.before ++ out.after }
  match out.res with
  | none => (.again, out.state, { b with begin := b.bytes.length })
  | some .ok =>
      (.ok, { out.state with state := .hdBegin }, { b with begin := out.before.length + 1 })
  | some err => (err, out.state, b)

/-- `parse_header`. -/
def parseHeader (r : HttpRequest) (b : Buffer) : Ret × HttpRequest × Buffer :=
  headerResult b (scan headerBody (b.bytes.take b.begin) (b.bytes.drop b.begin) r)

/-- The parser's loop is left with `OK` or with `ERROR`. -/
theorem headerBody_stop (h : headerBody r before ch = (ch', .stop res r')) :
    res = .ok ∨ res = .error := by
  unfold headerBody at h
  cases hst : r.state <;> simp only [hst] at h <;>
    first
    | (cases h; simp)
    | (split_ifs at h <;> cases h <;> simp)

end PWebServer
