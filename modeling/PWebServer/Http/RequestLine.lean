import PWebServer.Http.Types
import PWebServer.Lib.Scan

/-!
# Http.RequestLine

`parse_request_line` with `parse_uri` and `parse_request_method`: two nested
state machines that look at one byte at a time and keep what they found as
slices of the receive buffer.
-/

namespace PWebServer

open Scan

/-! ## classes of bytes -/

/-- `'/'` -/
def slash : UInt8 := '/'.toUInt8

/-- `':'` -/
def colon : UInt8 := ':'.toUInt8

/-- `'.'` -/
def dot : UInt8 := '.'.toUInt8

/-- `'?'` -/
def question : UInt8 := '?'.toUInt8

/-- `' '` -/
def space : UInt8 := ' '.toUInt8

/-- `'\r'` -/
def cr : UInt8 := '\r'.toUInt8

/-- `'\n'` -/
def lf : UInt8 := '\n'.toUInt8

/-- A `case` label for each of the characters `cs`. -/
def oneOf (cs : List Char) (ch : UInt8) : Bool := (cs.map Char.toUInt8).contains ch

/-- `'A' ... 'Z'` -/
def isUpper (ch : UInt8) : Bool := 'A'.toUInt8 ≤ ch && ch ≤ 'Z'.toUInt8

/-- `'A' ... 'Z'` and `'a' ... 'z'` -/
def isAlpha (ch : UInt8) : Bool := isUpper ch || ('a'.toUInt8 ≤ ch && ch ≤ 'z'.toUInt8)

/-- `'0' ... '9'` -/
def isDigit (ch : UInt8) : Bool := '0'.toUInt8 ≤ ch && ch ≤ '9'.toUInt8

/-- The bytes `parse_uri` lists inside a scheme. -/
def allowedInScheme (ch : UInt8) : Bool := isAlpha ch || isDigit ch || oneOf ['+', '-', '.'] ch

/-- The bytes `parse_uri` lists inside a host. -/
def allowedInHost (ch : UInt8) : Bool := isAlpha ch || isDigit ch || oneOf ['.', '-'] ch

/-- `ALLOWED_IN_ABS_PATH` -/
def allowedInAbsPath (ch : UInt8) : Bool :=
  isAlpha ch || isDigit ch ||
    oneOf ['-', '_', '!', '~', '*', '\x27', '(', ')', '%', ':', '@', '&', '=', '+', '$', ',', ';'] ch

/-- `ALLOWED_IN_QUERY` -/
def allowedInQuery (ch : UInt8) : Bool := oneOf ['.', '/', '?'] ch || allowedInAbsPath ch

/-- The bytes that may not stand before the end of a URI. -/
def isBreak (ch : UInt8) : Bool := oneOf ['\t', '\r', '\n'] ch

/-! ## the URI -/

/-- `parse_uri` on the byte `ch` at `p`.  In the state of a path the `switch`
has no `default`. -/
def parseUri (uri : Uri) (p : Nat) (ch : UInt8) : Ret × Uri :=
  match uri.state with
  | .uriBegin =>
      if ch = slash then (.ok, { uri with state := .uriSlashBeforeAbsPath })
      else if isAlpha ch then
        (.ok, { uri with scheme := { uri.scheme with c := some p }, state := .uriScheme })
      else (.error, uri)
  | .uriScheme =>
      if allowedInScheme ch then (.ok, uri)
      else if ch = colon then
        (.ok, { uri with
          scheme := { uri.scheme with len := uri.scheme.upTo p }, state := .uriSchemeColon })
      else (.error, uri)
  | .uriSchemeColon =>
      if ch = slash then (.ok, { uri with state := .uriSlashAfterScheme })
      else (.error, uri)
  | .uriSlashAfterScheme =>
      if ch = slash then (.ok, { uri with state := .uriSlashSlashAfterScheme })
      else (.error, uri)
  | .uriSlashSlashAfterScheme =>
      if isAlpha ch || isDigit ch then
        (.ok, { uri with host := { uri.host with c := some p }, state := .uriHost })
      else (.error, uri)
  | .uriHost =>
      if allowedInHost ch then (.ok, uri)
      else if ch = colon then
        (.ok, { uri with
          host := { uri.host with len := uri.host.upTo p }
          state := .uriPort
          port := { uri.port with c := some p } })
      else if ch = slash then
        (.ok, { uri with
          host := { uri.host with len := uri.host.upTo p }, state := .uriSlashBeforeAbsPath })
      else (.error, uri)
  | .uriPort =>
      if isDigit ch then (.ok, uri)
      else if ch = slash then
        let port : Str := { uri.port with c := uri.port.c.map (· + 1) }
        (.ok, { uri with port := { port with len := port.upTo p }, state := .uriSlashBeforeAbsPath })
      else (.error, uri)
  | .uriSlashBeforeAbsPath =>
      if allowedInAbsPath ch then
        (.ok, { uri with state := .uriAbsPath, absPath := { uri.absPath with c := some p } })
      else (.error, uri)
  | .uriAbsPath =>
      if allowedInAbsPath ch then (.ok, uri)
      else if ch = dot then
        (.ok, { uri with
          absPath := { uri.absPath with len := uri.absPath.upTo p }, state := .uriBeforeExtension })
      else if ch = question then (.ok, { uri with state := .uriBeforeQuery })
      else (.ok, uri)
  | .uriBeforeExtension =>
      if isAlpha ch then
        (.ok, { uri with
          extensionStr := { uri.extensionStr with c := some p }, state := .uriExtension })
      else (.error, uri)
  | .uriExtension =>
      if isAlpha ch then (.ok, uri)
      else if ch = question then
        (.ok, { uri with
          extensionStr := { uri.extensionStr with len := uri.extensionStr.upTo p }
          state := .uriBeforeQuery })
      else (.error, uri)
  | .uriBeforeQuery =>
      if allowedInQuery ch then
        (.ok, { uri with query := { uri.query with c := some p }, state := .uriQuery })
      else (.error, uri)
  | .uriQuery => if allowedInQuery ch then (.ok, uri) else (.error, uri)
  | .uriSlashAfterHost | .uriSlashSlashAfterHost => (.error, uri)

/-- The space after a URI closes the slice that is open.  In any other state
`ABORT_ON(0, ...)` does nothing. -/
def closeUri (uri : Uri) (p : Nat) : Uri :=
  match uri.state with
  | .uriAbsPath => { uri with absPath := { uri.absPath with len := uri.absPath.upTo p } }
  | .uriHost => { uri with host := { uri.host with len := uri.host.upTo p } }
  | .uriPort =>
      let port : Str := { uri.port with c := uri.port.c.map (· + 1) }
      { uri with port := { port with len := port.upTo p } }
  | .uriExtension =>
      { uri with extensionStr := { uri.extensionStr with len := uri.extensionStr.upTo p } }
  | .uriQuery => { uri with query := { uri.query with len := uri.query.upTo p } }
  | _ => uri

/-! ## the line -/

/-- The bytes of a word. -/
def text (cs : List Char) : List UInt8 := cs.map Char.toUInt8

/-- `parse_request_method` on the bytes between its two pointers. -/
def parseRequestMethod (word : List UInt8) : Method :=
  if word = text ['G', 'E', 'T'] then .get
  else if word = text ['P', 'O', 'S', 'T'] then .post
  else if word = text ['O', 'P', 'T', 'I', 'O', 'N', 'S'] then .options
  else .invalidMethod

/-- `n * 10 + ch - '0'`, stored in a `uint16_t`. -/
def pushDigit (n : BitVec 16) (ch : UInt8) : BitVec 16 :=
  n * 10 + BitVec.ofNat 16 (ch.toNat - '0'.toUInt8.toNat)

/-- The body of the loop of `parse_request_line`, on the byte `ch` with the
bytes `before` it. -/
def requestLineBody (r : HttpRequest) (before : List UInt8) (ch : UInt8) :
    Next HttpRequest Ret :=
  let p := before.length
  match r.state with
  | .rqBegin =>
      if isUpper ch then
        .go { r with requestLine := { r.requestLine with c := some p }, state := .rqMethod }
      else .stop .invalidRequest r
  | .rqMethod =>
      if isUpper ch then .go r
      else if ch = space then
        let r := { r with method := parseRequestMethod (before.drop (r.requestLine.c.getD 0)) }
        if r.method = .invalidMethod then .stop .invalidRequest r
        else .go { r with state := .rqBeforeUri }
      else .go r
  | .rqBeforeUri =>
      if isBreak ch then .stop .invalidRequest r
      else if ch = space then .go r
      else
        match parseUri r.uri p ch with
        | (.ok, uri) => .go { r with uri := uri, state := .rqUri }
        | (err, uri) => .stop err { r with uri := uri }
  | .rqUri =>
      if isBreak ch then .stop .invalidRequest r
      else if ch = space then
        .go { r with uri := closeUri r.uri p, state := .rqBeforeVersion }
      else
        match parseUri r.uri p ch with
        | (.ok, uri) => .go { r with uri := uri }
        | (err, uri) => .stop err { r with uri := uri }
  | .rqBeforeVersion =>
      if ch = space then .go r
      else if ch = 'H'.toUInt8 then .go { r with state := .rqVersionH }
      else .stop .invalidRequest r
  | .rqVersionH =>
      if ch ≠ 'T'.toUInt8 then .stop .invalidRequest r else .go { r with state := .rqVersionHt }
  | .rqVersionHt =>
      if ch ≠ 'T'.toUInt8 then .stop .invalidRequest r else .go { r with state := .rqVersionHtt }
  | .rqVersionHtt =>
      if ch ≠ 'P'.toUInt8 then .stop .invalidRequest r else .go { r with state := .rqVersionHttp }
  | .rqVersionHttp =>
      if ch ≠ slash then .stop .invalidRequest r else .go { r with state := .rqVersionSlash }
  | .rqVersionSlash =>
      if isDigit ch then
        let r := { r with version := { r.version with major := pushDigit r.version.major ch } }
        if 100 < r.version.major.toNat then .stop .invalidRequest r
        else .go { r with state := .rqVersionDot }
      else .stop .invalidRequest r
  | .rqVersionMajor =>
      if isDigit ch then
        let r := { r with version := { r.version with major := pushDigit r.version.major ch } }
        if 100 < r.version.major.toNat then .stop .invalidRequest r else .go r
      else if ch = dot then .go { r with state := .rqVersionDot }
      else .stop .invalidRequest r
  | .rqVersionDot =>
      if isDigit ch then .stop .invalidRequest r else .go { r with state := .rqVersionMinor }
  | .rqVersionMinor =>
      if isDigit ch then
        let r := { r with version := { r.version with minor := pushDigit r.version.minor ch } }
        if 100 < r.version.minor.toNat then .stop .invalidRequest r else .go r
      else if ch = space then .go { r with state := .rqAfterVersion }
      else if ch = cr then .go { r with state := .rqAlmostDone }
      else .stop .invalidRequest r
  | .rqAfterVersion =>
      if ch = space then .go r
      else if ch = cr then .go { r with state := .rqAlmostDone }
      else .stop .invalidRequest r
  | .rqAlmostDone => if ch ≠ lf then .stop .invalidRequest r else .stop .ok r
  | _ => .stop .invalidRequest r

/-- The same as the body of a scan: no byte is rewritten. -/
def lineBody (r : HttpRequest) (before : List UInt8) (ch : UInt8) : UInt8 × Next HttpRequest Ret :=
  (ch, requestLineBody r before ch)

/-- What `parse_request_line` returns after its loop.  After an error `begin`
stays where it was. -/
def lineResult (b : Buffer) (out : Outcome UInt8 HttpRequest Ret) : Ret × HttpRequest × Buffer :=
  let p := out.before.length
  let r := out.state
  match out.res with
  | none => (.again, r, { b with begin := b.bytes.length })
  | some .ok =>
      (.ok, { r with
          requestLine := { r.requestLine with len := r.requestLine.upTo p }, state := .rqDone },
        { b with begin := p + 1 })
  | some err => (err, r, b)

/-- `parse_request_line`. -/
def parseRequestLine (r : HttpRequest) (b : Buffer) : Ret × HttpRequest × Buffer :=
  lineResult b (scan lineBody (b.bytes.take b.begin) (b.bytes.drop b.begin) r)

end PWebServer
