import PWebServer.Globals

/-!
# Http.Types

The records of `http.h` and `string_t.h`: slices of the receive buffer, the
states of the two incremental parsers, and the request.  A `char *` into a
request's receive buffer is its offset from `data`.
-/

namespace PWebServer

/-- `string`: a pointer and a length, the pointer as an offset into the buffer
it points to. -/
structure Str where
  c : Option Nat := none
  len : Int := 0
  deriving DecidableEq, Repr

namespace Str

/-- The bytes of `data` a slice covers. -/
def text (data : List UInt8) (s : Str) : List UInt8 :=
  (data.drop (s.c.getD 0)).take s.len.toNat

/-- `p - s.c` for a pointer `p` into the same buffer. -/
def upTo (s : Str) (p : Nat) : Int := (p : Int) - (s.c.getD 0 : Int)

end Str

/-- `req_state_t`.  `error` is the value `-1` that `parse_header` stores in
the state. -/
inductive ReqState where
  | rqBegin | rqMethod | rqUri | rqBeforeUri | rqBeforeVersion
  | rqVersionH | rqVersionHt | rqVersionHtt | rqVersionHttp | rqVersionSlash
  | rqVersionMajor | rqVersionDot | rqVersionMinor | rqAfterVersion
  | rqAlmostDone | rqDone
  | hdBegin | hdName | hdIgnore | hdIgnoreToBegin | hdColon | hdBeforeValue
  | hdValue | hdAlmostDone
  | bodyRecvBegin | bodyRecvDone
  | error
  deriving DecidableEq, Repr

/-- `uri_state_t`. -/
inductive UriState where
  | uriBegin | uriScheme | uriSchemeColon | uriPort | uriHost | uriBeforeQuery
  | uriExtension | uriBeforeExtension | uriQuery | uriAbsPath
  | uriSlashBeforeAbsPath | uriSlashAfterHost | uriSlashSlashAfterHost
  | uriSlashAfterScheme | uriSlashSlashAfterScheme
  deriving DecidableEq, Repr

/-- `method_t`. -/
inductive Method where
  | get | post | options | invalidMethod
  deriving DecidableEq, Repr

/-- `uri_t`; the extension is the slice of its union, as long as the request
line is parsed. -/
structure Uri where
  state : UriState := .uriBegin
  scheme : Str := {}
  absPath : Str := {}
  host : Str := {}
  port : Str := {}
  extensionStr : Str := {}
  query : Str := {}
  deriving DecidableEq, Repr

/-- `version_t`, two `uint16_t`. -/
structure Version where
  major : BitVec 16 := 0
  minor : BitVec 16 := 0
  deriving DecidableEq, Repr

/-- `request_header_t`. -/
structure RequestHeader where
  date : Str := {}
  connection : Str := {}
  accept : Str := {}
  cookie : Str := {}
  deriving DecidableEq, Repr

/-- The slot of the connection pool a `connection_t *` points to. -/
abbrev Slot := Nat

/-- `http_request_t`.  `cur_server_domain` is the index of a domain in
`servers`, `cur_upstream` adds the index of a server in it. -/
structure HttpRequest where
  connection : Option Slot := none
  upstream : Option Slot := none
  requestLine : Str := {}
  uri : Uri := {}
  version : Version := {}
  method : Method := .get
  headerName : Str := {}
  headerValue : Str := {}
  headers : RequestHeader := {}
  state : ReqState := .rqBegin
  status : Int := 0
  upstreamTries : Nat := 0
  responseDone : Bool := false
  keepAlive : Bool := false
  curUpstream : Option (Nat × Nat) := none
  curServerDomain : Option Nat := none
  deriving DecidableEq, Repr

/-- `buffer_t`: the bytes received so far, from `data` up to `end`, and the
`begin` pointer. -/
structure Buffer where
  bytes : List UInt8 := []
  begin : Nat := 0
  deriving DecidableEq, Repr

/-- `limit - data`: the bytes a buffer holds. -/
def bufSize : Nat := 1025

/-- `buffer_full`. -/
def Buffer.full (b : Buffer) : Bool := decide (bufSize ≤ b.bytes.length)

/-- `buffer_recv` once `recv` has something: of the bytes the peer has sent it
delivers at most `limit - end`. -/
def Buffer.recv (b : Buffer) (sent : List UInt8) : Buffer :=
  { b with bytes := b.bytes ++ sent.take (bufSize - b.bytes.length) }

/-- `create_http_request`: every field zero, the two parsers in their first
states. -/
def createHttpRequest : HttpRequest := {}

/-- What `construct_err` stores in the request: the status, and that nothing
is left to do but to send the error page and close. -/
def HttpRequest.constructErr (err : Int) (r : HttpRequest) : HttpRequest :=
  { r with status := err, responseDone := true, keepAlive := false }

end PWebServer
