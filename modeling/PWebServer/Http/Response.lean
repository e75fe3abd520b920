import PWebServer.Http.RequestLine

/-!
# Http.Response

What the server itself writes into a send buffer: `construct_err` with the
error pages, and the header of `construct_response`.

A `string` that is longer than the array it points to is copied with whatever
lies behind that array in memory; `readStatic` has those bytes as a parameter.
-/

namespace PWebServer

/-! ## the buffer -/

/-- The bytes of a string literal. -/
def cstr (s : String) : List UInt8 := s.toList.map Char.toUInt8

/-- `"\r\n"` -/
def crlf : List UInt8 := [cr, lf]

/-- `buffer_clear` -/
def Buffer.clear (_ : Buffer) : Buffer := { bytes := [], begin := 0 }

/-- `append_string_to_buffer`: what fits is appended. -/
def Buffer.appendString (b : Buffer) (str : List UInt8) : Except Fault Buffer :=
  let margin := bufSize - b.bytes.length
  if margin = 0 then .error .abort
  else .ok { b with bytes := b.bytes ++ str.take margin }

/-- `%d` -/
def printInt (n : Int) : List UInt8 :=
  let digits := (Nat.toDigits 10 n.natAbs).map Char.toUInt8
  if n < 0 then '-'.toUInt8 :: digits else digits

/-- A `long` that is passed for `%d`: its low 32 bits, as an `int`. -/
def toInt32 (n : Int) : Int := (BitVec.ofInt 32 n).toInt

/-- `buffer_sprintf`, given the formatted text: `vsnprintf` keeps the last byte
of the room it has for a NUL. -/
def Buffer.sprintf (b : Buffer) (str : List UInt8) : Except Fault Buffer :=
  let margin := bufSize - b.bytes.length
  if margin = 0 then .error .abort
  else if str.length < margin then .ok { b with bytes := b.bytes ++ str }
  else if str.length = margin then
    .ok { b with bytes := b.bytes ++ (str.take (margin - 1) ++ [0]) }
  else .error .abort

/-- `"Content-Length: "` -/
def contentLengthLabel : List UInt8 := cstr "Content-Length: "

/-- `buffer_sprintf(b, "Content-Length: %d\r\n", n)` -/
def Buffer.sprintfContentLength (b : Buffer) (n : Int) : Except Fault Buffer :=
  b.sprintf (contentLengthLabel ++ printInt (toInt32 n) ++ crlf)

/-! ## the status line -/

/-- The texts of `buffer_append_status_line`. -/
def statusText (status : Int) : List UInt8 :=
  if status = 100 then cstr "100 continue"
  else if status = 200 then cstr "200 OK"
  else if status = 404 then cstr "404 not found"
  else if status = 408 then cstr "408 Request Timeout"
  else if status = 502 then cstr "502 Bad Gateway"
  else if status = 503 then cstr "503 Service Temporarily Unavailable"
  else if status = 504 then cstr "504 Gateway Time-out"
  else cstr "500 Internal Server Error"

/-- The version `buffer_append_status_line` writes. -/
def responseVersion (version : Version) : List UInt8 :=
  if version.minor = 1 then cstr "HTTP/1.1 " else cstr "HTTP/1.2 "

/-- `buffer_append_status_line` -/
def bufferAppendStatusLine (version : Version) (status : Int) (b : Buffer) : Except Fault Buffer := do
  let b ← b.appendString (responseVersion version)
  let b ← b.appendString (statusText status)
  b.appendString crlf

/-! ## the error pages -/

/-- `err_page_tail`, without its NUL -/
def errPageTail : List UInt8 :=
  cstr "<hr><center><span style='font-style: italic;'></span></center>\r\n</body>\r\n</html>\r\n"

/-- An error page with its two titles. -/
def errPageWith (title : String) : List UInt8 :=
  cstr "<html>\r\n<head><title>" ++ cstr title ++
    cstr "</title></head>\r\n<body bgcolor=\"white\">\r\n<center><h1>" ++ cstr title ++
    cstr "</h1></center>\r\n"

/-- The pages `append_err_page` has a case for, without their NULs. -/
def errPage (err : Int) : Option (List UInt8) :=
  if err = 400 then some (errPageWith "400 Bad Request")
  else if err = 403 then some (errPageWith "403 Forbidden")
  else if err = 404 then some (errPageWith "404 Not Found")
  else if err = 408 then some (errPageWith "408 Request Time-out")
  else if err = 500 then some (errPageWith "500 Internal Server Error")
  else if err = 502 then some (errPageWith "502 Bad Gateway")
  else if err = 503 then some (errPageWith "503 Service Temporarily Unavailable")
  else if err = 504 then some (errPageWith "504 Gateway Time-out")
  else none

/-- The first `len` bytes from the address of a static array: its text, its NUL
and what the linker has placed behind it. -/
def readStatic (page : List UInt8) (behind : Nat → UInt8) (len : Nat) : List UInt8 :=
  (List.range len).map fun i => (page ++ [0]).getD i (behind i)

/-- `append_err_page`.  The page is copied with the length of page and tail,
the tail with its NUL. -/
def appendErrPage (behind : Nat → UInt8) (err : Int) (b : Buffer) : Except Fault Buffer := do
  let b ←
    match errPage err with
    | some page => do
        let len := page.length + errPageTail.length
        let b ← b.sprintfContentLength len
        let b ← b.appendString crlf
        b.appendString (readStatic page behind len)
    | none => pure b
  b.appendString (errPageTail ++ [0])

/-- What `construct_err` leaves in the send buffer. -/
def constructErrBuffer (behind : Nat → UInt8) (version : Version) (err : Int) (b : Buffer) :
    Except Fault Buffer := do
  let b := b.clear
  let b ← bufferAppendStatusLine version err b
  let b ← b.appendString (cstr "Server: pwebServer\r\n")
  let b ← b.appendString (cstr "Connection: close\r\n")
  let b ← b.appendString (cstr "Content-Type: text/html\r\n")
  let b ← appendErrPage behind err b
  b.appendString crlf

/-! ## the header of a file -/

/-- `extenstion_t` -/
inductive Extension where
  | html | json | txt | unknownExtension
  deriving DecidableEq, Repr

/-- The content types of `construct_response`. -/
def contentType (ext : Extension) : List UInt8 :=
  match ext with
  | .html => cstr "Content-Type: text/html; charset=utf-8\r\n"
  | .txt => cstr "Content-Type: text/plain; charset=utf-8\r\n"
  | .json => cstr "Content-Type: application/json; charset=utf-8\r\n"
  | .unknownExtension => cstr "Content-Type: text/html; charset=utf-8\r\n"

/-- What `construct_response` leaves in the send buffer. -/
def constructResponseBuffer (version : Version) (status : Int) (ext : Extension)
    (resourceLen : Int) (b : Buffer) : Except Fault Buffer := do
  let b := b.clear
  let b ← bufferAppendStatusLine version status b
  let b ← b.appendString (contentType ext)
  let b ← b.sprintfContentLength resourceLen
  b.appendString crlf

end PWebServer
