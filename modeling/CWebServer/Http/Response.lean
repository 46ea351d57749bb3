import CWebServer.Http.HeaderMap

/-!
# Http — Response

`http_response` and `http_response_write`. A destination says for each write
how many of the bytes offered it accepts, or that it fails; the text of the
error, which goes to `scratch`, is left out. The texts written are taken to be
`Formattable`: for a longer one `stream_write_cstrf` offers `SIZE_MAX` bytes of
an empty buffer.
-/

namespace CWebServer.Http

open CWebServer.Strings

/-- `http_response`. Of `body_stream` there is the position, which the buffer
reaches. -/
structure HttpResponse where
  scratch : Bytes
  statusCode : Int
  reasonPhrase : Bytes
  headers : HttpHeaders
  bodyBuffer : Bytes
  bodyPosition : Nat
  bodyPosition_le : bodyPosition ≤ bodyBuffer.length
deriving DecidableEq

/-- The `switch` of `http_response_set_status_code`. -/
def reasonPhraseOf : Int → Bytes
  | 100 => ascii "Continue"
  | 101 => ascii "Switching Protocols"
  | 200 => ascii "OK"
  | 201 => ascii "Created"
  | 202 => ascii "Accepted"
  | 203 => ascii "Non-Authoritative Information"
  | 204 => ascii "No Content"
  | 205 => ascii "Reset Content"
  | 206 => ascii "Partial Content"
  | 300 => ascii "Multiple Choices"
  | 301 => ascii "Moved Permanently"
  | 302 => ascii "Found"
  | 303 => ascii "See Other"
  | 304 => ascii "Not Modified"
  | 305 => ascii "Use Proxy"
  | 307 => ascii "Temporary Redirect"
  | 400 => ascii "Bad Request"
  | 401 => ascii "Unauthorized"
  | 402 => ascii "Payment Required"
  | 403 => ascii "Forbidden"
  | 404 => ascii "Not Found"
  | 405 => ascii "Method Not Allowed"
  | 406 => ascii "Not Acceptable"
  | 407 => ascii "Proxy Authentication Required"
  | 408 => ascii "Request Time-out"
  | 409 => ascii "Conflict"
  | 410 => ascii "Gone"
  | 411 => ascii "Length Required"
  | 412 => ascii "Precondition Failed"
  | 413 => ascii "Request Entity Too Large"
  | 414 => ascii "Request-URI Too Large"
  | 415 => ascii "Unsupported Media Type"
  | 416 => ascii "Requested range not satisfiable"
  | 417 => ascii "Expectation Failed"
  | 500 => ascii "Internal Server Error"
  | 501 => ascii "Not Implemented"
  | 502 => ascii "Bad Gateway"
  | 503 => ascii "Service Unavailable"
  | 504 => ascii "Gateway Time-out"
  | 505 => ascii "HTTP Version not supported"
  | _ => ascii "Other"

/-- `stream_buffer_set_position`: a position past the last byte is moved back
to it. -/
def streamBufferSetPosition (length pos : Nat) : Nat :=
  if length = 0 then 0 else if length ≤ pos then length - 1 else pos

namespace HttpResponse

/-- `http_response_set_status_code`. -/
def setStatusCode (r : HttpResponse) (statusCode : Int) : HttpResponse :=
  { r with statusCode := statusCode, reasonPhrase := reasonPhraseOf statusCode }

theorem zero_le_length_nil : 0 ≤ ([] : Bytes).length := Nat.zero_le _

def init : HttpResponse := ⟨[], 200, reasonPhraseOf 200, .init, [], 0, zero_le_length_nil⟩

/-- `http_response_clear`. -/
def clear (r : HttpResponse) : HttpResponse :=
  { r.setStatusCode 200 with
    scratch := []
    headers := r.headers.clear
    bodyBuffer := []
    bodyPosition := streamBufferSetPosition 0 0
    bodyPosition_le := Nat.le_refl _ }

/-- `stream_write` to the body: `stream_buffer_write`, which overwrites what
stands behind the position. -/
def writeBody (r : HttpResponse) (src : Bytes) : HttpResponse :=
  { r with
    bodyBuffer := r.bodyBuffer.take r.bodyPosition ++ src
      ++ r.bodyBuffer.drop (r.bodyPosition + src.length)
    bodyPosition := r.bodyPosition + src.length
    bodyPosition_le := by
      have := r.bodyPosition_le
      simp only [List.length_append, List.length_take]
      omega }

end HttpResponse

/-! ## Writing -/

/-- What is done to the `Content-Length` header first: unless it has one value
that reads as the length of the body, that becomes its only value. -/
def fixContentLength (bodyLength : Nat) (header : HttpHeader) : HttpHeader :=
  let header :=
    if header.getNumValues ≠ 1 then header.clear
    else
      match (header.getValue 0).bind sscanfZu with
      | some n => if n ≠ bodyLength then header.clear else header
      | none => header.clear
  if header.getNumValues = 0 then header.appendValue (decimal bodyLength) else header

def HttpResponse.fixHeaders (r : HttpResponse) : HttpHeaders :=
  match r.headers.getCstr (ascii "Content-Length") true with
  | (some i, headers) => headers.modify i (fixContentLength r.bodyBuffer.length)
  | (none, headers) => headers

/-- `%i`. -/
def decimalInt (n : Int) : Bytes :=
  ascii (toString n)

/-- The text of the log line. -/
def responseToString (r : HttpResponse) : Option Bytes :=
  (httpHeadersToString r.headers (ascii "    ")).map fun headers =>
    ascii "serializing response " ++ decimalInt r.statusCode ++ ascii " " ++ cstr r.reasonPhrase
      ++ ascii "\n" ++ headers ++ ascii "    body: " ++ decimal r.bodyBuffer.length
      ++ ascii " bytes\n"

/-- The bytes offered by the writes for one header: the name, the values with
separators, and the line break. -/
def headerWrites (header : HttpHeader) : List Bytes :=
  (cstr header.name ++ ascii ": ") :: (header.live.map cstr).intersperse (ascii ",")
    ++ [ascii "\r\n"]

/-- The bytes offered by each write of `http_response_write`, in order. -/
def HttpResponse.writes (r : HttpResponse) : List Bytes :=
  (ascii "HTTP/1.1 " ++ decimalInt r.statusCode ++ ascii " " ++ cstr r.reasonPhrase ++ ascii "\r\n")
    :: r.headers.live.flatMap headerWrites ++ [ascii "\r\n", r.bodyBuffer]

/-- All that is written but the body comes from `printf`, which has no result
above `INT_MAX`. -/
def HttpResponse.Formattable (r : HttpResponse) : Prop :=
  ∀ b ∈ r.writes.dropLast, b.length < 2 ^ 31

instance (r : HttpResponse) : Decidable r.Formattable :=
  inferInstanceAs (Decidable (∀ b ∈ r.writes.dropLast, b.length < 2 ^ 31))

/-- A destination: how many of these bytes the `i`th write accepts, `none` for
a failure. It accepts at least one byte if there is one. -/
structure Destination where
  accepts : Nat → Bytes → Option Nat
  accepts_le : ∀ i b n, accepts i b = some n → n ≤ b.length ∧ (b ≠ [] → 0 < n)

/-- What `stream_write` returns: the number of bytes, cut down to an `int`. -/
def streamWriteResult : Option Nat → Int
  | some n => (BitVec.ofNat 32 n).toInt
  | none => -1

/-- The writes from the `i`th on, up to the first that returns a negative
number: the return code and the bytes accepted. -/
def writeAll (d : Destination) : Nat → List Bytes → Nat × Bytes
  | _, [] => (0, [])
  | i, b :: bs =>
      let accepted := b.take ((d.accepts i b).getD 0)
      if streamWriteResult (d.accepts i b) < 0 then (1, accepted)
      else
        let (code, rest) := writeAll d (i + 1) bs
        (code, accepted ++ rest)

/-- How `http_response_write` ends: with a return code, the response it leaves
and the bytes accepted, or in undefined behaviour. -/
inductive WriteOutcome
  | returned (code : Nat) (response : HttpResponse) (accepted : Bytes)
  | undefined

def httpResponseWrite (r : HttpResponse) (d : Destination) : WriteOutcome :=
  let r := { r with headers := r.fixHeaders }
  match responseToString r with
  | none => .undefined
  | some text =>
      let (code, accepted) := writeAll d 0 r.writes
      .returned code { r with scratch := text } accepted

end CWebServer.Http
