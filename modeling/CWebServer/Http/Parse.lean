import CWebServer.Http.Headers

/-!
# Http — Parse

`http_request_parse`, from the first read to its return code. The stream is
the list of what its reads return, each of at most `CHUNK_READ_SIZE` bytes;
a stream that is used up is at its end. The loop bound is a `size_t` and
wraps; the length of `read_buf` is not bounded by the model.
-/

namespace CWebServer.Http

open CWebServer.Strings

def chunkReadSize : Nat := 1024
def maxSocketReadSizeInChunks : Nat := 64

/-- What one read returns that gets bytes. -/
abbrev Chunk := { c : Bytes // 0 < c.length ∧ c.length ≤ chunkReadSize }

/-- The outcome of one `stream_read_buffer`; a failing read may write an
error text. -/
inductive ReadResult
  | bytes (c : Chunk)
  | endOfStream
  | error (text : Option Bytes)

abbrev Stream := List ReadResult

/-- `http_request`. -/
structure HttpRequest where
  readBuf : Bytes := []
  scratch : Bytes := []
  method : Bytes := []
  uri : Bytes := []
  headers : HttpHeaders := .init
  body : Bytes := []
deriving DecidableEq

/-- The local variables of `http_request_parse` that live across reads. -/
structure ParseLocals where
  endOfLastLine : Nat := 0
  foundRequestLine : Bool := false
  foundEndOfHeader : Bool := false
  startOfBody : Nat := 0
  maxReadLength : Nat := maxSocketReadSizeInChunks * chunkReadSize
  expectedContentLength : Nat := 0
deriving DecidableEq, Repr

/-! ## The request line -/

/-- The flags and positions of the request line's tokens. -/
structure RequestLine where
  foundStartOfMethod : Bool := false
  foundEndOfMethod : Bool := false
  methodStart : Nat := 0
  methodEnd : Nat := 0
  foundStartOfUri : Bool := false
  foundEndOfUri : Bool := false
  uriStart : Nat := 0
  uriEnd : Nat := 0
  foundStartOfProtocolVersion : Bool := false
  foundEndOfProtocolVersion : Bool := false
  protocolVersionStart : Nat := 0
  protocolVersionEnd : Nat := 0
deriving DecidableEq, Repr

/-- The `for` loop over `j`; `s` is the rest of the line from `j` on. -/
def scanRequestLine (endOfRequestLine : Nat) : Bytes → Nat → RequestLine → RequestLine
  | [], _, st => st
  | c :: s, j, st =>
      let isSpace := c = 32
      if !st.foundStartOfMethod then
        if !isSpace then
          scanRequestLine endOfRequestLine s (j + 1)
            { st with foundStartOfMethod := true, methodStart := j }
        else scanRequestLine endOfRequestLine s (j + 1) st
      else if !st.foundEndOfMethod then
        if isSpace then
          scanRequestLine endOfRequestLine s (j + 1)
            { st with foundEndOfMethod := true, methodEnd := j }
        else scanRequestLine endOfRequestLine s (j + 1) st
      else if !st.foundStartOfUri then
        if !isSpace then
          scanRequestLine endOfRequestLine s (j + 1)
            { st with foundStartOfUri := true, uriStart := j }
        else scanRequestLine endOfRequestLine s (j + 1) st
      else if !st.foundEndOfUri then
        if isSpace then
          scanRequestLine endOfRequestLine s (j + 1)
            { st with foundEndOfUri := true, uriEnd := j }
        else scanRequestLine endOfRequestLine s (j + 1) st
      else if !st.foundStartOfProtocolVersion then
        if !isSpace then
          scanRequestLine endOfRequestLine s (j + 1)
            { st with foundStartOfProtocolVersion := true, protocolVersionStart := j }
        else scanRequestLine endOfRequestLine s (j + 1) st
      else if !st.foundEndOfProtocolVersion then
        if isSpace then
          { st with foundEndOfProtocolVersion := true, protocolVersionEnd := j }
        else if j = endOfRequestLine - 1 then
          { st with foundEndOfProtocolVersion := true, protocolVersionEnd := j + 1 }
        else scanRequestLine endOfRequestLine s (j + 1) st
      else scanRequestLine endOfRequestLine s (j + 1) st

/-- The bytes of `data` from `start` to before `stop`. -/
def slice (data : Bytes) (start stop : Nat) : Bytes :=
  (data.drop start).take (stop - start)

/-- The line that ends at the first CRLF; an error means `return 1`. -/
def parseRequestLine (r : HttpRequest) (endOfRequestLine : Nat) :
    Except HttpRequest HttpRequest :=
  let line := r.readBuf.take endOfRequestLine
  let st := scanRequestLine endOfRequestLine line 0 {}
  if st.foundEndOfProtocolVersion then
    .ok { r with
      method := slice r.readBuf st.methodStart st.methodEnd
      uri := slice r.readBuf st.uriStart st.uriEnd }
  else .error { r with scratch := line }

/-! ## A header line -/

/-- The `while (1)` loop over the values that commas separate, for what the
last `string_split` gave. A round with a second piece moves on to it, so
there are no more rounds than bytes. -/
def appendValues (scratch : Bytes) : (fuel : Nat) → Nat × List (Nat × Nat) → HttpHeader →
    HttpHeader
  | fuel + 1, (2, (start, stop) :: (next, _) :: _), header =>
      appendValues scratch fuel (stringSplit scratch next (ascii ",") 2 2)
        (header.appendValue (stringSetSubstr scratch start stop))
  | _, (_, (start, stop) :: _), header =>
      header.appendValue (stringSetSubstr scratch start stop)
  | _, (_, []), header => header

/-- A line after the request line that is not empty; an error means
`return 1`. -/
def parseHeaderLine (r : HttpRequest) (line : Bytes) : Except HttpRequest HttpRequest :=
  match stringSplit line 0 (ascii ":") 2 2 with
  | (2, (nameStart, nameEnd) :: (valueStart, _) :: _) =>
      let (slot, headers) := r.headers.getCstrLen (slice line nameStart nameEnd) true
      let scratch := stringSetSubstrSelf line valueStart sizeMax
      let scratch := stringTrimStartAnyOfCstr scratch (ascii " \t")
      let values := appendValues scratch scratch.length (stringSplit scratch 0 (ascii ",") 2 2)
      .ok { r with
        scratch := scratch
        headers :=
          match slot with
          | some i => headers.modify i values
          | none => headers }
  | _ => .error { r with scratch := line }

/-! ## The end of the header -/

/-- `string_get_cstr(value)` of the only value of `Content-Length`, and what
`sscanf` makes of it. -/
inductive ContentLength
  | missing
  | value (n : Nat)
  | invalid
deriving DecidableEq, Repr

def contentLength (hs : HttpHeaders) : ContentLength :=
  match hs.getCstrLen (ascii "Content-Length") false with
  | (none, _) => .missing
  | (some i, _) =>
      match hs.headers[i]? with
      | none => .missing
      | some h =>
          if h.getNumValues = 1 then
            match (h.getValue 0).bind sscanfZu with
            | some n => .value n
            | none => .invalid
          else .invalid

/-- The empty line, at `i`. -/
def endHeader (r : HttpRequest) (l : ParseLocals) (i : Nat) :
    Except HttpRequest (HttpRequest × ParseLocals) :=
  let l := { l with foundEndOfHeader := true, startOfBody := i + 2 }
  match contentLength r.headers with
  | .missing => .ok (r, { l with expectedContentLength := 0, maxReadLength := r.readBuf.length })
  | .value n =>
      .ok (r, { l with expectedContentLength := n, maxReadLength := (i + n) % 2 ^ 64 })
  | .invalid => .error r

/-! ## The loops -/

/-- What is done at a CRLF at `i`. -/
def lineFound (r : HttpRequest) (l : ParseLocals) (i : Nat) :
    Except HttpRequest (HttpRequest × ParseLocals) :=
  let lineLength := i - l.endOfLastLine
  if !l.foundRequestLine then
    match parseRequestLine r i with
    | .ok r => .ok (r, { l with foundRequestLine := true })
    | .error r => .error r
  else if !l.foundEndOfHeader then
    if lineLength = 0 then endHeader r l i
    else
      match parseHeaderLine r (slice r.readBuf l.endOfLastLine i) with
      | .ok r => .ok (r, l)
      | .error r => .error r
  else .ok (r, l)

/-- The `for` loop over `i`; `s` is the buffer from `i` on. The end of the
header leaves the loop. -/
def scanLines : Bytes → Nat → HttpRequest → ParseLocals →
    Except HttpRequest (HttpRequest × ParseLocals)
  | [], _, r, l => .ok (r, l)
  | [_], _, r, l => .ok (r, l)
  | a :: b :: s, i, r, l =>
      if a = 13 ∧ b = 10 then
        match lineFound r l i with
        | .error r => .error r
        | .ok (r, l) =>
            if l.foundEndOfHeader then .ok (r, l)
            else scanLines s (i + 2) r { l with endOfLastLine := i + 2 }
      else scanLines (b :: s) (i + 1) r l

/-- The body of the `while` loop, for a read that got bytes. -/
def readBytes (r : HttpRequest) (l : ParseLocals) (c : Chunk) :
    Except HttpRequest (HttpRequest × ParseLocals) :=
  let r := { r with readBuf := r.readBuf ++ c.val }
  if !l.foundRequestLine || !l.foundEndOfHeader then
    scanLines (r.readBuf.drop l.endOfLastLine) l.endOfLastLine r l
  else .ok (r, l)

/-- The `while` loop, and the reads it leaves. -/
def readLoop : Stream → HttpRequest → ParseLocals →
    Except (HttpRequest × Stream) (HttpRequest × ParseLocals × Stream)
  | [], r, l => .ok (r, l, [])
  | x :: s, r, l =>
      if r.readBuf.length < l.maxReadLength then
        match x with
        | .error text => .error ({ r with scratch := text.getD r.scratch }, s)
        | .endOfStream => .ok (r, l, s)
        | .bytes c =>
            match readBytes r l c with
            | .error r => .error (r, s)
            | .ok (r, l) => readLoop s r l
      else .ok (r, l, x :: s)

/-- How `http_request_parse` ends: with a return code, the request it leaves
and the reads not made, or in undefined behaviour. -/
inductive ParseOutcome
  | returned (code : Nat) (request : HttpRequest) (stream : Stream)
  | undefined

def HttpRequest.clear (r : HttpRequest) : HttpRequest :=
  { r with
    readBuf := []
    method := []
    uri := []
    headers := r.headers.clear
    body := [] }

/-- The text of the last log line. -/
def requestToString (r : HttpRequest) : Option Bytes :=
  (httpHeadersToString r.headers (ascii "    ")).map fun headers =>
    ascii "parsed request " ++ cstr r.method ++ ascii " " ++ cstr r.uri ++ ascii "\n" ++ headers
      ++ ascii "    body: " ++ decimal r.body.length ++ ascii " bytes\n"

def httpRequestParse (r : HttpRequest) (stream : Stream) : ParseOutcome :=
  match readLoop stream r.clear {} with
  | .error (r, stream) => .returned 1 r stream
  | .ok (r, l, stream) =>
      if !l.foundEndOfHeader then .returned 1 r stream
      else
        let r := { r with body := r.body ++ r.readBuf.drop l.startOfBody }
        match requestToString r with
        | none => .undefined
        | some text =>
            let r := { r with scratch := text }
            if r.body.length ≠ l.expectedContentLength then .returned 1 r stream
            else .returned 0 r stream

end CWebServer.Http
