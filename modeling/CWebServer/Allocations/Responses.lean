import CWebServer.Allocations.Parsing
import CWebServer.Http.Scripts

/-!
# Allocations — Responses

`http_response` over a heap: what a handler does to it, `http_response_clear`,
`http_response_write` and `http_response_dealloc`, which leaves the string of
the reason phrase behind.
-/

namespace CWebServer.Allocations

open CWebServer.Lib CWebServer.Strings CWebServer.Http

/-- `stream_buffer_write` to a buffer, at a position in it. -/
def HeapBytes.writeAt (d : HeapBytes) (position : Nat) (hposition : position ≤ d.bytes.length)
    (src : Bytes) : Alloc { d' : HeapBytes // d'.bytes
      = d.bytes.take position ++ src ++ d.bytes.drop (position + src.length) } :=
  if hlonger : d.bytes.length < position + src.length then do
    let ⟨b, hlength, _⟩ ← d.b.setLength (position + src.length)
    b.access position src.length
    pure ⟨⟨d.bytes.take position ++ src ++ d.bytes.drop (position + src.length), b, by
      rw [hlength]
      simp only [List.length_append, List.length_take, List.length_drop]
      omega⟩, rfl⟩
  else do
    d.b.access position src.length
    pure ⟨⟨d.bytes.take position ++ src ++ d.bytes.drop (position + src.length), d.b, by
      rw [d.length_eq]
      simp only [List.length_append, List.length_take, List.length_drop]
      omega⟩, rfl⟩

/-- A call on the string that `http_header_append_value` returned. -/
def HeapString.edit (s : HeapString) : StringEdit → Alloc HeapString
  | .set text => do
      let ⟨s, _⟩ ← s.setCstrLen text
      pure s
  | .append text => do
      let ⟨s, _⟩ ← s.appendAndTerminate text
      pure s
  | .setLength length fill => do
      let ⟨s, _⟩ ← s.setLength length fill
      pure s

/-- `string_set_cstrf(.., "%zu", n)`. -/
def HeapString.setDecimal (s : HeapString) (n : Nat) : Alloc HeapString := do
  let ⟨s, _⟩ ← s.setCstrf (decimal n)
  pure s

/-- `http_header_append_value` followed by calls on the string. -/
def HeapHeader.appendEdited (h : HeapHeader) (edits : List StringEdit) : Alloc HeapHeader :=
  h.appendValue fun s => edits.foldlM HeapString.edit s

/-- The same for a header in use, behind the pointer to its slot in the array
as it is now. -/
def HeapHeaders.appendEdited (hs : HeapHeaders) (slot : Nat) (edits : List StringEdit) :
    Alloc HeapHeaders :=
  if slot < hs.headersLength then
    match hs.pointer slot with
    | none => failure
    | some p => hs.onHeader p (·.appendEdited edits)
  else pure hs

/-- `http_response`. -/
structure HeapResponse where
  scratch : HeapString
  statusCode : Int
  reasonPhrase : HeapString
  headers : HeapHeaders
  bodyBuffer : HeapBytes
  bodyPosition : Nat
  bodyPosition_le : bodyPosition ≤ bodyBuffer.bytes.length

namespace HeapResponse

def blocks (r : HeapResponse) : Multiset Block :=
  r.scratch.blocks + r.reasonPhrase.blocks + r.headers.blocks + r.bodyBuffer.blocks

def erase (r : HeapResponse) : HttpResponse where
  scratch := r.scratch.text
  statusCode := r.statusCode
  reasonPhrase := r.reasonPhrase.text
  headers := r.headers.erase
  bodyBuffer := r.bodyBuffer.bytes
  bodyPosition := r.bodyPosition
  bodyPosition_le := r.bodyPosition_le

/-- `http_response_set_status_code`. -/
def setStatusCode (r : HeapResponse) (statusCode : Int) : Alloc HeapResponse := do
  let ⟨reasonPhrase, _⟩ ← r.reasonPhrase.setCstr (reasonPhraseOf statusCode)
  pure { r with statusCode, reasonPhrase }

/-- `http_response_init`. -/
def init : Alloc HeapResponse := do
  let ⟨scratch, _⟩ ← HeapString.init
  let ⟨reasonPhrase, _⟩ ← HeapString.init
  setStatusCode ⟨scratch, 0, reasonPhrase, .init, .init, 0, zero_le_zero⟩ 200

/-- `http_response_dealloc`. The buffer is not deallocated with the stream. -/
def dealloc (r : HeapResponse) : Alloc Unit := do
  r.headers.dealloc
  r.bodyBuffer.dealloc
  r.scratch.dealloc

/-- `http_response_clear`. -/
def clear (r : HeapResponse) : Alloc HeapResponse := do
  let ⟨scratch, _⟩ ← r.scratch.clear
  let r ← setStatusCode { r with scratch } 200
  let ⟨bodyBuffer, hempty⟩ ← r.bodyBuffer.clear
  pure { r with
    headers := r.headers.clear
    bodyBuffer
    bodyPosition := streamBufferSetPosition bodyBuffer.bytes.length 0
    bodyPosition_le := by rw [hempty]; exact Nat.le_refl _ }

/-! ## What a handler does -/

/-- A call of a handler. -/
def call (r : HeapResponse) : ScriptCall → Alloc HeapResponse
  | .setStatusCode statusCode => r.setStatusCode statusCode
  | .getCstr name => do
      let (_, headers) ← r.headers.getCstrLen (cstr name) true
      pure { r with headers }
  | .appendValue slot edits => do
      let headers ← r.headers.appendEdited slot edits
      pure { r with headers }
  | .writeBody src => do
      let ⟨bodyBuffer, hbytes⟩ ← r.bodyBuffer.writeAt r.bodyPosition r.bodyPosition_le src
      pure { r with
        bodyBuffer
        bodyPosition := r.bodyPosition + src.length
        bodyPosition_le := by
          have := r.bodyPosition_le
          simp only [hbytes, List.length_append, List.length_take]
          omega }

/-- `stream_write_cstrf` on the body, with the text that is formatted. -/
def printBody (r : HeapResponse) (text : Bytes) : Alloc HeapResponse := do
  let ⟨b, _⟩ ← HeapBuffer.init.setLength (text.length + 1)
  b.access 0 (text.length + 1)
  b.access 0 text.length
  let r ← r.call (.writeBody text)
  b.dealloc
  pure r

/-! ## Writing -/

/-- The value of `Content-Length` that does not stay. -/
def staleLength (bodyLength : Nat) (h : HeapHeader) : Alloc Bool :=
  if h.valuesLength ≠ 1 then pure true
  else do
    let length ← HeapRequest.readContentLength h
    pure (length ≠ .value bodyLength)

/-- What is done to the `Content-Length` header first. -/
def fixContentLength (bodyLength : Nat) (h : HeapHeader) : Alloc HeapHeader := do
  let stale ← staleLength bodyLength h
  let h := if stale then h.clear else h
  if h.valuesLength = 0 then
    h.appendValue (·.setDecimal bodyLength)
  else pure h

def fixHeaders (r : HeapResponse) : Alloc HeapResponse := do
  let (p, headers) ← r.headers.getCstrLen (cstr (ascii "Content-Length")) true
  match p with
  | none => failure
  | some p => do
      let headers ← headers.onHeader p (fixContentLength r.bodyBuffer.bytes.length)
      pure { r with headers }

/-- The text of the log line, in `scratch`. -/
def logText (r : HeapResponse) : Alloc HeapResponse := do
  let ⟨scratch, _⟩ ← r.scratch.clear
  r.reasonPhrase.read
  let ⟨scratch, _⟩ ← scratch.appendCstrf
    (ascii "serializing response " ++ decimalInt r.statusCode ++ ascii " "
      ++ cstr r.reasonPhrase.text ++ ascii "\n")
  let scratch ← headersToString r.headers (ascii "    ") scratch
  let ⟨scratch, _⟩ ← scratch.appendCstrf
    (ascii "    body: " ++ decimal r.bodyBuffer.bytes.length ++ ascii " bytes\n")
  scratch.read
  pure { r with scratch }

/-- A write: what is done with the heap for it, and the bytes offered. -/
structure OfferedWrite where
  offer : Alloc Unit
  text : Bytes

/-- `stream_write_cstrf`, whose arguments are read by `read`. The text is
formatted into a buffer of its own, which is deallocated before the return. -/
def writeCstrf (read : Alloc Unit) (text : Bytes) : OfferedWrite where
  offer := do
    read
    let ⟨b, _⟩ ← HeapBuffer.init.setLength (text.length + 1)
    b.access 0 (text.length + 1)
    b.access 0 text.length
    b.dealloc
  text := text

/-- The values of a header from `j` on, with separators. -/
def valueWrites (data : Option Nat) : Nat → List HeapString → List OfferedWrite
  | _, [] => []
  | j, value :: rest =>
      (if 0 < j then [writeCstrf (pure ()) (ascii ",")] else [])
        ++ writeCstrf (do accessPointer data j 1; value.read) (cstr value.text)
        :: valueWrites data (j + 1) rest

/-- The headers from `i` on. -/
def headerWrites (data : Option Nat) : Nat → List HeapHeader → List OfferedWrite
  | _, [] => []
  | i, h :: rest =>
      writeCstrf (do accessPointer data i 1; h.name.read) (cstr h.name.text ++ ascii ": ")
        :: valueWrites h.values.data 0 (h.values.slots.take h.valuesLength)
        ++ writeCstrf (pure ()) (ascii "\r\n") :: headerWrites data (i + 1) rest

/-- The writes of `http_response_write`, in order. -/
def offeredWrites (r : HeapResponse) : List OfferedWrite :=
  writeCstrf r.reasonPhrase.read (ascii "HTTP/1.1 " ++ decimalInt r.statusCode ++ ascii " "
      ++ cstr r.reasonPhrase.text ++ ascii "\r\n")
    :: headerWrites r.headers.headers.data 0 (r.headers.headers.slots.take r.headers.headersLength)
    ++ [writeCstrf (pure ()) (ascii "\r\n"),
      ⟨r.bodyBuffer.b.access 0 r.bodyBuffer.bytes.length, r.bodyBuffer.bytes⟩]

/-- What a write that returned a negative number leaves in `scratch`, which
goes to the log: a write that failed may have put the text of its error
there. -/
def writeError (error : Option Bytes) (accepted : Option Nat) (scratch : HeapString) :
    Alloc HeapString :=
  match accepted, error with
  | none, some text => do
      let ⟨scratch, _⟩ ← scratch.setCstrf text
      scratch.read
      pure scratch
  | _, _ => do
      scratch.read
      pure scratch

/-- The writes from the `i`th on. -/
def writeAll (d : Destination) (error : Option Bytes) : Nat → List OfferedWrite → HeapString →
    Alloc (Nat × HeapString × Bytes)
  | _, [], scratch => pure (0, scratch, [])
  | i, w :: rest, scratch => do
      w.offer
      let accepted := w.text.take ((d.accepts i w.text).getD 0)
      if streamWriteResult (d.accepts i w.text) < 0 then do
        let scratch ← writeError error (d.accepts i w.text) scratch
        pure (1, scratch, accepted)
      else do
        let (code, scratch, more) ← writeAll d error (i + 1) rest scratch
        pure (code, scratch, accepted ++ more)

/-- `http_response_write`, to a destination that leaves this text of an error, if
it leaves one. -/
def write (r : HeapResponse) (d : Destination) (error : Option Bytes) :
    Alloc (Nat × HeapResponse × Bytes) := do
  let r ← r.fixHeaders
  let r ← r.logText
  let (code, scratch, accepted) ← writeAll d error 0 r.offeredWrites r.scratch
  pure (code, { r with scratch }, accepted)

end HeapResponse

end CWebServer.Allocations
