import CWebServer.Allocations.Headers
import CWebServer.Http.Fields
import CWebServer.Http.Limits
import CWebServer.Http.Cuts

/-!
# Allocations — Requests

`http_request` over a heap, with `http_request_parse` in full. `erase` is the
request of `Http.Parse`: each part of the parser does to it what the function
of the same name does there, and the control flow is taken from it.
-/

namespace CWebServer.Allocations

open CWebServer.Lib CWebServer.Strings CWebServer.Http

/-! ## Buffers with their bytes -/

/-- A buffer, and what is in it up to its length. -/
structure HeapBytes where
  bytes : Bytes
  b : HeapBuffer
  length_eq : b.length = bytes.length

namespace HeapBytes

def blocks (d : HeapBytes) : Multiset Block := d.b.blocks

def init : HeapBytes := ⟨[], .init, rfl⟩

/-- `buffer_dealloc`. -/
def dealloc (d : HeapBytes) : Alloc Unit := d.b.dealloc

/-- `buffer_clear`. -/
def clear (d : HeapBytes) : Alloc { d' : HeapBytes // d'.bytes = [] } := do
  let ⟨b, hlength, _⟩ ← d.b.clear
  pure ⟨⟨[], b, hlength⟩, rfl⟩

/-- `buffer_append_bytes`. -/
def append (d : HeapBytes) (data : Bytes) :
    Alloc { d' : HeapBytes // d'.bytes = d.bytes ++ data } := do
  let ⟨b, hlength⟩ ← d.b.appendBytes data.length
  pure ⟨⟨d.bytes ++ data, b, by rw [hlength, d.length_eq, List.length_append]⟩, rfl⟩

section
variable (d : HeapBytes)

@[simp] theorem blocks_init : init.blocks = 0 := rfl

theorem dealloc_spec : Spec d.blocks d.dealloc (fun _ => 0) fun _ => True :=
  d.b.dealloc_spec

/-- Bytes of the buffer can be read. -/
theorem access_spec {start count : Nat} (hle : start + count ≤ d.bytes.length) :
    Spec d.blocks (d.b.access start count) (fun _ => d.blocks) fun _ => True :=
  d.b.access_spec (Nat.le_trans hle (d.length_eq ▸ d.b.length_le))

theorem clear_spec : Spec d.blocks d.clear (fun d' => d'.1.blocks) fun _ => True :=
  (d.b.setLength_spec 0).bind fun ⟨_, _, _⟩ _ => Spec.pure rfl trivial

theorem append_spec (data : Bytes) :
    Spec d.blocks (d.append data) (fun d' => d'.1.blocks) fun _ => True :=
  (d.b.appendBytes_spec data.length).bind fun ⟨_, _⟩ _ => Spec.pure rfl trivial

end

end HeapBytes

/-! ## Requests -/

/-- `http_request`. -/
structure HeapRequest where
  readBuf : HeapBytes
  scratch : HeapString
  method : HeapString
  uri : HeapString
  headers : HeapHeaders
  body : HeapBytes

namespace HeapRequest

def blocks (r : HeapRequest) : Multiset Block :=
  r.readBuf.blocks + r.scratch.blocks + r.method.blocks + r.uri.blocks + r.headers.blocks
    + r.body.blocks

def erase (r : HeapRequest) : HttpRequest where
  readBuf := r.readBuf.bytes
  scratch := r.scratch.text
  method := r.method.text
  uri := r.uri.text
  headers := r.headers.erase
  body := r.body.bytes

/-- `http_request_init`. -/
def init : Alloc HeapRequest := do
  let ⟨scratch, _⟩ ← HeapString.init
  let ⟨method, _⟩ ← HeapString.init
  let ⟨uri, _⟩ ← HeapString.init
  pure ⟨.init, scratch, method, uri, .init, .init⟩

/-- `http_request_dealloc`. -/
def dealloc (r : HeapRequest) : Alloc Unit := do
  r.readBuf.dealloc
  r.scratch.dealloc
  r.method.dealloc
  r.uri.dealloc
  r.headers.dealloc
  r.body.dealloc

/-- The calls at the head of `http_request_parse`. -/
def clear (r : HeapRequest) : Alloc HeapRequest := do
  let ⟨readBuf, _⟩ ← r.readBuf.clear
  let ⟨method, _⟩ ← r.method.clear
  let ⟨uri, _⟩ ← r.uri.clear
  let ⟨body, _⟩ ← r.body.clear
  pure { r with readBuf, method, uri, headers := r.headers.clear, body }

/-! ## Lines -/

/-- `string_set_cstr_len(&request->scratch, ...)` of bytes of `read_buf`. -/
def setScratch (r : HeapRequest) (start stop : Nat) : Alloc HeapRequest := do
  r.readBuf.b.access start (stop - start)
  let ⟨scratch, _⟩ ← r.scratch.setCstrLen (slice r.readBuf.bytes start stop)
  pure { r with scratch }

/-- The line that ends at the first CRLF. -/
def parseRequestLine (r : HeapRequest) (endOfRequestLine : Nat) :
    Alloc (Except HeapRequest HeapRequest) := do
  r.readBuf.b.access 0 endOfRequestLine
  let st := scanRequestLine endOfRequestLine (r.readBuf.bytes.take endOfRequestLine) 0 {}
  if st.foundEndOfProtocolVersion then do
    r.readBuf.b.access st.methodStart (st.methodEnd - st.methodStart)
    let ⟨method, _⟩ ← r.method.setCstrLen (slice r.readBuf.bytes st.methodStart st.methodEnd)
    r.readBuf.b.access st.uriStart (st.uriEnd - st.uriStart)
    let ⟨uri, _⟩ ← r.uri.setCstrLen (slice r.readBuf.bytes st.uriStart st.uriEnd)
    pure (.ok { r with method, uri })
  else do
    let r ← r.setScratch 0 endOfRequestLine
    r.scratch.read
    pure (.error r)

/-- A value of a header line. -/
def appendValue (scratch : HeapString) (p : HeaderPointer) (start stop : Nat) (hs : HeapHeaders) :
    Alloc HeapHeaders :=
  hs.onHeader p fun h => h.appendValue fun value => do
    let ⟨value, _⟩ ← value.setSubstr scratch start stop
    pure value

/-- The `while (1)` loop over the values. -/
def appendValues (scratch : HeapString) (p : HeaderPointer) :
    (fuel : Nat) → Nat × List (Nat × Nat) → HeapHeaders → Alloc HeapHeaders
  | fuel + 1, (2, (start, stop) :: (next, _) :: _), hs => do
      let hs ← appendValue scratch p start stop hs
      scratch.read
      appendValues scratch p fuel (stringSplit scratch.text next (ascii ",") 2 2) hs
  | _, (_, (start, stop) :: _), hs => appendValue scratch p start stop hs
  | _, (_, []), hs => pure hs

/-- A header line in `scratch`, from the call of `http_headers_get_cstr_len`
on. -/
def addField (r : HeapRequest) (nameStart nameEnd valueStart : Nat) : Alloc HeapRequest := do
  r.scratch.b.access nameStart (nameEnd - nameStart)
  let (p, headers) ← r.headers.getCstrLen (slice r.scratch.text nameStart nameEnd) true
  let ⟨scratch, _⟩ ← r.scratch.setSubstrSelf valueStart sizeMax
  let ⟨scratch, _⟩ ← scratch.trimStartAnyOfCstr (ascii " \t")
  scratch.read
  match p with
  | none => failure
  | some p => do
      let headers ← appendValues scratch p scratch.text.length
        (stringSplit scratch.text 0 (ascii ",") 2 2) headers
      pure { r with scratch, headers }

/-- A line after the request line that is not empty: bytes of `read_buf`. -/
def parseHeaderLine (r : HeapRequest) (start stop : Nat) :
    Alloc (Except HeapRequest HeapRequest) := do
  let r ← r.setScratch start stop
  r.scratch.read
  match stringSplit r.scratch.text 0 (ascii ":") 2 2 with
  | (2, (nameStart, nameEnd) :: (valueStart, _) :: _) => do
      let r ← r.addField nameStart nameEnd valueStart
      pure (.ok r)
  | _ => do
      r.scratch.read
      pure (.error r)

/-- The header `Content-Length`, which is to have one value. -/
def readContentLength (h : HeapHeader) : Alloc ContentLength :=
  if h.valuesLength = 1 then do
    accessPointer h.values.data 0 1
    match h.values.slots[0]? with
    | none => failure
    | some value => do
        value.read
        match sscanfZu value.text with
        | some n => pure (.value n)
        | none => pure .invalid
  else pure .invalid

/-- What is asked for at the end of the header. -/
def contentLength (hs : HeapHeaders) : Alloc (ContentLength × HeapHeaders) := do
  let (p, hs) ← hs.getCstrLen (ascii "Content-Length") false
  match p with
  | none => pure (.missing, hs)
  | some p => do
      access p.array p.index 1
      match hs.headers.slots[p.index]? with
      | none => failure
      | some h => do
          let length ← readContentLength h
          pure (length, hs)

/-- The empty line, at `i`. -/
def endHeader (r : HeapRequest) (l : ParseLocals) (i : Nat) :
    Alloc (Except HeapRequest (HeapRequest × ParseLocals)) := do
  let l := { l with foundEndOfHeader := true, startOfBody := i + 2 }
  let (length, headers) ← contentLength r.headers
  let r := { r with headers }
  match length with
  | .missing =>
      pure (.ok (r, { l with expectedContentLength := 0, maxReadLength := r.readBuf.bytes.length }))
  | .value n =>
      pure (.ok (r, { l with expectedContentLength := n, maxReadLength := (i + n) % 2 ^ 64 }))
  | .invalid => pure (.error r)

/-! ## The loops -/

/-- What is done at a CRLF at `i`. -/
def lineFound (r : HeapRequest) (l : ParseLocals) (i : Nat) :
    Alloc (Except HeapRequest (HeapRequest × ParseLocals)) := do
  let lineLength := i - l.endOfLastLine
  if !l.foundRequestLine then
    match ← r.parseRequestLine i with
    | .ok r => pure (.ok (r, { l with foundRequestLine := true }))
    | .error r => pure (.error r)
  else if !l.foundEndOfHeader then
    if lineLength = 0 then r.endHeader l i
    else
      match ← r.parseHeaderLine l.endOfLastLine i with
      | .ok r => pure (.ok (r, l))
      | .error r => pure (.error r)
  else pure (.ok (r, l))

/-- The `for` loop over `i`; `s` is the buffer from `i` on. -/
def scanLines : Bytes → Nat → HeapRequest → ParseLocals →
    Alloc (Except HeapRequest (HeapRequest × ParseLocals))
  | [], _, r, l => pure (.ok (r, l))
  | [_], _, r, l => pure (.ok (r, l))
  | a :: b :: s, i, r, l => do
      r.readBuf.b.access i 2
      if a = 13 ∧ b = 10 then
        match ← r.lineFound l i with
        | .error r => pure (.error r)
        | .ok (r, l) =>
            if l.foundEndOfHeader then pure (.ok (r, l))
            else scanLines s (i + 2) r { l with endOfLastLine := i + 2 }
      else scanLines (b :: s) (i + 1) r l

/-- `stream_read_buffer` into `read_buf`, up to its result. -/
def prepareRead (r : HeapRequest) : Alloc HeapRequest := do
  let len := r.readBuf.bytes.length
  let ⟨b, hlength, _⟩ ← r.readBuf.b.ensureCapacity (len + chunkReadSize)
  b.access len chunkReadSize
  pure { r with readBuf := ⟨r.readBuf.bytes, b, by rw [hlength, r.readBuf.length_eq]⟩ }

/-- The body of the `while` loop, for a read that got bytes. -/
def readBytes (r : HeapRequest) (l : ParseLocals) (c : Chunk) :
    Alloc (Except HeapRequest (HeapRequest × ParseLocals)) := do
  let ⟨b, hlength, _⟩ ← r.readBuf.b.setLength (r.readBuf.bytes.length + c.val.length)
  let r := { r with
    readBuf := ⟨r.readBuf.bytes ++ c.val, b, by rw [hlength, List.length_append]⟩ }
  if !l.foundRequestLine || !l.foundEndOfHeader then
    scanLines (r.readBuf.bytes.drop l.endOfLastLine) l.endOfLastLine r l
  else pure (.ok (r, l))

/-- The error text of a read that fails, if it writes one. -/
def readError (r : HeapRequest) : Option Bytes → Alloc HeapRequest
  | some text => do
      let ⟨scratch, _⟩ ← r.scratch.setCstrf text
      scratch.read
      pure { r with scratch }
  | none => do
      r.scratch.read
      pure r

/-- The `while` loop, and the reads it leaves. -/
def readLoop : Stream → HeapRequest → ParseLocals →
    Alloc (Except (HeapRequest × Stream) (HeapRequest × ParseLocals × Stream))
  | [], r, l =>
      if r.readBuf.bytes.length < l.maxReadLength then do
        let r ← r.prepareRead
        pure (.ok (r, l, []))
      else pure (.ok (r, l, []))
  | x :: s, r, l =>
      if r.readBuf.bytes.length < l.maxReadLength then do
        let r ← r.prepareRead
        match x with
        | .error text => do
            let r ← r.readError text
            pure (.error (r, s))
        | .endOfStream => pure (.ok (r, l, s))
        | .bytes c =>
            match ← r.readBytes l c with
            | .error r => pure (.error (r, s))
            | .ok (r, l) => readLoop s r l
      else pure (.ok (r, l, x :: s))

end HeapRequest

/-! ## The log text -/

/-- The comma in front of each value but the first. -/
def separate (dst : HeapString) (j : Nat) : Alloc HeapString :=
  if 0 < j then do
    let ⟨dst, _⟩ ← dst.appendCstr (ascii ",")
    pure dst
  else pure dst

/-- The values of a header from `j` on, each used as a format. -/
def appendTexts (data : Option Nat) : Nat → List HeapString → HeapString → Alloc HeapString
  | _, [], dst => pure dst
  | j, value :: rest, dst => do
      let dst ← separate dst j
      accessPointer data j 1
      value.read
      match vsnprintfNoArgs value.text with
      | none => failure
      | some text => do
          let ⟨dst, _⟩ ← dst.appendCstrf text
          appendTexts data (j + 1) rest dst

/-- The headers from `i` on. -/
def appendHeaderTexts (data : Option Nat) (indent : Bytes) :
    Nat → List HeapHeader → HeapString → Alloc HeapString
  | _, [], dst => pure dst
  | i, h :: rest, dst => do
      accessPointer data i 1
      h.name.read
      let ⟨dst, _⟩ ← dst.appendCstrf (indent ++ indent ++ cstr h.name.text ++ ascii ": ")
      let dst ← appendTexts h.values.data 0 (h.values.slots.take h.valuesLength) dst
      let ⟨dst, _⟩ ← dst.appendCstr (ascii "\n")
      appendHeaderTexts data indent (i + 1) rest dst

/-- `http_headers_to_string`. -/
def headersToString (hs : HeapHeaders) (indent : Bytes) (dst : HeapString) : Alloc HeapString := do
  let ⟨dst, _⟩ ← dst.appendCstrf
    (indent ++ ascii "headers, len=" ++ decimal hs.headersLength ++ ascii "\n")
  appendHeaderTexts hs.headers.data indent 0 (hs.headers.slots.take hs.headersLength) dst

namespace HeapRequest

/-- The text of the last log line, in `scratch`. -/
def logText (r : HeapRequest) : Alloc HeapRequest := do
  let ⟨scratch, _⟩ ← r.scratch.clear
  r.method.read
  r.uri.read
  let ⟨scratch, _⟩ ← scratch.appendCstrf
    (ascii "parsed request " ++ cstr r.method.text ++ ascii " " ++ cstr r.uri.text ++ ascii "\n")
  let scratch ← headersToString r.headers (ascii "    ") scratch
  let ⟨scratch, _⟩ ← scratch.appendCstrf
    (ascii "    body: " ++ decimal r.body.bytes.length ++ ascii " bytes\n")
  scratch.read
  pure { r with scratch }

/-- `http_request_parse`: the return code, the request and the reads not made.
The length of the body must not wrap. -/
def parse (r : HeapRequest) (stream : Stream) : Alloc (Nat × HeapRequest × Stream) := do
  let r ← r.clear
  match ← readLoop stream r {} with
  | .error (r, stream) => pure (1, r, stream)
  | .ok (r, l, stream) =>
      if !l.foundEndOfHeader then pure (1, r, stream)
      else if r.readBuf.bytes.length < l.startOfBody then failure
      else do
        r.readBuf.b.access l.startOfBody (r.readBuf.bytes.length - l.startOfBody)
        let ⟨body, _⟩ ← r.body.append (r.readBuf.bytes.drop l.startOfBody)
        let r ← logText { r with body }
        if r.body.bytes.length ≠ l.expectedContentLength then pure (1, r, stream)
        else pure (0, r, stream)

end HeapRequest

end CWebServer.Allocations
