import CWebServer.Allocations.Lifetimes

/-!
# Allocations — Records

The records of `http_server` over a heap, from `http_server_init` to
`http_server_dealloc`: `http_server_socket_accept` takes one from the pool or
allocates it, `http_server_task` works on it and `http_server_finalize_task`
puts it back. A thread works on a record of its own, so a run is any order of
calls, each on one of the records in use. `ServerTexts` is the same without a
heap. Where no call times out, each `worker_thread_pool_task` is used for one
connection, and is in no list when that is done.
-/

namespace CWebServer.Allocations

open CWebServer.Lib CWebServer.Strings CWebServer.Http

/-! ## Without a heap -/

/-- The texts of an `http_server_task_data`. -/
structure RecordTexts where
  requestAddress : Bytes
  request : HttpRequest
  response : HttpResponse

/-- A string of a record that is only read. -/
inductive RecordString
  | requestAddress
  | method
  | uri

/-- What is done to a record in `http_server_task`, and by the callback in
it. -/
inductive TaskCall
  | parse (stream : Stream)
  | read (string : RecordString)
  | getHeader (name : Bytes) (createIfMissing : Bool)
  | clearResponse
  | respond (c : ScriptCall)
  | printBody (text : Bytes)

/-- What the run shows: the results of `http_request_parse` and those of
`http_response_write`. -/
inductive RunResult
  | parsed (result : ParseResult)
  | written (result : WriteResult)

namespace RecordTexts

def new : RecordTexts := ⟨[], {}, .init⟩

/-- `none` is undefined behaviour. -/
def call (t : RecordTexts) : TaskCall → Option (RecordTexts × List RunResult)
  | .parse stream =>
      match httpRequestParse t.request stream with
      | .undefined => none
      | .returned code request rest =>
          some ({ t with request }, [.parsed (code, request, rest)])
  | .read _ => some (t, [])
  | .getHeader name createIfMissing =>
      some ({ t with request := { t.request with
        headers := (t.request.headers.getCstr name createIfMissing).2 } }, [])
  | .clearResponse => some ({ t with response := t.response.clear }, [])
  | .respond c => some ({ t with response := t.response.call c }, [])
  | .printBody text => some ({ t with response := t.response.writeBody text }, [])

/-- `http_server_finalize_task`; `none` is as in `responseCalls`. -/
def finalize (t : RecordTexts) (d : Destination) (error : Option Bytes) :
    Option (RecordTexts × List RunResult) :=
  if t.response.fixed.Formattable then
    match httpResponseWrite t.response d with
    | .undefined => none
    | .returned code response accepted =>
        some ({ t with
          response := { response with
            scratch := leftInScratch d error 0 t.response.fixed.writes response.scratch } },
          [.written (code, accepted)])
  else none

end RecordTexts

/-- A call of a thread. A record in use is named by its place among them, and
`queued` is whether the queue has room for it. `stream_file_descriptor_close`
has no `return`: what `stream_dealloc` returns is taken to be anything, and
`closed` is whether it is 0. -/
inductive ServerCall
  | accept (address : Bytes) (queued : Bool)
  | task (i : Nat) (c : TaskCall)
  | finalize (i : Nat) (d : Destination) (error : Option Bytes) (closed : Bool)

/-- How many connections it queues. -/
def ServerCall.queued : ServerCall → Nat
  | .accept _ queued => if queued then 1 else 0
  | .task .. => 0
  | .finalize .. => 0

/-- A record from the pool, or a new one. -/
def takeTexts : List RecordTexts → RecordTexts × List RecordTexts
  | [] => (.new, [])
  | t :: pool => (t, pool)

/-- The records in the pool and those in use. -/
structure ServerTexts where
  pool : List RecordTexts := []
  busy : List RecordTexts := []

namespace ServerTexts

def call (s : ServerTexts) : ServerCall → Option (ServerTexts × List RunResult)
  | .accept address _ =>
      let (t, pool) := takeTexts s.pool
      some (⟨pool, { t with requestAddress := cstr address } :: s.busy⟩, [])
  | .task i c =>
      match s.busy[i]? with
      | none => none
      | some t => (t.call c).map fun p => (⟨s.pool, s.busy.set i p.1⟩, p.2)
  | .finalize i d error _ =>
      match s.busy[i]? with
      | none => none
      | some t =>
          (t.finalize d error).map fun p => (⟨p.1 :: s.pool, s.busy.eraseIdx i⟩, p.2)

def run : List ServerCall → ServerTexts → Option (ServerTexts × List RunResult)
  | [], s => some (s, [])
  | c :: cs, s =>
      match s.call c with
      | none => none
      | some (s', results) => (run cs s').map fun p => (p.1, results ++ p.2)

end ServerTexts

/-! ## One record -/

/-- `http_server_task_data`. -/
structure HeapRecord where
  block : Nat
  scratch : HeapString
  requestAddress : HeapString
  request : HeapRequest
  response : HeapResponse

namespace HeapRecord

/-- The blocks of its parts. -/
def parts (t : HeapRecord) : Multiset Block :=
  t.scratch.blocks + t.requestAddress.blocks + t.request.blocks + t.response.blocks

def blocks (t : HeapRecord) : Multiset Block := {⟨t.block, 1⟩} + t.parts

def erase (t : HeapRecord) : RecordTexts where
  requestAddress := t.requestAddress.text
  request := t.request.erase
  response := t.response.erase

/-- A new record. -/
def init : Alloc HeapRecord := do
  let block ← malloc 1
  let ⟨scratch, _⟩ ← HeapString.init
  let ⟨requestAddress, _⟩ ← HeapString.init
  let request ← HeapRequest.init
  let response ← HeapResponse.init
  pure ⟨block, scratch, requestAddress, request, response⟩

/-- `string_set_str(&task_data->request_address, address)`, and the log line. -/
def setAddress (t : HeapRecord) (address : HeapString) : Alloc HeapRecord := do
  access t.block 0 1
  let ⟨requestAddress, _⟩ ← t.requestAddress.setStr address
  requestAddress.read
  pure { t with requestAddress }

def string (t : HeapRecord) : RecordString → HeapString
  | .requestAddress => t.requestAddress
  | .method => t.request.method
  | .uri => t.request.uri

def call (t : HeapRecord) (c : TaskCall) : Alloc (HeapRecord × List RunResult) := do
  access t.block 0 1
  match c with
  | .parse stream => do
      t.requestAddress.read
      let (code, request, rest) ← t.request.parse stream
      pure ({ t with request }, [.parsed (code, request.erase, rest)])
  | .read string => do
      (t.string string).read
      pure (t, [])
  | .getHeader name createIfMissing => do
      let (_, headers) ← t.request.headers.getCstrLen (cstr name) createIfMissing
      pure ({ t with request := { t.request with headers } }, [])
  | .clearResponse => do
      let response ← t.response.clear
      pure ({ t with response }, [])
  | .respond c => do
      let response ← t.response.call c
      pure ({ t with response }, [])
  | .printBody text => do
      let response ← t.response.printBody text
      pure ({ t with response }, [])

/-- The log line if `stream_dealloc(&data->socket_stream, &data->scratch)` does
not return 0. -/
def logClose (t : HeapRecord) (closed : Bool) : Alloc Unit :=
  if closed then pure () else t.scratch.read

/-- `http_server_finalize_task`, up to the lock. -/
def finalize (t : HeapRecord) (d : Destination) (error : Option Bytes) (closed : Bool) :
    Alloc (HeapRecord × List RunResult) := do
  access t.block 0 1
  t.requestAddress.read
  t.request.method.read
  t.request.uri.read
  let (code, response, accepted) ← t.response.write d error
  t.logClose closed
  pure ({ t with response }, [.written (code, accepted)])

/-- What `http_server_dealloc` does to a record. -/
def dealloc (t : HeapRecord) : Alloc Unit := do
  access t.block 0 1
  t.scratch.dealloc
  t.requestAddress.dealloc
  t.request.dealloc
  t.response.dealloc
  free t.block

end HeapRecord

/-! ## The server -/

/-- The record of a connection, and its `worker_thread_pool_task`. -/
structure HeapConnection where
  record : HeapRecord
  task : Option Nat

def HeapConnection.blocks (c : HeapConnection) : Multiset Block :=
  c.record.blocks + blockOf c.task 1

/-- The string `address` of the thread that accepts connections, the array of
the worker threads, the records, and the tasks that are in no list. -/
structure HeapServer where
  address : HeapString
  threads : Nat
  pool : List HeapRecord
  busy : List HeapConnection
  lost : Multiset Block

namespace HeapServer

def blocks (s : HeapServer) : Multiset Block :=
  s.address.blocks + {⟨s.threads, 1⟩} + (s.pool.map HeapRecord.blocks).sum
    + (s.busy.map HeapConnection.blocks).sum + s.lost

def erase (s : HeapServer) : ServerTexts :=
  ⟨s.pool.map HeapRecord.erase, s.busy.map fun c => c.record.erase⟩

/-- A record for a connection. -/
def takeRecord : List HeapRecord → Alloc (HeapRecord × List HeapRecord)
  | [] => do
      let t ← HeapRecord.init
      pure (t, [])
  | t :: pool => do
      access t.block 0 1
      pure (t, pool)

/-- `worker_thread_pool_enqueue`, up to the wait. -/
def enqueue : Bool → Alloc (Option Nat)
  | false => pure none
  | true => do
      let task ← malloc 1
      access task 0 1
      pure (some task)

/-- The end of a task: it is marked as completed. -/
def complete : Option Nat → Alloc Unit
  | none => pure ()
  | some task => access task 0 1

/-- The connection of a record in use. -/
def connection (s : HeapServer) (i : Nat) : Alloc HeapConnection :=
  match s.busy[i]? with
  | none => failure
  | some c => pure c

def call (s : HeapServer) : ServerCall → Alloc (HeapServer × List RunResult)
  | .accept text queued => do
      let ⟨address, _⟩ ← s.address.setCstr text
      address.read
      let (t, pool) ← takeRecord s.pool
      let t ← t.setAddress address
      let task ← enqueue queued
      pure ({ s with address, pool, busy := ⟨t, task⟩ :: s.busy }, [])
  | .task i call => do
      let c ← s.connection i
      let (t, results) ← c.record.call call
      pure ({ s with busy := s.busy.set i { c with record := t } }, results)
  | .finalize i d error closed => do
      let c ← s.connection i
      let (t, results) ← c.record.finalize d error closed
      access t.block 0 1
      complete c.task
      pure ({ s with
        pool := t :: s.pool
        busy := s.busy.eraseIdx i
        lost := blockOf c.task 1 + s.lost }, results)

def run : List ServerCall → HeapServer → Alloc (HeapServer × List RunResult)
  | [], s => pure (s, [])
  | c :: cs, s => do
      let (s, results) ← s.call c
      let (s, more) ← run cs s
      pure (s, results ++ more)

/-- The `while` loop of `http_server_dealloc`. -/
def deallocPool : List HeapRecord → Alloc Unit
  | [] => pure ()
  | t :: pool => do
      t.dealloc
      deallocPool pool

/-- `http_server_init`, of the socket its address, and what is done from then
on. -/
def serve (socketAddress : Bytes) (cs : List ServerCall) :
    Alloc (HeapString × HeapServer × List RunResult) := do
  let ⟨bound, _⟩ ← HeapString.init
  let ⟨bound, _⟩ ← bound.setCstr socketAddress
  bound.read
  let ⟨address, _⟩ ← HeapString.init
  let threads ← malloc 1
  let (s, results) ← run cs ⟨address, threads, [], [], 0⟩
  pure (bound, s, results)

/-- `http_server_dealloc`: the thread that accepts connections is joined, then
the strings, the thread pool and the records are deallocated. -/
def dealloc (bound : HeapString) (s : HeapServer) : Alloc Unit := do
  s.address.dealloc
  bound.dealloc
  free s.threads
  deallocPool s.pool

def life (socketAddress : Bytes) (cs : List ServerCall) : Alloc (List RunResult) := do
  let (bound, s, results) ← serve socketAddress cs
  dealloc bound s
  pure results

end HeapServer

end CWebServer.Allocations
