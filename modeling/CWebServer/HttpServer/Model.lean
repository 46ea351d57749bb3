import CWebServer.WorkerThreadPool.Model

/-!
# HttpServer — Model

The `http_server` of `http.c` as a step system over the thread pool's: the
thread that accepts connections (`http_server_socket_accept`), and the
workers, whose callback is `http_server_task`. Both end in
`http_server_finalize_task`. A step is one critical section of
`task_pool_mutex`, one call on a descriptor, one step of the pool, or a
stretch of code between these.

What a read gets, what the parser and the user's callback return, and how
often a response is written to the stream before it ends are choices of the
action. Descriptors are numbered by the kernel, which hands out any that is
closed; `descriptors` says whose connection an open one is. Addresses, ports,
the texts of requests and responses, and logging are left out.
-/

namespace CWebServer.HttpServer

open CWebServer.WorkerThreadPool

/-- Where an `http_server_task_data` was allocated. -/
abbrev DataAddr := Nat

abbrev Fd := Nat

/-- An accepted connection. Each makes at most one call of
`worker_thread_pool_enqueue`, which has the same number. -/
abbrev ConnId := CallId

/-- A `stream` on a file descriptor. -/
structure FileDescriptorStream where
  fileDescriptor : Fd := 0
  shouldClose : Bool := false
deriving DecidableEq, Repr

/-- `http_server_task_data`. -/
structure HttpServerTaskData where
  next : Option DataAddr := none
  socket : Fd := 0
  socketStream : FileDescriptorStream := {}
  statusCode : Nat := 200
deriving DecidableEq, Repr

/-- Where `http_server_finalize_task` stands. -/
inductive FinalizePc
  | write       -- before `http_response_write`
  | writing     -- in it, something has been written
  | shutdown    -- before `shutdown(data->socket, SHUT_RDWR)`
  | dealloc     -- before `stream_dealloc(&data->socket_stream, ..)`
  | lock        -- before the lock of `task_pool_mutex`
  | close       -- after it has failed, before `close(data->socket)`
  | done
deriving DecidableEq, Repr

/-- Where `http_server_socket_accept` stands; `idle` is outside of it. -/
inductive AcceptPc
  | idle
  | accepted (c : ConnId) (socket : Fd)              -- before the lock
  | lockFailed (c : ConnId) (socket : Fd)            -- before `close(socket)`
  | taken (c : ConnId) (socket : Fd) (data : DataAddr)  -- unlocked, with a record
  | filled (c : ConnId) (data : DataAddr)            -- before the enqueue
  | enqueue (c : ConnId) (data : DataAddr)           -- in the enqueue
  | finalize (c : ConnId) (data : DataAddr) (pc : FinalizePc)
deriving DecidableEq, Repr

/-- Where `http_server_task` stands. -/
inductive HandlerPc
  | parse
  | handle
  | finalize (pc : FinalizePc)
deriving DecidableEq, Repr

/-- One execution of `http_server_task`, for connection `conn`. -/
structure Handler where
  conn : ConnId
  data : DataAddr
  pc : HandlerPc
deriving DecidableEq, Repr

/-- What is done to a descriptor. `respond` is the first write of
`http_response_write`. -/
inductive IoOp
  | read
  | respond
  | write
  | shutdown
  | close
deriving DecidableEq, Repr

/-- A call on a descriptor, made while handling or finalizing `conn`; `owner`
is the connection whose descriptor `fd` is at that moment. -/
structure Io where
  op : IoOp
  conn : ConnId
  fd : Fd
  owner : Option ConnId
deriving DecidableEq, Repr

/-- `http_server`, with the heap of records, the threads and the history. -/
structure ServerState where
  timeout : UInt64
  pool : PoolState Unit DataAddr
  taskPool : Option DataAddr := none
  taskPoolLen : Nat := 0
  records : DataAddr → HttpServerTaskData := fun _ => {}
  allocated : Nat := 0
  acceptor : AcceptPc := .idle
  handlers : Nat → Option Handler := fun _ => none
  descriptors : Fd → Option ConnId := fun _ => none
  connections : Nat := 0
  history : List Io := []

/-- A thread in `http_server_finalize_task`. -/
inductive Party
  | acceptor
  | worker (w : Nat)
deriving DecidableEq, Repr

namespace ServerState

def setRecord (s : ServerState) (t : DataAddr) (x : HttpServerTaskData) : ServerState :=
  { s with records := Function.update s.records t x }

def setHandler (s : ServerState) (w : Nat) (h : Option Handler) : ServerState :=
  { s with handlers := Function.update s.handlers w h }

theorem setHandler_self (s : ServerState) (w : Nat) (h : Option Handler) :
    (s.setHandler w h).handlers w = h := by
  simp only [setHandler, Function.update_self]

/-- A call on the descriptor `fd`. -/
def io (s : ServerState) (op : IoOp) (c : ConnId) (fd : Fd) : ServerState :=
  { s with history := s.history ++ [⟨op, c, fd, s.descriptors fd⟩] }

/-- `close(fd)`; on a descriptor that is not open it does nothing. -/
def closeFd (s : ServerState) (c : ConnId) (fd : Fd) : ServerState :=
  { s.io .close c fd with descriptors := Function.update s.descriptors fd none }

/-! ## `http_server_finalize_task` -/

/-- Put the record back on the pool. -/
def pushTaskPool (s : ServerState) (t : DataAddr) : ServerState :=
  { s with
    records := Function.update s.records t { s.records t with next := s.taskPool }
    taskPool := some t
    taskPoolLen := s.taskPoolLen + 1 }

/-- One step. `ok` is whether there is more to write, and whether the lock
succeeds. -/
def finalizeTask (s : ServerState) (c : ConnId) (t : DataAddr) (ok : Bool) :
    FinalizePc → Option (ServerState × FinalizePc)
  | .write => some (s.io .respond c (s.records t).socketStream.fileDescriptor, .writing)
  | .writing =>
      if ok then some (s.io .write c (s.records t).socketStream.fileDescriptor, .writing)
      else some (s, .shutdown)
  | .shutdown => some (s.io .shutdown c (s.records t).socket, .dealloc)
  | .dealloc =>
      if (s.records t).socketStream.shouldClose then
        some (s.closeFd c (s.records t).socketStream.fileDescriptor, .lock)
      else some (s, .lock)
  | .lock => if ok then some (s.pushTaskPool t, .done) else some (s, .close)
  | .close => some (s.closeFd c (s.records t).socket, .done)
  | .done => none

/-- The finalization that a thread is in. -/
def finalizing (s : ServerState) : Party → Option (ConnId × DataAddr × FinalizePc)
  | .acceptor =>
      match s.acceptor with
      | .finalize c t pc => some (c, t, pc)
      | _ => none
  | .worker w =>
      match s.handlers w with
      | some ⟨c, t, .finalize pc⟩ => some (c, t, pc)
      | _ => none

def setFinalize (s : ServerState) (p : Party) (c : ConnId) (t : DataAddr) (pc : FinalizePc) :
    ServerState :=
  match p with
  | .acceptor => { s with acceptor := .finalize c t pc }
  | .worker w => s.setHandler w (some ⟨c, t, .finalize pc⟩)

/-! ## `http_server_socket_accept` -/

/-- A record from the pool, or a new one. -/
def takeTask (s : ServerState) : DataAddr × ServerState :=
  match s.taskPool with
  | some t =>
      (t, { s with
        taskPool := (s.records t).next
        taskPoolLen := s.taskPoolLen - 1 })
  | none =>
      (s.allocated, { s with
        records := Function.update s.records s.allocated {}
        allocated := s.allocated + 1 })

/-- The arguments of `worker_thread_pool_enqueue`. -/
def enqueueArgs (s : ServerState) (t : DataAddr) : EnqueueArgs Unit DataAddr :=
  { callback := some ()
    data := some t
    callbackResult := false
    timeout := s.timeout }

/-- The acceptor's moves that depend on nothing but the state. -/
def acceptorStep (s : ServerState) : Option ServerState :=
  match s.acceptor with
  | .lockFailed c fd => some { s.closeFd c fd with acceptor := .idle }
  | .taken c fd t =>
      some { s.setRecord t { s.records t with socket := fd, socketStream := ⟨fd, true⟩ } with
        acceptor := .filled c t }
  | .enqueue c t =>
      match (s.pool.calls c).pc with
      | .returned e =>
          if e = workerThreadPoolSuccess then some { s with acceptor := .idle }
          else
            let status :=
              if e = workerThreadPoolErrorQueueFull then 503
              else if e = workerThreadPoolErrorTimeout then 503
              else 500
            some { s.setRecord t { s.records t with statusCode := status } with
              acceptor := .finalize c t .write }
      | _ => none
  | .finalize _ _ .done => some { s with acceptor := .idle }
  | _ => none

end ServerState

/-! ## The system -/

inductive Action
  | accept (fd : Fd)                               -- a connection comes in
  | lock (ok : Bool)                               -- the acceptor locks `task_pool_mutex`
  | acceptor
  | enqueue (semInit : Bool)                       -- the acceptor calls the pool
  | pool (a : WorkerThreadPool.Action Unit DataAddr)
  | startTask (w : Nat)                            -- a worker calls `http_server_task`
  | read (w : Nat)
  | parsed (w : Nat) (ok : Bool)
  | handled (w : Nat) (ok : Bool) (status : Nat)   -- the user's callback returns
  | finalize (p : Party) (ok : Bool)
  | taskReturn (w : Nat)                           -- `http_server_task` returns

/-- The steps of the pool that are no calls and returns between it and the
server. -/
def poolOnly (s : PoolState Unit DataAddr) : WorkerThreadPool.Action Unit DataAddr → Bool
  | .enqueue .. | .callbackReturn .. => false
  | .worker w =>
      match s.threads[w]? with
      | some ⟨_, .dequeued _⟩ => false
      | _ => true
  | _ => true

def step (s : ServerState) : Action → Option ServerState
  | .accept fd =>
      if s.acceptor = .idle ∧ s.descriptors fd = none then
        some { s with
          acceptor := .accepted s.connections fd
          descriptors := Function.update s.descriptors fd (some s.connections)
          connections := s.connections + 1 }
      else none
  | .lock ok =>
      match s.acceptor with
      | .accepted c fd =>
          if ok then
            let (t, s) := s.takeTask
            some { s with acceptor := .taken c fd t }
          else some { s with acceptor := .lockFailed c fd }
      | _ => none
  | .acceptor => s.acceptorStep
  | .enqueue semInit =>
      match s.acceptor with
      | .filled c t =>
          (WorkerThreadPool.step s.pool (.enqueue c (s.enqueueArgs t) semInit)).map fun pool =>
            { s with pool := pool, acceptor := .enqueue c t }
      | _ => none
  | .pool a =>
      if poolOnly s.pool a then
        (WorkerThreadPool.step s.pool a).map fun pool => { s with pool := pool }
      else none
  | .startTask w =>
      match s.pool.threads[w]? with
      | some ⟨_, .dequeued p⟩ =>
          match (s.pool.heap p).data with
          | none => none
          | some t =>
              (WorkerThreadPool.step s.pool (.worker w)).map fun pool =>
                { s with pool := pool }.setHandler w (some ⟨(s.pool.heap p).call, t, .parse⟩)
      | _ => none
  | .read w =>
      match s.handlers w with
      | some ⟨c, t, .parse⟩ => some (s.io .read c (s.records t).socketStream.fileDescriptor)
      | _ => none
  | .parsed w ok =>
      match s.handlers w with
      | some ⟨c, t, .parse⟩ =>
          if ok then
            some ((s.setRecord t { s.records t with statusCode := 200 }).setHandler w
              (some ⟨c, t, .handle⟩))
          else
            some ((s.setRecord t { s.records t with statusCode := 400 }).setHandler w
              (some ⟨c, t, .finalize .write⟩))
      | _ => none
  | .handled w ok status =>
      match s.handlers w with
      | some ⟨c, t, .handle⟩ =>
          some ((s.setRecord t { s.records t with
            statusCode := if ok then status else 500 }).setHandler w
              (some ⟨c, t, .finalize .write⟩))
      | _ => none
  | .finalize p ok =>
      match s.finalizing p with
      | some (c, t, pc) =>
          (s.finalizeTask c t ok pc).map fun (s, pc) => s.setFinalize p c t pc
      | none => none
  | .taskReturn w =>
      match s.handlers w with
      | some ⟨_, _, .finalize .done⟩ =>
          (WorkerThreadPool.step s.pool (.callbackReturn w 0)).map fun pool =>
            { s with pool := pool }.setHandler w none
      | _ => none

/-- A server just initialised. -/
def Initial (s : ServerState) : Prop :=
  ∃ numThreads queueSize timeout pool, workerThreadPoolInit numThreads queueSize = some pool
    ∧ s = { timeout := timeout, pool := pool }

/-! ## Who owns a record -/

def FinalizePc.owns : FinalizePc → Bool
  | .done => false
  | _ => true

/-- The connection and the record that the acceptor itself works on. -/
def AcceptPc.holds : AcceptPc → Option (ConnId × DataAddr)
  | .taken c _ t | .filled c t => some (c, t)
  | .finalize c t pc => if pc.owns then some (c, t) else none
  | _ => none

/-- A handler that has not put its record back. -/
def Handler.owns (h : Handler) : Bool :=
  match h.pc with
  | .finalize pc => pc.owns
  | _ => true

end CWebServer.HttpServer
