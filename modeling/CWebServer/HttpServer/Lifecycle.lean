import CWebServer.HttpServer.Transitions

/-!
# HttpServer — Lifecycle

`http_server_init` and `http_server_dealloc` as the steps of a main thread,
next to the thread that `tcp_socket_wrapper_init` creates and the workers that
`worker_thread_pool_init` creates. The steps of the server are those of its
own model; each names the fields of `http_server` that it uses. A use of a
field that is not initialised, or not any more, is undefined and ends the run.

The contents of the server before its initialisation are placeholders.
-/

namespace CWebServer.HttpServer

open CWebServer.WorkerThreadPool CWebServer.Runs

/-- The fields of `http_server` that the threads share. -/
inductive Field
  | threadPool
  | taskPoolMutex
  | taskPoolLen
  | taskPool
deriving DecidableEq, Repr

@[simp] theorem forall_field {p : Field → Prop} :
    (∀ f, p f) ↔ p .threadPool ∧ p .taskPoolMutex ∧ p .taskPoolLen ∧ p .taskPool := by
  refine ⟨fun h => ⟨h _, h _, h _, h _⟩, ?_⟩
  rintro ⟨hpool, hmutex, hlen, htasks⟩ f
  cases f
  · exact hpool
  · exact hmutex
  · exact hlen
  · exact htasks

inductive Phase
  | uninitialised
  | ready
  | destroyed
deriving DecidableEq, Repr

/-- What takes the server down. -/
inductive Teardown
  | dealloc            -- `http_server_dealloc`
  | poolInitFailed     -- `worker_thread_pool_init` after `pthread_create` has failed
  | noPool             -- `http_server_init` with `thread_pool_init == 0`
  | mutexInitFailed    -- `http_server_init` after `pthread_mutex_init` has failed
deriving DecidableEq, Repr

/-- Where the main thread stands. -/
inductive MainPc
  | socketInit                             -- before `tcp_socket_wrapper_init`
  | poolInit                               -- before `worker_thread_pool_init`
  | createThread (i : Nat)                 -- in its loop
  | mutexInit                              -- before `pthread_mutex_init`
  | clearTaskPoolLen                       -- before `server->task_pool_len = 0`
  | clearTaskPool                          -- before `server->task_pool = NULL`
  | started                                -- `http_server_init` has returned 0
  | stopSocket (t : Teardown)              -- before `sock_wrap->running = 0`
  | joinAcceptor (t : Teardown)
  | stopWorker (t : Teardown) (i : Nat)    -- before `pool->threads[i].running = 0`
  | postWorker (t : Teardown) (i : Nat)    -- before the `i`th `sem_post`
  | joinWorker (t : Teardown) (i : Nat)
  | destroyPool (t : Teardown)             -- before `sem_destroy` and `pthread_mutex_destroy`
  | destroyMutex                           -- before `pthread_mutex_destroy`
  | freeTasks                              -- before the loop over `server->task_pool`
  | initFailed                             -- `http_server_init` has returned 1
  | deallocated
deriving DecidableEq, Repr

/-- Where `tcp_socket_wrapper_thread` stands. -/
inductive AcceptorThread
  | notStarted
  | testing      -- before the test of `sock_wrap->running`
  | selecting    -- before `select` and `accept`
  | calling      -- in the callback
  | exited
deriving DecidableEq, Repr

structure LifecycleState where
  numThreads : Int
  queueSize : Int
  main : MainPc := .socketInit
  thread : AcceptorThread := .notStarted
  running : Bool := false
  phases : Field → Phase := fun _ => .uninitialised
  server : ServerState
  misused : Option Field := none

/-- The server as `http_server_init` finds it. -/
def beforeInit (numThreads queueSize : Int) (timeout : UInt64) : LifecycleState where
  numThreads := numThreads
  queueSize := queueSize
  server := { timeout := timeout, pool := { maxQueueSize := 0, threads := [] } }

namespace LifecycleState

@[simp] def setPhase (s : LifecycleState) (f : Field) (p : Phase) : LifecycleState :=
  { s with phases := Function.update s.phases f p }

@[simp] def setPool (s : LifecycleState) (pool : PoolState Unit DataAddr) : LifecycleState :=
  { s with server := { s.server with pool := pool } }

/-- `pthread_join` on a worker returns, or there is no worker to join. -/
def joinable (s : LifecycleState) (i : Nat) : Bool :=
  (s.server.pool.threads[i]?).all fun x => decide (x.pc = .exited)

/-- The next step of the main thread. `ok` is whether the call in it succeeds.
-/
def mainStep (s : LifecycleState) (ok : Bool) : Option LifecycleState :=
  match s.main with
  | .socketInit =>
      if ok then some { s with running := true, thread := .testing, main := .poolInit }
      else some { s with main := .initFailed }
  | .poolInit =>
      if ok ∧ 1 ≤ s.numThreads ∧ 1 ≤ s.queueSize then
        some { (s.setPool { maxQueueSize := s.queueSize.toNat, threads := [] }).setPhase
          .threadPool .ready with main := .createThread 0 }
      else some { s with main := .stopSocket .noPool }
  | .createThread i =>
      if s.numThreads.toNat ≤ i then some { s with main := .mutexInit }
      else if ok then
        some { s.setPool { s.server.pool with threads := s.server.pool.threads ++ [{}] } with
          main := .createThread (i + 1) }
      else some { s with main := .stopWorker .poolInitFailed 0 }
  | .mutexInit =>
      if ok then some { s.setPhase .taskPoolMutex .ready with main := .clearTaskPoolLen }
      else some { s with main := .stopSocket .mutexInitFailed }
  | .clearTaskPoolLen =>
      some { s.setPhase .taskPoolLen .ready with
        server := { s.server with taskPoolLen := 0 }
        main := .clearTaskPool }
  | .clearTaskPool =>
      some { s.setPhase .taskPool .ready with
        server := { s.server with taskPool := none }
        main := .started }
  | .started => some { s with main := .stopSocket .dealloc }
  | .stopSocket t => some { s with running := false, main := .joinAcceptor t }
  | .joinAcceptor t =>
      if s.thread = .exited then
        some { s with main := if t = .noPool then .initFailed else .stopWorker t 0 }
      else none
  | .stopWorker t i =>
      if s.numThreads.toNat ≤ i then some { s with main := .postWorker t 0 }
      else
        -- a context without a thread has only its flag
        some { s.setPool ((WorkerThreadPool.step s.server.pool (.stop i)).getD s.server.pool) with
          main := .stopWorker t (i + 1) }
  | .postWorker t i =>
      if s.numThreads.toNat ≤ i then some { s with main := .joinWorker t 0 }
      else
        some { s.setPool { s.server.pool with
            tasksSemaphore := s.server.pool.tasksSemaphore + 1 } with
          main := .postWorker t (i + 1) }
  | .joinWorker t i =>
      if s.numThreads.toNat ≤ i then some { s with main := .destroyPool t }
      else if s.joinable i then some { s with main := .joinWorker t (i + 1) }
      else none
  | .destroyPool t =>
      some { s.setPhase .threadPool .destroyed with
        main :=
          match t with
          | .dealloc => .destroyMutex
          | .mutexInitFailed => .initFailed
          | .poolInitFailed | .noPool => .stopSocket .noPool }
  | .destroyMutex => some { s.setPhase .taskPoolMutex .destroyed with main := .freeTasks }
  | .freeTasks =>
      some { s with server := { s.server with taskPool := none }, main := .deallocated }
  | .initFailed | .deallocated => none

/-- Whether a thread of the server can take a step of its own. -/
def alive (s : LifecycleState) : Party → Bool
  | .acceptor => s.thread = .calling
  | .worker w => (s.server.pool.threads[w]?).any fun x => decide (x.pc ≠ .exited)

end LifecycleState

/-- The thread that takes a step of the server. The others are calls within a
step, steps of the main thread, or the arrival of a connection. -/
def actor : Action → Option Party
  | .lock _ | .acceptor | .enqueue _ => some .acceptor
  | .pool (.post _) | .pool (.wait _ _) | .pool (.settle _) => some .acceptor
  | .pool (.worker w) | .pool (.wake w _) => some (.worker w)
  | .startTask w | .read w | .parsed w _ | .handled w _ _ | .taskReturn w => some (.worker w)
  | .finalize p _ => some p
  | .accept _ | .pool _ => none

/-- The shared fields that a step of the main thread uses, other than to
initialise them. -/
def MainPc.uses : MainPc → List Field
  | .stopWorker _ _ | .postWorker _ _ | .joinWorker _ _ | .destroyPool _ => [.threadPool]
  | .destroyMutex => [.taskPoolMutex]
  | .freeTasks => [.taskPool]
  | _ => []

/-- The shared fields that a step of another thread uses. -/
def uses (s : ServerState) : Action → List Field
  | .lock ok =>
      if ok then
        if s.taskPool.isSome then [.taskPoolMutex, .taskPool, .taskPoolLen]
        else [.taskPoolMutex, .taskPool]
      else [.taskPoolMutex]
  | .enqueue _ | .pool _ | .startTask _ | .taskReturn _ => [.threadPool]
  | .finalize p ok =>
      match s.finalizing p with
      | some (_, _, .lock) =>
          if ok then [.taskPoolMutex, .taskPool, .taskPoolLen] else [.taskPoolMutex]
      | _ => []
  | .accept _ | .acceptor | .read _ | .parsed _ _ | .handled _ _ _ => []

inductive LifecycleAction
  | main (ok : Bool)
  | testRunning             -- the acceptor tests `sock_wrap->running`
  | noConnection            -- `select` times out, or a call fails
  | connection (fd : Fd)    -- `accept` returns and the callback is called
  | callbackReturn
  | server (a : Action)     -- a step of the acceptor in its callback, or of a worker

/-- A step from `s` to `s'` that uses these fields. -/
def LifecycleState.using (s : LifecycleState) (fields : List Field) (s' : LifecycleState) :
    LifecycleState :=
  match fields.find? fun f => decide (s.phases f ≠ .ready) with
  | some f => { s with misused := some f }
  | none => s'

def lifecycleStep (s : LifecycleState) (a : LifecycleAction) : Option LifecycleState :=
  if s.misused.isSome then none
  else
    match a with
    | .main ok => (s.mainStep ok).map fun s' => s.using s.main.uses s'
    | .testRunning =>
        if s.thread = .testing then
          some { s with thread := if s.running then .selecting else .exited }
        else none
    | .noConnection =>
        if s.thread = .selecting then some { s with thread := .testing } else none
    | .connection fd =>
        if s.thread = .selecting then
          (step s.server (.accept fd)).map fun server =>
            { s with server := server, thread := .calling }
        else none
    | .callbackReturn =>
        if s.thread = .calling ∧ s.server.acceptor = .idle then some { s with thread := .testing }
        else none
    | .server a =>
        if (actor a).any s.alive then
          (step s.server a).map fun server => s.using (uses s.server a) { s with server := server }
        else none

/-! ## The main thread -/

/-- The last assignment of `http_server_init` has been made. -/
@[simp] def MainPc.initialised : MainPc → Bool
  | .started | .destroyMutex | .freeTasks | .deallocated => true
  | .stopSocket t | .joinAcceptor t | .destroyPool t => t = .dealloc
  | .stopWorker t _ | .postWorker t _ | .joinWorker t _ => t = .dealloc
  | _ => false

/-- There is a pool that can be used. -/
@[simp] def MainPc.hasPool : MainPc → Bool
  | .createThread _ | .mutexInit | .clearTaskPoolLen | .clearTaskPool | .started => true
  | .stopSocket t | .joinAcceptor t => t ≠ .noPool
  | .stopWorker _ _ | .postWorker _ _ | .joinWorker _ _ | .destroyPool _ => true
  | _ => false

/-- There is a mutex that can be locked. -/
@[simp] def MainPc.hasMutex : MainPc → Bool
  | .clearTaskPoolLen | .clearTaskPool | .started | .destroyMutex => true
  | .stopSocket t | .joinAcceptor t | .destroyPool t => t = .dealloc
  | .stopWorker t _ | .postWorker t _ | .joinWorker t _ => t = .dealloc
  | _ => false

/-- The fields that are ready at this place. -/
@[simp] def MainPc.ready (pc : MainPc) : Field → Bool
  | .threadPool => pc.hasPool
  | .taskPoolMutex => pc.hasMutex
  | .taskPoolLen => pc.initialised || pc = .clearTaskPool
  | .taskPool => pc.initialised

/-- The acceptor's thread does not exist yet, or has been joined. -/
@[simp] def MainPc.noAcceptor : MainPc → Bool
  | .socketInit | .destroyMutex | .freeTasks | .initFailed | .deallocated => true
  | .stopWorker t _ | .postWorker t _ | .joinWorker t _ | .destroyPool t => t ≠ .poolInitFailed
  | _ => false

/-- The `w`th worker does not exist yet, or has been joined. -/
@[simp] def MainPc.noWorker : MainPc → Nat → Bool
  | .joinWorker _ i, w => w < i
  | .socketInit, _ | .poolInit, _ | .destroyPool _, _ | .destroyMutex, _ | .freeTasks, _ => true
  | .initFailed, _ | .deallocated, _ => true
  | .stopSocket t, _ | .joinAcceptor t, _ => t = .noPool
  | _, _ => false

/-- As long as the acceptor's thread exists, an initialised server is ready. -/
theorem MainPc.ready_of_acceptor {pc : MainPc} (h : pc.initialised = true)
    (hacceptor : pc.noAcceptor = false) (f : Field) : pc.ready f = true := by
  cases pc <;> cases f <;> simp_all

/-- As long as a worker exists, there is a pool. -/
theorem MainPc.hasPool_of_worker {pc : MainPc} {w : Nat} (hworker : pc.noWorker w = false) :
    pc.hasPool = true := by
  cases pc <;> simp_all

/-- As long as a worker exists, an initialised server is ready. -/
theorem MainPc.ready_of_worker {pc : MainPc} {w : Nat} (h : pc.initialised = true)
    (hworker : pc.noWorker w = false) (f : Field) : pc.ready f = true := by
  cases pc <;> cases f <;> simp_all

/-- What the main thread uses is ready. -/
theorem MainPc.ready_of_uses {pc : MainPc} {f : Field} (h : f ∈ pc.uses) : pc.ready f = true := by
  cases pc <;> simp_all [uses]

end CWebServer.HttpServer
