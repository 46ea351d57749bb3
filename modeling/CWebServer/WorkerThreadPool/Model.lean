import CWebServer.Lib.Runs
import Mathlib.Logic.Function.Basic

/-!
# WorkerThreadPool — Model

`worker_thread_pool.c` as a step system. The parties are the worker threads
(`worker_thread_pool_pthread_callback`) and any number of calls of
`worker_thread_pool_enqueue`; a step is one critical section of
`tasks_mutex`, one semaphore operation, the start or the return of a
callback, or one access to a field outside the mutex. Sections of one mutex
exclude each other, so each is a single step and the mutex is free in every
state of the system. A thread about to dereference NULL has no step.

Names follow the C file. `malloc` is taken to succeed; logging is left out.
The type parameters are the callbacks (`κ`, a non-NULL function pointer) and
what a `void *data` points at (`δ`).
-/

namespace CWebServer.WorkerThreadPool

/-- Where a `worker_thread_pool_task` was allocated. -/
abbrev Addr := Nat

/-- One execution of `worker_thread_pool_enqueue`. -/
abbrev CallId := Nat

/-- `worker_thread_pool_error`. Two enumerators have the value 1, so the
codes are the integers themselves. -/
abbrev ErrorCode := Nat

abbrev workerThreadPoolSuccess : ErrorCode := 0
abbrev workerThreadPoolError : ErrorCode := 1
abbrev workerThreadPoolErrorQueueFull : ErrorCode := 1
abbrev workerThreadPoolErrorTimeout : ErrorCode := 2

/-- How `sem_wait` or `sem_timedwait` ends: by a post, with `ETIMEDOUT`, or
with another `errno` such as `EINTR`. -/
inductive WaitResult
  | posted
  | timedOut
  | error
deriving DecidableEq, Repr

/-- Whether a wait on a semaphore of this value can end in this way; a post
needs a token, a timeout needs the timed form. -/
def waitEnds (value : Nat) (timed : Bool) : WaitResult → Bool
  | .posted => 0 < value
  | .timedOut => timed
  | .error => true

/-- The tokens left on a semaphore after a wait on it has ended. -/
def tokensAfter (value : Nat) : WaitResult → Nat
  | .posted => value - 1
  | _ => value

/-- `worker_thread_pool_task`. A result pointer is named by the call that
passed it. `call` is not in the C struct: it records which call filled the
record last. -/
structure WorkerThreadPoolTask (κ δ : Type) where
  next : Option Addr := none
  callback : Option κ := none
  data : Option δ := none
  result : Option CallId := none
  semaphore : Nat := 0
  timedout : Bool := false
  completed : Bool := false
  call : CallId := 0

/-- The arguments of one `worker_thread_pool_enqueue`; `callbackResult` says
whether the caller passed a pointer or NULL. -/
structure EnqueueArgs (κ δ : Type) where
  callback : Option κ := none
  data : Option δ := none
  callbackResult : Bool := false
  timeout : UInt64 := 0

/-- Where an enqueue call stands. -/
inductive EnqueuePc
  | idle                                  -- not made yet
  | linked (task : Addr)                  -- unlocked, before `sem_post(&pool->tasks_semaphore)`
  | waiting (task : Addr)                 -- in `sem_wait` or `sem_timedwait`
  | waited (task : Addr) (e : WaitResult) -- timed form, before the second critical section
  | returned (e : ErrorCode)
deriving DecidableEq, Repr

structure EnqueueCall (κ δ : Type) where
  args : EnqueueArgs κ δ := {}
  pc : EnqueuePc := .idle

/-- Where a worker thread stands. `value` is the callback's return value. -/
inductive WorkerPc
  | loop                                  -- before the test of `context->running`
  | checkPending                          -- before the first lock
  | waiting                               -- in `sem_timedwait(&pool->tasks_semaphore)`
  | woken (e : WaitResult)                -- before the second test of `context->running`
  | relock (e : WaitResult)               -- before the lock after the wait
  | dequeued (task : Addr)                -- unlocked, before the callback
  | callback (task : Addr) (call : CallId)
  | testResult (task : Addr) (value : Int)  -- before `if (task->result)`
  | loadResult (task : Addr) (value : Int)  -- before reading `task->result` again
  | storeResult (task : Addr) (value : Int) (location : Option CallId)
  | finish (task : Addr)                  -- before the last critical section
  | exited
deriving DecidableEq, Repr

/-- `worker_thread_pool_context`, with the thread's program counter. -/
structure WorkerThreadPoolContext where
  running : Bool := true
  pc : WorkerPc := .loop
deriving DecidableEq, Repr

/-- What has happened, for statements about whole runs. `stored c v` is the
write of `v` to the location that call `c` passed. -/
inductive Event
  | linked (c : CallId)
  | dequeued (c : CallId)
  | started (c : CallId)
  | completed (c : CallId) (value : Int)
  | stored (c : CallId) (value : Int)
  | returned (c : CallId) (e : ErrorCode)
deriving DecidableEq, Repr

/-- `worker_thread_pool` together with the heap of task records, the calls
and the history. -/
structure PoolState (κ δ : Type) where
  maxQueueSize : Nat
  tasksSemaphore : Nat := 0
  taskPoolFirst : Option Addr := none
  taskPoolLen : Nat := 0
  taskPendingFirst : Option Addr := none
  taskPendingLast : Option Addr := none
  taskPendingLen : Nat := 0
  threads : List WorkerThreadPoolContext
  heap : Addr → WorkerThreadPoolTask κ δ := fun _ => {}
  allocated : Nat := 0
  calls : CallId → EnqueueCall κ δ := fun _ => {}
  history : List Event := []

variable {κ δ : Type}

/-- `worker_thread_pool_init`, when the pthread calls succeed. -/
def workerThreadPoolInit (numThreads queueSize : Int) : Option (PoolState κ δ) :=
  if numThreads < 1 then none
  else if queueSize < 1 then none
  else some
    { maxQueueSize := queueSize.toNat
      threads := List.replicate numThreads.toNat {} }

namespace PoolState

def record (s : PoolState κ δ) (e : Event) : PoolState κ δ :=
  { s with history := s.history ++ [e] }

def setTask (s : PoolState κ δ) (t : Addr) (x : WorkerThreadPoolTask κ δ) :
    PoolState κ δ :=
  { s with heap := Function.update s.heap t x }

def setCall (s : PoolState κ δ) (c : CallId) (pc : EnqueuePc) : PoolState κ δ :=
  { s with calls := Function.update s.calls c { s.calls c with pc := pc } }

/-- The call is made, with these arguments. -/
def beginCall (s : PoolState κ δ) (c : CallId) (a : EnqueueArgs κ δ) : PoolState κ δ :=
  { s with calls := Function.update s.calls c { args := a } }

/-- `return e;` -/
def returnCall (s : PoolState κ δ) (c : CallId) (e : ErrorCode) : PoolState κ δ :=
  (s.setCall c (.returned e)).record (.returned c e)

theorem setCall_pc (s : PoolState κ δ) (c c' : CallId) (pc : EnqueuePc) :
    ((s.setCall c pc).calls c').pc = if c' = c then pc else (s.calls c').pc := by
  by_cases h : c' = c
  · subst h; simp [setCall]
  · simp [setCall, h]

@[simp] theorem setCall_args (s : PoolState κ δ) (c c' : CallId) (pc : EnqueuePc) :
    ((s.setCall c pc).calls c').args = (s.calls c').args := by
  by_cases h : c' = c
  · subst h; simp [setCall]
  · simp [setCall, h]

theorem returnCall_pc (s : PoolState κ δ) (c c' : CallId) (e : ErrorCode) :
    ((s.returnCall c e).calls c').pc = if c' = c then .returned e else (s.calls c').pc :=
  s.setCall_pc c c' _

@[simp] theorem returnCall_args (s : PoolState κ δ) (c c' : CallId) (e : ErrorCode) :
    ((s.returnCall c e).calls c').args = (s.calls c').args :=
  s.setCall_args c c' _

theorem beginCall_args (s : PoolState κ δ) (c c' : CallId) (a : EnqueueArgs κ δ) :
    ((s.beginCall c a).calls c').args = if c' = c then a else (s.calls c').args := by
  by_cases h : c' = c
  · subst h; simp [beginCall]
  · simp [beginCall, h]

theorem beginCall_pc (s : PoolState κ δ) (c c' : CallId) (a : EnqueueArgs κ δ) :
    ((s.beginCall c a).calls c').pc = if c' = c then .idle else (s.calls c').pc := by
  by_cases h : c' = c
  · subst h; simp [beginCall]
  · simp [beginCall, h]

def setThread (s : PoolState κ δ) (w : Nat) (x : WorkerThreadPoolContext) :
    PoolState κ δ :=
  { s with threads := s.threads.set w x }

/-! ## The lists -/

/-- Put a record back on the free list; the same three lines stand in the
worker and in the enqueuer. -/
def pushTaskPool (s : PoolState κ δ) (t : Addr) : PoolState κ δ :=
  { s with
    heap := Function.update s.heap t { s.heap t with next := s.taskPoolFirst }
    taskPoolFirst := some t
    taskPoolLen := s.taskPoolLen + 1 }

/-- Stick a record on the end of the queue. `none` is the NULL dereference of
`pool->task_pending_last->next`. -/
def appendPending (s : PoolState κ δ) (t : Addr) : Option (PoolState κ δ) :=
  if 0 < s.taskPendingLen then
    match s.taskPendingLast with
    | none => none
    | some l =>
        some { s with
          heap := Function.update s.heap l { s.heap l with next := some t }
          taskPendingLast := some t
          taskPendingLen := s.taskPendingLen + 1 }
  else
    some { s with
      taskPendingFirst := some t
      taskPendingLast := some t
      taskPendingLen := s.taskPendingLen + 1 }

/-- Take the first record of the queue. `none` is the NULL dereference of
`task_pending_first->next`. -/
def takePending (s : PoolState κ δ) : Option (Addr × PoolState κ δ) :=
  match s.taskPendingFirst with
  | none => none
  | some t =>
      some (t, { s with
        taskPendingFirst := (s.heap t).next
        taskPendingLast :=
          if (s.heap t).next.isNone then none else s.taskPendingLast
        taskPendingLen := s.taskPendingLen - 1 })

/-! ## `worker_thread_pool_enqueue` -/

/-- The outcome of getting hold of a record. -/
inductive Acquired (κ δ : Type)
  | task (t : Addr) (s : PoolState κ δ)
  | semInitFailed
  | nullDereference

/-- A record from the free list, or a new one. -/
def acquireTask (s : PoolState κ δ) (semInit : Bool) : Acquired κ δ :=
  if s.taskPoolLen = 0 then
    if semInit then
      .task s.allocated
        { s with
          heap := Function.update s.heap s.allocated {}
          allocated := s.allocated + 1 }
    else .semInitFailed
  else
    match s.taskPoolFirst with
    | none => .nullDereference
    | some t =>
        .task t
          { s with
            heap := Function.update s.heap t { s.heap t with next := none }
            taskPoolFirst := (s.heap t).next
            taskPoolLen := s.taskPoolLen - 1 }

/-- Fill in the data of this task specifically. -/
def fillTask (s : PoolState κ δ) (t : Addr) (c : CallId) (a : EnqueueArgs κ δ) :
    PoolState κ δ :=
  s.setTask t
    { s.heap t with
      callback := a.callback
      data := a.data
      result := if a.callbackResult then some c else none
      timedout := false
      completed := false
      call := c }

/-- From the call to the first `pthread_mutex_unlock`. -/
def enqueueLock (s : PoolState κ δ) (c : CallId) (a : EnqueueArgs κ δ)
    (semInit : Bool) : Option (PoolState κ δ) :=
  let s := s.beginCall c a
  if a.callback.isNone then
    some (s.returnCall c workerThreadPoolError)
  else if s.maxQueueSize ≤ s.taskPendingLen then
    some (s.returnCall c workerThreadPoolErrorQueueFull)
  else
    match s.acquireTask semInit with
    | .semInitFailed => some (s.returnCall c workerThreadPoolError)
    | .nullDereference => none
    | .task t s =>
        ((s.fillTask t c a).appendPending t).map fun s =>
          (s.setCall c (.linked t)).record (.linked c)

/-- `sem_post(&pool->tasks_semaphore)`; with a timeout of 0 the call is over. -/
def enqueuePost (s : PoolState κ δ) (c : CallId) : Option (PoolState κ δ) :=
  match (s.calls c).pc with
  | .linked t =>
      let s : PoolState κ δ := { s with tasksSemaphore := s.tasksSemaphore + 1 }
      if (s.calls c).args.timeout = 0 then
        some (s.returnCall c workerThreadPoolSuccess)
      else
        some (s.setCall c (.waiting t))
  | _ => none

/-- The wait on the task's semaphore ends. With a timeout of -1 the result of
`sem_wait` is not looked at. -/
def enqueueWait (s : PoolState κ δ) (c : CallId) (e : WaitResult) :
    Option (PoolState κ δ) :=
  match (s.calls c).pc with
  | .waiting t =>
      if waitEnds (s.heap t).semaphore (decide ((s.calls c).args.timeout ≠ -1)) e then
        let s : PoolState κ δ := s.setTask t
          { s.heap t with semaphore := tokensAfter (s.heap t).semaphore e }
        if (s.calls c).args.timeout = -1 then
          some (s.returnCall c workerThreadPoolSuccess)
        else
          some (s.setCall c (.waited t e))
      else none
  | _ => none

/-- The second critical section of the timed form. -/
def enqueueSettle (s : PoolState κ δ) (c : CallId) : Option (PoolState κ δ) :=
  match (s.calls c).pc with
  | .waited t e =>
      if (s.heap t).completed then
        -- `add_task_back_to_pool = 0`
        some (s.returnCall c workerThreadPoolSuccess)
      else
        match e with
        | .posted =>
            some ((s.pushTaskPool t).returnCall c workerThreadPoolSuccess)
        | .timedOut =>
            some ((s.setTask t { s.heap t with result := none, timedout := true }).returnCall c
              workerThreadPoolErrorTimeout)
        | .error =>
            some ((s.pushTaskPool t).returnCall c workerThreadPoolError)
  | _ => none

/-! ## `worker_thread_pool_pthread_callback` -/

/-- The dequeue at the end of the first critical section. -/
def dequeueTask (s : PoolState κ δ) (w : Nat) (x : WorkerThreadPoolContext) :
    Option (PoolState κ δ) :=
  s.takePending.map fun (t, s) =>
    (s.setThread w { x with pc := .dequeued t }).record (.dequeued (s.heap t).call)

/-- The steps of a worker that depend on nothing but the state. -/
def workerStep (s : PoolState κ δ) (w : Nat) (x : WorkerThreadPoolContext) :
    Option (PoolState κ δ) :=
  match x.pc with
  | .loop =>
      some (s.setThread w { x with pc := if x.running then .checkPending else .exited })
  | .checkPending =>
      if s.taskPendingLen = 0 then some (s.setThread w { x with pc := .waiting })
      else s.dequeueTask w x
  | .woken e =>
      some (s.setThread w { x with pc := if x.running then .relock e else .exited })
  | .relock _ =>
      if s.taskPendingLen = 0 then some (s.setThread w { x with pc := .loop })
      else s.dequeueTask w x
  | .dequeued t =>
      if (s.heap t).callback.isNone then none
      else
        some ((s.setThread w { x with pc := .callback t (s.heap t).call }).record
          (.started (s.heap t).call))
  | .testResult t v =>
      some (s.setThread w
        { x with pc := if (s.heap t).result.isSome then .loadResult t v else .finish t })
  | .loadResult t v =>
      some (s.setThread w { x with pc := .storeResult t v (s.heap t).result })
  | .storeResult t v l =>
      match l with
      | none => none
      | some c => some ((s.setThread w { x with pc := .finish t }).record (.stored c v))
  | .finish t =>
      if (s.heap t).timedout then
        some ((s.pushTaskPool t).setThread w { x with pc := .loop })
      else
        some ((s.setTask t { s.heap t with
            completed := true
            semaphore := (s.heap t).semaphore + 1 }).setThread w { x with pc := .loop })
  | .waiting | .callback _ _ | .exited => none

/-- `sem_timedwait(&context->pool->tasks_semaphore, &timeout)` ends. After a
success `semaphore_error` is not initialised; it only selects a log line. -/
def workerWake (s : PoolState κ δ) (w : Nat) (x : WorkerThreadPoolContext)
    (e : WaitResult) : Option (PoolState κ δ) :=
  match x.pc with
  | .waiting =>
      if waitEnds s.tasksSemaphore true e then
        some (({ s with tasksSemaphore := tokensAfter s.tasksSemaphore e }).setThread w
          { x with pc := .woken e })
      else none
  | _ => none

/-- `task->callback(context->id, task->data)` returns. -/
def workerReturn (s : PoolState κ δ) (w : Nat) (x : WorkerThreadPoolContext)
    (v : Int) : Option (PoolState κ δ) :=
  match x.pc with
  | .callback t c =>
      some ((s.setThread w { x with pc := .testResult t v }).record (.completed c v))
  | _ => none

end PoolState

/-! ## The system -/

/-- One step of one thread. The last two are the steps that
`worker_thread_pool_dealloc` takes while the workers still run: clearing a
`running` flag and one `sem_post`. -/
inductive Action (κ δ : Type)
  | enqueue (c : CallId) (a : EnqueueArgs κ δ) (semInit : Bool)
  | post (c : CallId)
  | wait (c : CallId) (e : WaitResult)
  | settle (c : CallId)
  | worker (w : Nat)
  | wake (w : Nat) (e : WaitResult)
  | callbackReturn (w : Nat) (v : Int)
  | stop (w : Nat)
  | stopPost

/-- A timed wait may time out at any moment, whatever the semaphore's value. -/
def step (s : PoolState κ δ) : Action κ δ → Option (PoolState κ δ)
  | .enqueue c a semInit =>
      if (s.calls c).pc = .idle then s.enqueueLock c a semInit else none
  | .post c => s.enqueuePost c
  | .wait c e => s.enqueueWait c e
  | .settle c => s.enqueueSettle c
  | .worker w => s.threads[w]?.bind fun x => s.workerStep w x
  | .wake w e => s.threads[w]?.bind fun x => s.workerWake w x e
  | .callbackReturn w v => s.threads[w]?.bind fun x => s.workerReturn w x v
  | .stop w => s.threads[w]?.map fun x => s.setThread w { x with running := false }
  | .stopPost => some { s with tasksSemaphore := s.tasksSemaphore + 1 }

/-- A pool just initialised. -/
def Initial (s : PoolState κ δ) : Prop :=
  ∃ numThreads queueSize, workerThreadPoolInit numThreads queueSize = some s

theorem Initial.eq {s : PoolState κ δ} (h : Initial s) :
    ∃ m n, s = { maxQueueSize := m, threads := List.replicate n {} } := by
  obtain ⟨n, q, hi⟩ := h
  unfold workerThreadPoolInit at hi
  split at hi
  · cases hi
  · split at hi
    · cases hi
    · exact ⟨q.toNat, n.toNat, (Option.some.inj hi).symm⟩

/-! ## Reading the history -/

def linkedCalls (h : List Event) : List CallId :=
  h.filterMap fun | .linked c => some c | _ => none

def dequeuedCalls (h : List Event) : List CallId :=
  h.filterMap fun | .dequeued c => some c | _ => none

/-- The last value written to the location that call `c` passed. -/
def storedValue (h : List Event) (c : CallId) : Option Int :=
  (h.filterMap fun | .stored c' v => if c' = c then some v else none | _ => none).getLast?

@[simp] theorem linkedCalls_snoc (h : List Event) (e : Event) :
    linkedCalls (h ++ [e]) =
      match e with
      | .linked c => linkedCalls h ++ [c]
      | _ => linkedCalls h := by
  cases e <;> simp [linkedCalls]

@[simp] theorem dequeuedCalls_snoc (h : List Event) (e : Event) :
    dequeuedCalls (h ++ [e]) =
      match e with
      | .dequeued c => dequeuedCalls h ++ [c]
      | _ => dequeuedCalls h := by
  cases e <;> simp [dequeuedCalls]

@[simp] theorem storedValue_snoc (h : List Event) (e : Event) (c : CallId) :
    storedValue (h ++ [e]) c =
      match e with
      | .stored c' v => if c' = c then some v else storedValue h c
      | _ => storedValue h c := by
  cases e with
  | stored c' v =>
      by_cases hc : c' = c <;> simp [storedValue, hc]
  | _ => simp [storedValue]

end CWebServer.WorkerThreadPool
