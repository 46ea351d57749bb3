import CWebServer.WorkerThreadPool.Progress

/-!
# WorkerThreadPool — Lifecycle

`worker_thread_pool_init` and `worker_thread_pool_dealloc`, step by step, as
the thread that owns the pool takes them next to the workers it creates and
the callers of `worker_thread_pool_enqueue`. Each step names what it uses of
the pool: the mutex, the semaphore, the array of contexts, a record. A use of
one that does not exist yet or not any more is undefined and ends the run.

The owner deallocates the pool of a failed initialisation itself, as
`worker_thread_pool_init` does. Logging is left out; an error of a call that
destroys something is only logged.
-/

namespace CWebServer.WorkerThreadPool

open CWebServer.Runs

/-- What a thread can use of a pool. -/
inductive Resource
  | mutex
  | semaphore
  | contexts
  | record (t : Addr)
deriving DecidableEq, Repr

/-- Where the owner stands. -/
inductive OwnerPc
  | initMutex                       -- before `pthread_mutex_init`
  | initSemaphore                   -- before `sem_init`
  | createThread (i : Nat)          -- in the loop of `pthread_create`
  | initialised                     -- `worker_thread_pool_init` has returned success
  | stopThread (i : Nat)            -- before `pool->threads[i].running = 0`
  | postThread (i : Nat)            -- before the `i`th `sem_post`
  | joinThread (i : Nat)            -- before the `i`th `pthread_join`
  | freeThreads                     -- before `free(pool->threads)`
  | destroySemaphore
  | destroyMutex
  | freeTaskPool (t : Option Addr)  -- in the loop over the free list
  | freePending (t : Option Addr)   -- in the loop over the queue
  | deallocated
deriving DecidableEq, Repr

/-- A pool with its owner. `pool.threads` are the contexts whose thread has
been created. `failed` says that `worker_thread_pool_init` fails. -/
structure OwnedPool (κ δ : Type) where
  numThreads : Nat
  pool : PoolState κ δ
  owner : OwnerPc := .initMutex
  failed : Bool := false
  tasksMutexIsInit : Bool := false
  tasksSemaphoreIsInit : Bool := false
  hasThreads : Bool := false        -- `pool->threads` is not NULL
  freed : List Addr := []
  misused : Option Resource := none

variable {κ δ : Type}

/-- The pool after the argument checks and the `memset`. -/
def ownedInit (numThreads queueSize : Int) : Option (OwnedPool κ δ) :=
  if numThreads < 1 then none
  else if queueSize < 1 then none
  else some
    { numThreads := numThreads.toNat
      pool := { maxQueueSize := queueSize.toNat, threads := [] } }

namespace OwnedPool

/-- Whether this can be used. -/
def live (s : OwnedPool κ δ) : Resource → Bool
  | .mutex => s.tasksMutexIsInit
  | .semaphore => s.tasksSemaphoreIsInit
  | .contexts => s.hasThreads
  | .record t => t ∉ s.freed

/-- A step from `s` to `s'` that uses these. -/
def withUses (s : OwnedPool κ δ) (rs : List Resource) (s' : OwnedPool κ δ) : OwnedPool κ δ :=
  match rs.find? fun r => !s.live r with
  | some r => { s with misused := some r }
  | none => s'

/-- The beginning of `worker_thread_pool_dealloc`: without contexts there is
nobody to stop. -/
def beginDealloc (s : OwnedPool κ δ) : OwnerPc :=
  if s.hasThreads then .stopThread 0 else .destroySemaphore

/-- `pthread_join` on a worker returns, or there is no worker to join. -/
def joinable (s : OwnedPool κ δ) (i : Nat) : Bool :=
  (s.pool.threads[i]?).all fun x => decide (x.pc = .exited)

/-- What the owner's next step uses. -/
def ownerUses (s : OwnedPool κ δ) : List Resource :=
  match s.owner with
  | .createThread _ | .freeThreads => [.contexts]
  | .stopThread i | .joinThread i => if s.numThreads ≤ i then [] else [.contexts]
  | .postThread i => if s.numThreads ≤ i then [] else [.semaphore]
  | .freeTaskPool (some t) | .freePending (some t) => [.record t]
  | .initMutex | .initSemaphore | .initialised | .destroySemaphore | .destroyMutex
  | .freeTaskPool none | .freePending none | .deallocated => []

/-- The owner's next step. `ok` is whether the call in it succeeds. -/
def ownerStep (s : OwnedPool κ δ) (ok : Bool) : Option (OwnedPool κ δ) :=
  match s.owner with
  | .initMutex =>
      if ok then some { s with tasksMutexIsInit := true, owner := .initSemaphore }
      else some { s with failed := true, owner := s.beginDealloc }
  | .initSemaphore =>
      if ok then
        some { s with
          tasksSemaphoreIsInit := true
          hasThreads := true
          owner := .createThread 0 }
      else some { s with failed := true, owner := s.beginDealloc }
  | .createThread i =>
      if s.numThreads ≤ i then some { s with owner := .initialised }
      else if ok then
        some { s with
          pool := { s.pool with threads := s.pool.threads ++ [{}] }
          owner := .createThread (i + 1) }
      else some { s with failed := true, owner := s.beginDealloc }
  | .initialised => some { s with owner := s.beginDealloc }
  | .stopThread i =>
      if s.numThreads ≤ i then some { s with owner := .postThread 0 }
      else
        -- a context without a thread has only its flag
        some { s with
          pool := { s.pool with
            threads := s.pool.threads.modify i fun x => { x with running := false } }
          owner := .stopThread (i + 1) }
  | .postThread i =>
      if s.numThreads ≤ i then some { s with owner := .joinThread 0 }
      else
        some { s with
          pool := { s.pool with tasksSemaphore := s.pool.tasksSemaphore + 1 }
          owner := .postThread (i + 1) }
  | .joinThread i =>
      if s.numThreads ≤ i then some { s with owner := .freeThreads }
      else if s.joinable i then some { s with owner := .joinThread (i + 1) }
      else none
  | .freeThreads => some { s with hasThreads := false, owner := .destroySemaphore }
  | .destroySemaphore => some { s with tasksSemaphoreIsInit := false, owner := .destroyMutex }
  | .destroyMutex =>
      some { s with
        tasksMutexIsInit := false
        owner := .freeTaskPool s.pool.taskPoolFirst }
  | .freeTaskPool (some t) =>
      some { s with freed := s.freed ++ [t], owner := .freeTaskPool (s.pool.heap t).next }
  | .freeTaskPool none =>
      some { s with
        pool := { s.pool with taskPoolFirst := none, taskPoolLen := 0 }
        owner := .freePending s.pool.taskPendingFirst }
  | .freePending (some t) =>
      some { s with freed := s.freed ++ [t], owner := .freePending (s.pool.heap t).next }
  | .freePending none =>
      some { s with
        pool := { s.pool with
          taskPendingFirst := none
          taskPendingLast := none
          taskPendingLen := 0 }
        owner := .deallocated }
  | .deallocated => none

end OwnedPool

/-! ## The other threads -/

/-- What a worker's next step uses. -/
def WorkerPc.uses : WorkerPc → List Resource
  | .loop | .woken _ => [.contexts]
  | .checkPending | .relock _ => [.contexts, .mutex]
  | .waiting => [.contexts, .semaphore]
  | .dequeued t => [.contexts, .record t]
  | .callback .. => []
  | .testResult t _ | .loadResult t _ => [.record t]
  | .storeResult .. => []
  | .finish t => [.contexts, .mutex, .record t]
  | .exited => []

/-- What a step of a worker or of a caller uses. -/
def uses (s : PoolState κ δ) : Action κ δ → List Resource
  | .enqueue .. => [.mutex]
  | .post _ => [.semaphore]
  | .wait c _ => (s.calls c).pc.holds.toList.map .record
  | .settle c => .mutex :: (s.calls c).pc.holds.toList.map .record
  | .worker w | .wake w _ | .callbackReturn w _ =>
      match s.threads[w]? with
      | some x => x.pc.uses
      | none => []
  | .stop _ | .stopPost => []

inductive OwnedAction (κ δ : Type)
  | owner (ok : Bool)
  | pool (a : Action κ δ)   -- a step of a worker or of a caller

def ownedStep (s : OwnedPool κ δ) (a : OwnedAction κ δ) : Option (OwnedPool κ δ) :=
  if s.misused.isSome then none
  else
    match a with
    | .owner ok => (s.ownerStep ok).map fun s' => s.withUses s.ownerUses s'
    | .pool (.stop _) | .pool .stopPost => none
    | .pool a => (step s.pool a).map fun pool => s.withUses (uses s.pool a) { s with pool := pool }

/-- Calls are made after `worker_thread_pool_init` has returned and before
`worker_thread_pool_dealloc`, which is called when all of them have returned.
-/
def ClientRule (s : OwnedPool κ δ) : OwnedAction κ δ → Prop
  | .pool (.enqueue ..) => s.owner = .initialised
  | .owner _ => s.owner = .initialised →
      ∀ c ∈ linkedCalls s.pool.history, (s.pool.calls c).pc.holds = none
  | _ => True

instance (s : OwnedPool κ δ) (a : OwnedAction κ δ) : Decidable (ClientRule s a) :=
  match a with
  | .pool (.enqueue ..) => inferInstanceAs (Decidable (s.owner = .initialised))
  | .owner _ => inferInstanceAs (Decidable (s.owner = .initialised →
      ∀ c ∈ linkedCalls s.pool.history, (s.pool.calls c).pc.holds = none))
  | .pool (.post _) | .pool (.wait ..) | .pool (.settle _) | .pool (.worker _) | .pool (.wake ..)
  | .pool (.callbackReturn ..) | .pool (.stop _) | .pool .stopPost => isTrue trivial

/-- The pool's steps keep the lists intact. -/
def ListRule (s : OwnedPool κ δ) : OwnedAction κ δ → Prop
  | .pool a => NoLateError s.pool a
  | .owner _ => True

instance (s : OwnedPool κ δ) (a : OwnedAction κ δ) : Decidable (ListRule s a) :=
  match a with
  | .pool a => inferInstanceAs (Decidable (NoLateError s.pool a))
  | .owner _ => isTrue trivial

/-- The runs of a pool that is used as its header says. -/
def Orderly (s : OwnedPool κ δ) (a : OwnedAction κ δ) : Prop := ClientRule s a ∧ ListRule s a

instance (s : OwnedPool κ δ) (a : OwnedAction κ δ) : Decidable (Orderly s a) :=
  inferInstanceAs (Decidable (_ ∧ _))

/-- A pool about to be initialised. -/
def OwnedInitial (s : OwnedPool κ δ) : Prop :=
  ∃ numThreads queueSize, ownedInit numThreads queueSize = some s

theorem OwnedInitial.eq {s : OwnedPool κ δ} (h : OwnedInitial s) :
    ∃ m n, s = { numThreads := n, pool := { maxQueueSize := m, threads := [] } } := by
  obtain ⟨n, q, hi⟩ := h
  unfold ownedInit at hi
  split at hi
  · cases hi
  · split at hi
    · cases hi
    · exact ⟨q.toNat, n.toNat, (Option.some.inj hi).symm⟩

end CWebServer.WorkerThreadPool
