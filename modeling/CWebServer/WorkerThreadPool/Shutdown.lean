import CWebServer.WorkerThreadPool.Lifecycle
import CWebServer.WorkerThreadPool.Places

/-!
# WorkerThreadPool — Shutdown

What holds of a pool from `worker_thread_pool_init` to the end of
`worker_thread_pool_dealloc`. No thread uses anything of the pool before it
exists or after it is gone; the two loops free each record on the lists once;
what they leave are the records whose `completed` flag was set. Once the flags
are cleared everything comes to an end, without waiting for a timeout.
-/

namespace CWebServer.WorkerThreadPool

open CWebServer.Lib CWebServer.Runs

variable {κ δ : Type}

/-! ## Where the owner stands -/

/-- There are contexts, with a mutex and a semaphore. -/
@[simp] def OwnerPc.hasThreads : OwnerPc → Bool
  | .createThread _ | .initialised | .stopThread _ | .postThread _ | .joinThread _
  | .freeThreads => true
  | .initMutex | .initSemaphore | .destroySemaphore | .destroyMutex | .freeTaskPool _
  | .freePending _ | .deallocated => false

/-- How many threads there are, while they are created. -/
@[simp] def OwnerPc.created : OwnerPc → Option Nat
  | .initMutex | .initSemaphore => some 0
  | .createThread i => some i
  | _ => none

/-- Thread `w` has been told to stop. -/
@[simp] def OwnerPc.stopped : OwnerPc → Nat → Bool
  | .stopThread i, w => w < i
  | .postThread _, _ | .joinThread _, _ | .freeThreads, _ => true
  | _, _ => false

/-- There is no thread `w`, or it has been joined. -/
@[simp] def OwnerPc.joined : OwnerPc → Nat → Bool
  | .joinThread i, w => w < i
  | .createThread _, _ | .initialised, _ | .stopThread _, _ | .postThread _, _ => false
  | _, _ => true

/-- The records are being freed. -/
@[simp] def OwnerPc.freeing : OwnerPc → Bool
  | .freeTaskPool _ | .freePending _ | .deallocated => true
  | _ => false

/-- The threads are gone, and so is their array. -/
@[simp] def OwnerPc.releasing : OwnerPc → Bool
  | .destroySemaphore | .destroyMutex | .freeTaskPool _ | .freePending _ | .deallocated => true
  | _ => false

/-- Workers that may still take a token, if their flag is cleared. -/
def WorkerPc.maySleep : WorkerPc → Bool
  | .checkPending | .waiting => true
  | _ => false

def PoolState.sleepers (s : PoolState κ δ) : Nat := s.threads.countP fun x => x.pc.maySleep

/-! ## The records -/

/-- The records on the two lists, when no worker holds one. -/
structure Kept (s : PoolState κ δ) (F Q : List Addr) : Prop where
  nodup : (F ++ Q).Nodup
  kept : ∀ t, t ∈ F ++ Q ↔ t < s.allocated ∧ (s.heap t).completed = false

/-- What has been freed, and what is still to be. -/
def OwnedPool.Records (s : OwnedPool κ δ) (F Q : List Addr) : Prop :=
  match s.owner with
  | .freeTaskPool p =>
      Kept s.pool F Q ∧ Chain (fun t => (s.pool.heap t).next) s.pool.taskPendingFirst Q
        ∧ ∃ rest, F = s.freed ++ rest ∧ Chain (fun t => (s.pool.heap t).next) p rest
  | .freePending p =>
      Kept s.pool F Q
        ∧ ∃ rest, F ++ Q = s.freed ++ rest ∧ Chain (fun t => (s.pool.heap t).next) p rest
  | .deallocated => Kept s.pool F Q ∧ F ++ Q = s.freed
  | _ => s.freed = [] ∧ Places s.pool F Q

structure OwnedInv (s : OwnedPool κ δ) : Prop where
  sound : s.misused = none
  threads : s.hasThreads = s.owner.hasThreads
  locks : s.owner.hasThreads = true →
    s.tasksMutexIsInit = true ∧ s.tasksSemaphoreIsInit = true
  count : s.pool.threads.length ≤ s.numThreads
  locked : s.owner = .initSemaphore → s.tasksMutexIsInit = true
  created : ∀ i, s.owner.created = some i → s.pool.threads.length = i
  stopped : ∀ w x, s.pool.threads[w]? = some x → s.owner.stopped w = true → x.running = false
  joined : ∀ w, s.owner.joined w = true → s.pool.Gone w
  posting : ∀ i, s.owner = .postThread i →
    s.pool.sleepers ≤ s.pool.tasksSemaphore + (s.numThreads - i)
  posted : ∀ i, s.owner = .joinThread i → s.pool.sleepers ≤ s.pool.tasksSemaphore
  calls : s.owner ≠ .initialised → ∀ c, (s.pool.calls c).pc.holds = none
  unposted : s.owner = .destroyMutex → s.tasksSemaphoreIsInit = false
  unlocked : s.owner.freeing = true →
    s.tasksMutexIsInit = false ∧ s.tasksSemaphoreIsInit = false
  records : ∃ F Q, s.Records F Q

/-! ## A step of the pool -/

section Pool

variable {s s' : PoolState κ δ} {F Q : List Addr}

theorem Places.kept (h : Places s F Q) (hgone : ∀ w, s.Gone w) : Kept s F Q := by
  have hheld : s.held = [] := by
    apply List.flatMap_eq_nil_iff.mpr
    intro x hx
    obtain ⟨w, hw⟩ := List.mem_iff_getElem?.mp hx
    rw [hgone w x hw]
    rfl
  constructor
  · rw [List.nodup_append]
    refine ⟨h.pool.lists.free_nodup, h.pool.lists.pending_nodup, ?_⟩
    intro t ht t' ht' heq
    exact (h.pool.lists.free_disjoint ht).1 (heq ▸ ht')
  · intro t
    rw [List.mem_append]
    constructor
    · rintro (ht | ht)
      · exact ⟨h.pool.lists.bound t (.inl ht), h.free t ht⟩
      · exact ⟨h.pool.lists.bound t (.inr (.inl ht)), (h.pool.live t (.inl ht)).1⟩
    · rintro ⟨hlt, hdone⟩
      rcases h.placed t hlt with ht | ht | ht | ht
      · exact .inl ht
      · exact .inr ht
      · rw [hheld] at ht
        cases ht
      · rw [hdone] at ht
        cases ht

/-- A worker's step takes a token only to become one sleeper less. -/
theorem Moved.sleepers {w : Nat} {x : WorkerThreadPoolContext} {p : WorkerPc}
    (h : Moved s s' w x p) (hstop : x.running = false) :
    s'.sleepers + s.tasksSemaphore ≤ s.sleepers + s'.tasksSemaphore := by
  have hcount : _ + (if x.pc.maySleep then 1 else 0) = _ + (if p.maySleep then 1 else 0) :=
    countP_set_add h.worker { x with pc := p } fun x => x.pc.maySleep
  simp only [PoolState.sleepers, h.threads]
  -- no move to the place before the wait, other than from the top of the loop
  have hp : p.maySleep = true → x.pc.maySleep = true := by
    intro hp
    cases h.move with
    | silent hs =>
        cases hs with
        | again hx hr => rw [hstop] at hr; cases hr
        | sleep hx => rw [hx]; rfl
        | _ => cases hp
    | _ => cases hp
  rcases h.tokens with htok | ⟨hx, ⟨e, rfl⟩, htok⟩
  · have hle : (if p.maySleep then 1 else 0) ≤ (if x.pc.maySleep then 1 else 0) := by
      by_cases hps : p.maySleep = true
      · exact Nat.le_of_eq ((if_pos hps).trans (if_pos (hp hps)).symm)
      · rw [if_neg hps]
        exact Nat.zero_le _
    rw [htok]
    omega
  · have hasleep : x.pc.maySleep = true := by rw [hx]; rfl
    have hawake : (WorkerPc.woken e).maySleep = false := rfl
    simp only [hasleep, hawake, if_true, Bool.false_eq_true, if_false] at hcount
    omega

end Pool

/-! ## Steps of the other threads -/

section Others

variable {s : OwnedPool κ δ} {F Q : List Addr}

theorem OwnedPool.records_of_not_freeing (h : s.owner.freeing = false) :
    s.Records F Q ↔ s.freed = [] ∧ Places s.pool F Q := by
  cases hs : s.owner <;> simp_all [OwnedPool.Records]

/-- Without a call in progress, no caller takes a step. -/
theorem worker_of_step {s s' : PoolState κ δ} {a : Action κ δ} (ht : Transition s a s')
    (hcalls : ∀ c, (s.calls c).pc.holds = none)
    (hnew : ∀ c b i, a ≠ .enqueue c b i) (hstop : ∀ w, a ≠ .stop w)
    (hpost : a ≠ .stopPost) :
    ∃ w, a.worker? = some w := by
  cases ht with
  | @reject c b i | @link c b i => exact absurd rfl (hnew c b i)
  | @postReturn c t hpc | @postWait c t hpc | @waitForever c t e hpc | @waitTimed c t e hpc
  | @settleCompleted c t e hpc | @settlePosted c t hpc | @settleTimeout c t hpc
  | @settleError c t hpc =>
      have hholds := hcalls c
      rw [hpc] at hholds
      cases hholds
  | @stop w => exact absurd rfl (hstop w)
  | stopPost => exact absurd rfl hpost
  | @silent w | @dequeue w | @start w | @store w | @giveBack w | @complete w | @wake w
  | @callbackReturn w => exact ⟨w, rfl⟩

/-- A worker steps only while there are contexts. -/
theorem OwnedInv.hasThreads_of_worker (h : OwnedInv s) {p : PoolState κ δ} {a : Action κ δ}
    {w : Nat} (ht : Transition s.pool a p) (ha : a.worker? = some w) :
    s.owner.joined w = false ∧ s.owner.hasThreads = true := by
  obtain ⟨x, q, hmoved⟩ := ht.moves ha
  have hjoined : s.owner.joined w = false := by
    by_contra hj
    rw [Bool.not_eq_false] at hj
    exact hmoved.move.pc_ne.1 (h.joined w hj x hmoved.worker)
  refine ⟨hjoined, ?_⟩
  cases hs : s.owner <;> simp_all

/-- What a step of a worker or of a caller uses is there. -/
theorem OwnedInv.uses_live (h : OwnedInv s) {a : Action κ δ}
    (hthreads : s.owner.hasThreads = true) {r : Resource} (hr : r ∈ uses s.pool a) :
    s.live r = true := by
  obtain ⟨hmutex, hsemaphore⟩ := h.locks hthreads
  have hcontexts := h.threads.trans hthreads
  have hfreed : s.freed = [] := by
    obtain ⟨F, Q, hrecords⟩ := h.records
    refine ((OwnedPool.records_of_not_freeing ?_).mp hrecords).1
    cases hs : s.owner <;> simp_all
  cases r with
  | mutex => exact hmutex
  | semaphore => exact hsemaphore
  | contexts => exact hcontexts
  | record t => simp [OwnedPool.live, hfreed]

theorem OwnedPool.withUses_live {rs : List Resource} {s' : OwnedPool κ δ}
    (h : ∀ r ∈ rs, s.live r = true) : s.withUses rs s' = s' := by
  have hnone : rs.find? (fun r => !s.live r) = none :=
    List.find?_eq_none.mpr fun r hr => by simp [h r hr]
  simp only [OwnedPool.withUses, hnone]

/-- **A step of a worker or of a caller** keeps the invariant. -/
theorem OwnedInv.poolStep (h : OwnedInv s) {p : PoolState κ δ} {a : Action κ δ}
    (hok : Orderly s (.pool a)) (ht : Transition s.pool a p) (hstop : ∀ w, a ≠ .stop w)
    (hpost : a ≠ .stopPost) : s.owner.hasThreads = true ∧ OwnedInv { s with pool := p } := by
  have hlength := ht.length_threads
  -- while calls are made nothing is stopped; later there are only the workers
  have hcases : s.owner = .initialised
    ∨ s.owner ≠ .initialised ∧ ∃ w, a.worker? = some w := by
    by_cases hs : s.owner = .initialised
    · exact .inl hs
    · refine .inr ⟨hs, worker_of_step ht (h.calls hs) ?_ hstop hpost⟩
      rintro c b i rfl
      exact hs hok.1
  have hthreads : s.owner.hasThreads = true := by
    rcases hcases with hs | ⟨-, w, hw⟩
    · rw [hs]
      rfl
    · exact (h.hasThreads_of_worker ht hw).2
  have hrecords : ∃ F Q, OwnedPool.Records { s with pool := p } F Q := by
    have hfreeing : s.owner.freeing = false := by cases hs : s.owner <;> simp_all
    obtain ⟨F, Q, hr⟩ := h.records
    obtain ⟨hfreed, hplaces⟩ := (OwnedPool.records_of_not_freeing hfreeing).mp hr
    obtain ⟨F', Q', hplaces'⟩ := hplaces.step hok.2 ht
    exact ⟨F', Q', (OwnedPool.records_of_not_freeing (s := { s with pool := p }) hfreeing).mpr
      ⟨hfreed, hplaces'⟩⟩
  refine ⟨hthreads, h.sound, h.threads, h.locks, Nat.le_trans (Nat.le_of_eq hlength) h.count,
    h.locked, fun i hi => hlength.trans (h.created i hi), ?_,
    fun w hw => ht.gone (h.joined w hw), ?_, ?_, ?_, h.unposted, h.unlocked, hrecords⟩
  · intro w y hy hw
    rcases hcases with hs | ⟨-, w', hw'⟩
    · rw [hs] at hw
      cases hw
    · obtain ⟨x, q, hmoved⟩ := ht.moves hw'
      rw [hmoved.threads] at hy
      by_cases hww : w' = w
      · subst hww
        rw [List.getElem?_set_self (List.getElem?_eq_some_iff.mp hmoved.worker).1] at hy
        cases hy
        exact h.stopped w' x hmoved.worker hw
      · rw [List.getElem?_set_ne hww] at hy
        exact h.stopped w y hy hw
  · intro i hi
    change s.owner = _ at hi
    rcases hcases with hs | ⟨-, w, hw⟩
    · rw [hs] at hi
      cases hi
    · obtain ⟨x, q, hmoved⟩ := ht.moves hw
      have hle := hmoved.sleepers (h.stopped w x hmoved.worker (by simp [hi]))
      have hbound := h.posting i hi
      show p.sleepers ≤ p.tasksSemaphore + (s.numThreads - i)
      omega
  · intro i hi
    change s.owner = _ at hi
    rcases hcases with hs | ⟨-, w, hw⟩
    · rw [hs] at hi
      cases hi
    · obtain ⟨x, q, hmoved⟩ := ht.moves hw
      have hle := hmoved.sleepers (h.stopped w x hmoved.worker (by simp [hi]))
      have hbound := h.posted i hi
      show p.sleepers ≤ p.tasksSemaphore
      omega
  · intro hs c
    rcases hcases with hs' | ⟨-, w, hw⟩
    · exact absurd hs' hs
    · obtain ⟨x, q, hmoved⟩ := ht.moves hw
      show (p.calls c).pc.holds = none
      rw [hmoved.calls]
      exact h.calls hs c

end Others

/-! ## Steps of the owner -/

section Owner

variable {s s' : OwnedPool κ δ} {F Q : List Addr}

/-- The same records under other tokens, flags and threads without a record. -/
theorem Places.congr {p q : PoolState κ δ} (h : Places p F Q) (hheap : q.heap = p.heap)
    (hcalls : q.calls = p.calls) (hfields : q.listFields = p.listFields)
    (hhist : q.history = p.history) (hheld : q.held = p.held) : Places q F Q := by
  have halloc := PoolInv.allocated_eq hfields
  have hlabels : LabelInv q := by
    refine h.pool.labels.congr ?_ (by rw [hhist]) halloc (fun c _ => by rw [hcalls])
      (fun t => by rw [hheap]) fun t a hf => by rwa [hheap]
    exact h.pool.labels.calls.congr (by rw [hhist]) (fun c e he => hhist ▸ he) hcalls
  refine ⟨h.pool.of_worker hlabels hheap hcalls hfields hheld (by rw [hhist]) (by rw [hhist]), ?_,
    ?_⟩
  · rw [halloc, hheld, hheap]
    exact h.placed
  · rw [hheap]
    exact h.free

/-- An initialised pool begins to be deallocated. -/
theorem OwnedInv.dealloc (h : OwnedInv s) (hthreads : s.owner.hasThreads = true) (failed : Bool)
    (hcalls : ∀ c, (s.pool.calls c).pc.holds = none) :
    OwnedInv { s with failed := failed, owner := s.beginDealloc } := by
  have hbegin : s.beginDealloc = .stopThread 0 := by
    rw [OwnedPool.beginDealloc, if_pos (h.threads.trans hthreads)]
  have hfreeing : s.owner.freeing = false := by cases hs : s.owner <;> simp_all
  obtain ⟨F, Q, hr⟩ := h.records
  rw [hbegin]
  refine ⟨h.sound, h.threads.trans hthreads, fun _ => h.locks hthreads, h.count, by simp, by simp,
    by simp, by simp, by simp, by simp, fun _ => hcalls, by simp, by simp, F, Q, ?_⟩
  exact (OwnedPool.records_of_not_freeing rfl).mpr
    ((OwnedPool.records_of_not_freeing hfreeing).mp hr)

theorem OwnedPool.Records.keep (hr : s.Records F Q) (hold : s.owner.freeing = false)
    (hnew : s'.owner.freeing = false) (hfreed : s'.freed = s.freed) (hpool : s'.pool = s.pool) :
    s'.Records F Q := by
  rw [records_of_not_freeing hnew, hfreed, hpool]
  exact (records_of_not_freeing hold).mp hr

/-- All workers are gone, and the owner takes down the rest. -/
theorem OwnedInv.released (h : OwnedInv s) (hgone : ∀ w, s.pool.Gone w)
    (hreturned : s.owner ≠ .initialised) (ho : s'.owner.releasing = true)
    (hsame : s'.misused = s.misused ∧ s'.numThreads = s.numThreads)
    (hthreads : s'.hasThreads = false) (hworkers : s'.pool.threads = s.pool.threads)
    (hcalls : s'.pool.calls = s.pool.calls)
    (hunposted : s'.owner = .destroyMutex → s'.tasksSemaphoreIsInit = false)
    (hunlocked : s'.owner.freeing = true →
      s'.tasksMutexIsInit = false ∧ s'.tasksSemaphoreIsInit = false)
    (hrecords : ∃ F Q, s'.Records F Q) : OwnedInv s' := by
  refine ⟨hsame.1.trans h.sound, ?_, ?_, ?_, ?_, ?_, ?_, ?_, ?_, ?_, ?_, hunposted, hunlocked,
    hrecords⟩
  · rw [hthreads]
    cases hs : s'.owner <;> simp_all
  · intro hh
    cases hs : s'.owner <;> simp_all
  · rw [hworkers, hsame.2]
    exact h.count
  · intro hh
    rw [hh] at ho
    cases ho
  · intro i hi
    cases hs : s'.owner <;> simp_all
  · intro w x hw hh
    cases hs : s'.owner <;> simp_all
  · intro w _ x hx
    exact hgone w x (hworkers ▸ hx)
  · intro i hi
    rw [hi] at ho
    cases ho
  · intro i hi
    rw [hi] at ho
    cases ho
  · intro _ c
    rw [hcalls]
    exact h.calls hreturned c

/-- There is nothing to deallocate but the mutex and the semaphore. -/
theorem OwnedInv.initFailed (h : OwnedInv s)
    (hs : s.owner = .initMutex ∨ s.owner = .initSemaphore) :
    OwnedInv { s with failed := true, owner := s.beginDealloc } := by
  have hthreads : s.hasThreads = false :=
    h.threads.trans (by rcases hs with hs | hs <;> rw [hs] <;> rfl)
  have hbegin : s.beginDealloc = .destroySemaphore := by
    rw [OwnedPool.beginDealloc, hthreads]
    rfl
  obtain ⟨F, Q, hr⟩ := h.records
  rw [hbegin]
  refine h.released (fun w => h.joined w ?_) ?_ rfl ⟨rfl, rfl⟩ hthreads rfl rfl
    (by simp) (by simp) ⟨F, Q, hr.keep ?_ rfl rfl rfl⟩
  all_goals rcases hs with hs | hs <;> simp [hs]

/-- The owner goes to `o`; the pool has at most other tokens, flags and idle
threads. -/
theorem OwnedInv.goto (h : OwnedInv s) (o : OwnerPc) (p : PoolState κ δ)
    (hthreads : o.hasThreads = s.owner.hasThreads) (hold : s.owner.freeing = false)
    (hfreeing : o.freeing = false) (hheap : p.heap = s.pool.heap)
    (hcalls : p.calls = s.pool.calls) (hfields : p.listFields = s.pool.listFields)
    (hhist : p.history = s.pool.history) (hheld : p.held = s.pool.held)
    (hcount : p.threads.length ≤ s.numThreads) (hlocked : o ≠ .initSemaphore)
    (hdestroying : o ≠ .destroyMutex)
    (hcreated : ∀ i, o.created = some i → p.threads.length = i)
    (hstopped : ∀ w x, p.threads[w]? = some x → o.stopped w = true → x.running = false)
    (hjoined : ∀ w, o.joined w = true → p.Gone w)
    (hposting : ∀ i, o = .postThread i → p.sleepers ≤ p.tasksSemaphore + (s.numThreads - i))
    (hposted : ∀ i, o = .joinThread i → p.sleepers ≤ p.tasksSemaphore)
    (hreturned : s.owner ≠ .initialised) : OwnedInv { s with pool := p, owner := o } := by
  obtain ⟨F, Q, hr⟩ := h.records
  obtain ⟨hfreed, hplaces⟩ := (OwnedPool.records_of_not_freeing hold).mp hr
  refine ⟨h.sound, h.threads.trans hthreads.symm, fun ho => h.locks (hthreads ▸ ho), hcount,
    fun ho => absurd ho hlocked, hcreated, hstopped, hjoined, hposting, hposted, ?_, ?_, ?_, F, Q,
    ?_⟩
  · intro _ c
    show (p.calls c).pc.holds = none
    rw [hcalls]
    exact h.calls hreturned c
  · exact fun ho => absurd ho hdestroying
  · intro ho
    rw [show o.freeing = false from hfreeing] at ho
    cases ho
  · exact (OwnedPool.records_of_not_freeing (s := { s with pool := p, owner := o }) hfreeing).mpr
      ⟨hfreed, hplaces.congr hheap hcalls hfields hhist hheld⟩

/-- The same with the pool left alone. -/
theorem OwnedInv.goes (h : OwnedInv s) (o : OwnerPc)
    (hthreads : o.hasThreads = s.owner.hasThreads) (hold : s.owner.freeing = false)
    (hfreeing : o.freeing = false) (hlocked : o ≠ .initSemaphore)
    (hdestroying : o ≠ .destroyMutex) (hcreated : o.created = none)
    (hstopped : ∀ w x, s.pool.threads[w]? = some x → o.stopped w = true → x.running = false)
    (hjoined : ∀ w, o.joined w = true → s.pool.Gone w)
    (hposting : ∀ i, o = .postThread i →
      s.pool.sleepers ≤ s.pool.tasksSemaphore + (s.numThreads - i))
    (hposted : ∀ i, o = .joinThread i → s.pool.sleepers ≤ s.pool.tasksSemaphore)
    (hreturned : s.owner ≠ .initialised) : OwnedInv { s with owner := o } :=
  h.goto o s.pool hthreads hold hfreeing rfl rfl rfl rfl rfl h.count hlocked hdestroying
    (fun i hi => by rw [hcreated] at hi; cases hi) hstopped hjoined hposting hposted hreturned

theorem OwnedInv.lt_numThreads (h : OwnedInv s) {w : Nat} {x : WorkerThreadPoolContext}
    (hw : s.pool.threads[w]? = some x) : w < s.numThreads :=
  Nat.lt_of_lt_of_le (List.getElem?_eq_some_iff.mp hw).1 h.count

/-- A worker is created. -/
theorem OwnedInv.workerCreated (h : OwnedInv s) {i : Nat} (hs : s.owner = .createThread i)
    (hi : i < s.numThreads) :
    OwnedInv { s with
      pool := { s.pool with threads := s.pool.threads ++ [{}] }
      owner := .createThread (i + 1) } := by
  have hlength : (s.pool.threads ++ [({} : WorkerThreadPoolContext)]).length = i + 1 := by
    rw [List.length_append, h.created i (by rw [hs]; rfl)]
    rfl
  apply h.goto
  · rw [hs]; rfl
  · rw [hs]; rfl
  · rfl
  · rfl
  · rfl
  · rfl
  · rfl
  · simp [PoolState.held, WorkerPc.holds]
  · show (s.pool.threads ++ [({} : WorkerThreadPoolContext)]).length ≤ s.numThreads
    omega
  · simp
  · simp
  · rintro j ⟨rfl⟩
    exact hlength
  · simp
  · simp
  · simp
  · simp
  · simp [hs]

/-- The flag of thread `i` is cleared. -/
theorem OwnedInv.threadStopped (h : OwnedInv s) {i : Nat} (hs : s.owner = .stopThread i) :
    OwnedInv { s with
      pool := { s.pool with
        threads := s.pool.threads.modify i fun x => { x with running := false } }
      owner := .stopThread (i + 1) } := by
  apply h.goto
  · rw [hs]; rfl
  · rw [hs]; rfl
  · rfl
  · rfl
  · rfl
  · rfl
  · rfl
  · exact flatMap_modify_of_eq (g := fun x => { x with running := false })
      (f := fun x : WorkerThreadPoolContext => x.pc.holds) (fun _ => rfl) _ _
  · simpa using h.count
  · simp
  · simp
  · simp
  · intro w x hx hw
    rw [List.getElem?_modify] at hx
    obtain ⟨y, hy, rfl⟩ := Option.map_eq_some_iff.mp hx
    split
    · rfl
    · rename_i hiw
      have hlt : w < i := by
        simp only [OwnerPc.stopped, decide_eq_true_eq] at hw
        omega
      exact h.stopped w y hy (by simp [hs, hlt])
  · simp
  · simp
  · simp
  · simp [hs]

/-- The owner has joined thread `i`. -/
theorem OwnedInv.threadJoined (h : OwnedInv s) {i : Nat} (hs : s.owner = .joinThread i)
    (hjoinable : s.joinable i = true) : OwnedInv { s with owner := .joinThread (i + 1) } := by
  refine h.goes _ (by rw [hs]; rfl) (by rw [hs]; rfl) rfl (by simp) (by simp) rfl
    (fun w x hw _ => h.stopped w x hw (by simp [hs])) ?_ (by simp) (fun _ _ => h.posted i hs)
    (by simp [hs])
  intro w hw
  simp only [OwnerPc.joined, decide_eq_true_eq] at hw
  rcases Nat.lt_succ_iff_lt_or_eq.mp hw with hlt | rfl
  · exact h.joined w (by simp [hs, hlt])
  · intro x hx
    simpa [OwnedPool.joinable, hx] using hjoinable

/-- There is no worker beyond those that were joined. -/
theorem OwnedInv.allJoined (h : OwnedInv s) {i : Nat} (hs : s.owner = .joinThread i)
    (hi : s.numThreads ≤ i) : OwnedInv { s with owner := .freeThreads } := by
  refine h.goes _ (by rw [hs]; rfl) (by rw [hs]; rfl) rfl (by simp) (by simp) rfl
    (fun w x hw _ => h.stopped w x hw (by simp [hs])) ?_ (by simp) (by simp) (by simp [hs])
  intro w _ x hx
  have hlt := h.lt_numThreads hx
  exact h.joined w (by rw [hs]; simp; omega) x hx

/-- From the free list or the queue, the next record is freed. -/
theorem notMem_freed {l freed rest : List Addr} {t : Addr} (hnd : l.Nodup)
    (hl : l = freed ++ t :: rest) : t ∉ freed := by
  rw [hl, List.nodup_append] at hnd
  exact fun ht => hnd.2.2 t ht t (by simp) rfl

/-- **A step of the owner** keeps the invariant, and what it uses is there. -/
theorem OwnedInv.ownerStep (h : OwnedInv s) {ok : Bool} (hok : ClientRule s (.owner ok))
    (hs : s.ownerStep ok = some s') : (∀ r ∈ s.ownerUses, s.live r = true) ∧ OwnedInv s' := by
  obtain ⟨F, Q, hr⟩ := h.records
  cases howner : s.owner with
  | initMutex =>
      refine ⟨by simp [OwnedPool.ownerUses, howner], ?_⟩
      simp only [OwnedPool.ownerStep, howner] at hs
      split at hs <;> cases hs
      · refine ⟨h.sound, h.threads.trans (by rw [howner]; rfl), by simp, h.count, fun _ => rfl,
          fun i hi => h.created i (by rw [howner]; exact hi), by simp,
          fun w _ => h.joined w (by simp [howner]), by simp, by simp,
          fun _ => h.calls (by simp [howner]), by simp, by simp, F, Q,
          hr.keep (by rw [howner]; rfl) rfl rfl rfl⟩
      · exact h.initFailed (.inl howner)
  | initSemaphore =>
      refine ⟨by simp [OwnedPool.ownerUses, howner], ?_⟩
      simp only [OwnedPool.ownerStep, howner] at hs
      split at hs <;> cases hs
      · refine ⟨h.sound, rfl, fun _ => ⟨h.locked howner, rfl⟩, h.count, by simp,
          fun i hi => h.created i (by rw [howner]; exact hi), by simp, by simp, by simp, by simp,
          fun _ => h.calls (by simp [howner]), by simp, by simp, F, Q,
          hr.keep (by rw [howner]; rfl) rfl rfl rfl⟩
      · exact h.initFailed (.inr howner)
  | createThread i =>
      refine ⟨?_, ?_⟩
      · simp [OwnedPool.ownerUses, howner, OwnedPool.live, h.threads]
      · simp only [OwnedPool.ownerStep, howner] at hs
        split at hs
        · cases hs
          exact h.goes _ (by rw [howner]; rfl) (by rw [howner]; rfl) rfl (by simp) (by simp)
            rfl (by simp) (by simp) (by simp) (by simp) (by simp [howner])
        · rename_i hi
          split at hs <;> cases hs
          · exact h.workerCreated howner (Nat.not_le.mp hi)
          · exact h.dealloc (by rw [howner]; rfl) true (h.calls (by simp [howner]))
  | initialised =>
      refine ⟨by simp [OwnedPool.ownerUses, howner], ?_⟩
      simp only [OwnedPool.ownerStep, howner, Option.some.injEq] at hs
      subst hs
      have hplaces := ((OwnedPool.records_of_not_freeing (by rw [howner]; rfl)).mp hr).2
      refine h.dealloc (by rw [howner]; rfl) s.failed fun c => ?_
      cases hc : (s.pool.calls c).pc.holds with
      | none => rfl
      | some t =>
          rw [hok howner c (hplaces.pool.labels.calls.recorded c t hc)] at hc
          cases hc
  | stopThread i =>
      refine ⟨?_, ?_⟩
      · simp [OwnedPool.ownerUses, howner, OwnedPool.live, h.threads]
      · simp only [OwnedPool.ownerStep, howner] at hs
        split at hs <;> cases hs
        · rename_i hi
          refine h.goes _ (by rw [howner]; rfl) (by rw [howner]; rfl) rfl (by simp) (by simp) rfl
            ?_ (by simp) ?_ (by simp) (by simp [howner])
          · intro w x hw _
            have hlt := h.lt_numThreads hw
            exact h.stopped w x hw (by rw [howner]; simp; omega)
          · intro j hj
            have hsleep : s.pool.sleepers ≤ s.pool.threads.length := List.countP_le_length
            have hcount := h.count
            cases hj
            omega
        · exact h.threadStopped howner
  | postThread i =>
      have hposting := h.posting i howner
      refine ⟨?_, ?_⟩
      · simp [OwnedPool.ownerUses, howner, OwnedPool.live, h.locks (by rw [howner]; rfl)]
      · have hstopped : ∀ (w : Nat) x, s.pool.threads[w]? = some x → x.running = false :=
          fun w x hw => h.stopped w x hw (by simp [howner])
        simp only [OwnedPool.ownerStep, howner] at hs
        split at hs <;> cases hs
        · rename_i hi
          refine h.goes _ (by rw [howner]; rfl) (by rw [howner]; rfl) rfl (by simp) (by simp) rfl
            (fun w x hw _ => hstopped w x hw) (by simp) (by simp) ?_ (by simp [howner])
          intro j _
          omega
        · rename_i hi
          refine h.goto _ { s.pool with tasksSemaphore := s.pool.tasksSemaphore + 1 }
            (by rw [howner]; rfl) (by rw [howner]; rfl) rfl rfl rfl rfl rfl rfl h.count (by simp)
            (by simp) (by simp) (fun w x hw _ => hstopped w x hw) (by simp) ?_ (by simp)
            (by simp [howner])
          intro j hj
          cases hj
          show s.pool.sleepers ≤ s.pool.tasksSemaphore + 1 + (s.numThreads - (i + 1))
          omega
  | joinThread i =>
      refine ⟨?_, ?_⟩
      · simp [OwnedPool.ownerUses, howner, OwnedPool.live, h.threads]
      · simp only [OwnedPool.ownerStep, howner] at hs
        split at hs
        · rename_i hi
          cases hs
          exact h.allJoined howner hi
        · split at hs
          · rename_i hjoinable
            cases hs
            exact h.threadJoined howner hjoinable
          · cases hs
  | freeThreads =>
      refine ⟨?_, ?_⟩
      · simp [OwnedPool.ownerUses, howner, OwnedPool.live, h.threads]
      · simp only [OwnedPool.ownerStep, howner, Option.some.injEq] at hs
        subst hs
        exact h.released (fun w => h.joined w (by simp [howner])) (by simp [howner]) rfl
          ⟨rfl, rfl⟩ rfl rfl rfl (by simp) (by simp)
          ⟨F, Q, hr.keep (by rw [howner]; rfl) rfl rfl rfl⟩
  | destroySemaphore =>
      refine ⟨by simp [OwnedPool.ownerUses, howner], ?_⟩
      simp only [OwnedPool.ownerStep, howner, Option.some.injEq] at hs
      subst hs
      exact h.released (fun w => h.joined w (by simp [howner])) (by simp [howner]) rfl
        ⟨rfl, rfl⟩ (h.threads.trans (by rw [howner]; rfl)) rfl rfl (fun _ => rfl) (by simp)
        ⟨F, Q, hr.keep (by rw [howner]; rfl) rfl rfl rfl⟩
  | destroyMutex =>
      refine ⟨by simp [OwnedPool.ownerUses, howner], ?_⟩
      simp only [OwnedPool.ownerStep, howner, Option.some.injEq] at hs
      subst hs
      obtain ⟨hfreed, hplaces⟩ := (OwnedPool.records_of_not_freeing (by rw [howner]; rfl)).mp hr
      have hgone : ∀ w, s.pool.Gone w := fun w => h.joined w (by simp [howner])
      refine h.released hgone (by simp [howner]) rfl ⟨rfl, rfl⟩
        (h.threads.trans (by rw [howner]; rfl)) rfl rfl (by simp)
        (fun _ => ⟨rfl, h.unposted howner⟩)
        ⟨F, Q, hplaces.kept hgone, hplaces.pool.lists.pending, F, ?_, hplaces.pool.lists.free⟩
      rw [hfreed]
      rfl
  | freeTaskPool p =>
      have hgone : ∀ w, s.pool.Gone w := fun w => h.joined w (by simp [howner])
      have hthreads : s.hasThreads = false := h.threads.trans (by rw [howner]; rfl)
      have hunlocked := h.unlocked (by rw [howner]; rfl)
      simp only [OwnedPool.Records, howner] at hr
      obtain ⟨hkept, hpending, rest, hF, hchain⟩ := hr
      cases p with
      | none =>
          refine ⟨by simp [OwnedPool.ownerUses, howner], ?_⟩
          simp only [OwnedPool.ownerStep, howner, Option.some.injEq] at hs
          subst hs
          obtain rfl : rest = [] := List.head?_eq_none_iff.mp hchain.head.symm
          refine h.released hgone (by simp [howner]) rfl ⟨rfl, rfl⟩ hthreads rfl rfl (by simp)
            (fun _ => hunlocked) ⟨F, Q, ⟨hkept.nodup, hkept.kept⟩, Q, ?_, hpending⟩
          rw [hF, List.append_nil]
      | some t =>
          obtain ⟨rest', rfl, hchain'⟩ := hchain.pop
          refine ⟨?_, ?_⟩
          · have hnew := notMem_freed (List.nodup_append.mp hkept.nodup).1 hF
            simp [OwnedPool.ownerUses, howner, OwnedPool.live, hnew]
          · simp only [OwnedPool.ownerStep, howner, Option.some.injEq] at hs
            subst hs
            refine h.released hgone (by simp [howner]) rfl ⟨rfl, rfl⟩ hthreads rfl rfl (by simp)
              (fun _ => hunlocked) ⟨F, Q, hkept, hpending, rest', ?_, hchain'⟩
            rw [hF, List.append_assoc]
            rfl
  | freePending p =>
      have hgone : ∀ w, s.pool.Gone w := fun w => h.joined w (by simp [howner])
      have hthreads : s.hasThreads = false := h.threads.trans (by rw [howner]; rfl)
      have hunlocked := h.unlocked (by rw [howner]; rfl)
      simp only [OwnedPool.Records, howner] at hr
      obtain ⟨hkept, rest, hF, hchain⟩ := hr
      cases p with
      | none =>
          refine ⟨by simp [OwnedPool.ownerUses, howner], ?_⟩
          simp only [OwnedPool.ownerStep, howner, Option.some.injEq] at hs
          subst hs
          obtain rfl : rest = [] := List.head?_eq_none_iff.mp hchain.head.symm
          refine h.released hgone (by simp [howner]) rfl ⟨rfl, rfl⟩ hthreads rfl rfl (by simp)
            (fun _ => hunlocked) ⟨F, Q, ⟨hkept.nodup, hkept.kept⟩, ?_⟩
          rw [hF, List.append_nil]
      | some t =>
          obtain ⟨rest', rfl, hchain'⟩ := hchain.pop
          refine ⟨?_, ?_⟩
          · have hnew := notMem_freed hkept.nodup hF
            simp [OwnedPool.ownerUses, howner, OwnedPool.live, hnew]
          · simp only [OwnedPool.ownerStep, howner, Option.some.injEq] at hs
            subst hs
            refine h.released hgone (by simp [howner]) rfl ⟨rfl, rfl⟩ hthreads rfl rfl (by simp)
              (fun _ => hunlocked) ⟨F, Q, hkept, rest', ?_, hchain'⟩
            rw [hF, List.append_assoc]
            rfl
  | deallocated => simp [OwnedPool.ownerStep, howner] at hs

end Owner

/-! ## Runs -/

variable {s s' : OwnedPool κ δ}

/-- A step is the owner's, or one of the pool that is not the owner's. -/
theorem OwnedInv.cases (h : OwnedInv s) {a : OwnedAction κ δ} (hok : Orderly s a)
    (hs : ownedStep s a = some s') :
    (∃ ok, a = .owner ok ∧ s.ownerStep ok = some s')
      ∨ ∃ b p, a = .pool b ∧ WorkerThreadPool.step s.pool b = some p
        ∧ (∀ w, b ≠ .stop w)
        ∧ b ≠ .stopPost ∧ s' = { s with pool := p } := by
  have hsound : s.misused.isSome = false := by rw [h.sound]; rfl
  unfold ownedStep at hs
  rw [hsound] at hs
  simp only [Bool.false_eq_true, if_false] at hs
  cases a with
  | owner ok =>
      obtain ⟨u, hu, rfl⟩ := Option.map_eq_some_iff.mp hs
      rw [OwnedPool.withUses_live (h.ownerStep hok.1 hu).1]
      exact .inl ⟨ok, rfl, hu⟩
  | pool b =>
      cases b with
      | stop | stopPost => cases hs
      | enqueue | post | wait | settle | worker | wake | callbackReturn =>
          obtain ⟨p, hp, rfl⟩ := Option.map_eq_some_iff.mp hs
          obtain ⟨hthreads, -⟩ := h.poolStep hok (step_transition hp) (by simp) (by simp)
          rw [OwnedPool.withUses_live fun r hr => h.uses_live hthreads hr]
          exact .inr ⟨_, p, rfl, hp, by simp, by simp, rfl⟩

/-- Every step keeps the invariant. -/
theorem OwnedInv.step (h : OwnedInv s) {a : OwnedAction κ δ} (hok : Orderly s a)
    (hs : ownedStep s a = some s') : OwnedInv s' := by
  rcases h.cases hok hs with ⟨ok, rfl, hu⟩ | ⟨b, p, rfl, hp, hstop, hpost, rfl⟩
  · exact (h.ownerStep hok.1 hu).2
  · exact (h.poolStep hok (step_transition hp) hstop hpost).2

theorem ownedInv_initial (h₀ : OwnedInitial s) : OwnedInv s := by
  obtain ⟨n, q, hi⟩ := h₀
  unfold ownedInit at hi
  split at hi
  · cases hi
  · split at hi
    · cases hi
    · rename_i hq
      cases hi
      -- a pool without threads differs from an initialised one in its threads only
      have hone : PoolInv
          ({ maxQueueSize := q.toNat, threads := [{}] } : PoolState κ δ) [] [] :=
        .initial ⟨1, q, by simp [workerThreadPoolInit, hq]⟩
      have hplaces : Places
          ({ maxQueueSize := q.toNat, threads := [] } : PoolState κ δ) [] [] :=
        (Places.initial hone rfl).congr rfl rfl rfl rfl rfl
      refine ⟨rfl, rfl, by simp, Nat.zero_le _, by simp, ?_, by simp, by simp [PoolState.Gone],
        by simp, by simp, fun _ _ => rfl, by simp, by simp, [], [], rfl, hplaces⟩
      intro i hi
      cases hi
      rfl

theorem ownedInv_reaches {ok : OwnedPool κ δ → OwnedAction κ δ → Prop}
    {s₀ : OwnedPool κ δ} (hok : ∀ s a, ok s a → Orderly s a) (h₀ : OwnedInitial s₀)
    (h : Reaches ownedStep ok s₀ s) :
    OwnedInv s :=
  h.invariant (ownedInv_initial h₀) fun _ _ _ hi ha hs => hi.step (hok _ _ ha) hs

/-- **What `worker_thread_pool_dealloc` leaves**: no thread, no mutex, no
semaphore and no contexts; each record has been freed once, except those whose
`completed` flag was set, as it is where a call succeeds, which are lost. -/
theorem dealloc_frees {s₀ : OwnedPool κ δ} (h₀ : OwnedInitial s₀)
    (h : Reaches ownedStep Orderly s₀ s) (hend : s.owner = .deallocated) :
    (∀ w, s.pool.Gone w) ∧ s.hasThreads = false ∧ s.tasksMutexIsInit = false
      ∧ s.tasksSemaphoreIsInit = false ∧ s.freed.Nodup
      ∧ ∀ t, t ∈ s.freed ↔ t < s.pool.allocated ∧ (s.pool.heap t).completed = false := by
  have hinv := ownedInv_reaches (fun _ _ hok => hok) h₀ h
  obtain ⟨F, Q, hr⟩ := hinv.records
  simp only [OwnedPool.Records, hend] at hr
  obtain ⟨hkept, hfreed⟩ := hr
  obtain ⟨hmutex, hsemaphore⟩ := hinv.unlocked (by rw [hend]; rfl)
  refine ⟨fun w => hinv.joined w (by simp [hend]), hinv.threads.trans (by rw [hend]; rfl), hmutex,
    hsemaphore, ?_, ?_⟩
  · rw [← hfreed]
    exact hkept.nodup
  · rw [← hfreed]
    exact hkept.kept

/-- A pool with one thread and one place in the queue. -/
def ownedOne : OwnedPool Unit Unit :=
  { numThreads := 1, pool := { maxQueueSize := 1, threads := [] } }

/-- Two calls that do not wait; the first task completes, the second is still
queued when the worker is told to stop. -/
def stoppedRun : List (OwnedAction Unit Unit) :=
  [.owner true, .owner true, .owner true, .owner true,
    .pool (.enqueue 0 { callback := some () } true), .pool (.post 0), .pool (.worker 0),
    .pool (.worker 0), .pool (.worker 0), .pool (.callbackReturn 0 7), .pool (.worker 0),
    .pool (.worker 0), .pool (.enqueue 1 { callback := some () } true), .pool (.post 1),
    .owner true, .owner true, .owner true]

/-- The worker exits, and the owner takes everything down. -/
def deallocRun : List (OwnedAction Unit Unit) :=
  stoppedRun ++ [.owner true, .owner true, .pool (.worker 0), .owner true, .owner true, .owner true,
    .owner true, .owner true, .owner true, .owner true, .owner true]

theorem deallocRun_isSome : (run ownedStep Orderly deallocRun ownedOne).isSome = true := by
  decide +kernel

def deallocatedState : OwnedPool Unit Unit :=
  (run ownedStep Orderly deallocRun ownedOne).get deallocRun_isSome

/-- Of the two records the one that was still queued is freed. -/
theorem dealloc_frees_deallocRun :
    deallocatedState.pool.allocated = 2 ∧ deallocatedState.freed = [1]
      ∧ ∀ t, t ∈ deallocatedState.freed ↔ t < deallocatedState.pool.allocated
        ∧ (deallocatedState.pool.heap t).completed = false :=
  ⟨by decide +kernel, by decide +kernel,
    (dealloc_frees ⟨1, 1, rfl⟩ (reaches_get deallocRun_isSome) (by decide +kernel)).2.2.2.2.2⟩

end CWebServer.WorkerThreadPool
