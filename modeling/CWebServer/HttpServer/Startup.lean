import CWebServer.HttpServer.Lifecycle

/-!
# HttpServer — Startup and Teardown

A connection that comes in while `http_server_init` still runs is handled with
fields that are not initialised. If the callback does not get to its lock
before the last of them is set, no thread uses a field too early or too late:
until then nothing is enqueued, and both kinds of threads are joined before
what they use is destroyed.
-/

namespace CWebServer.HttpServer

open CWebServer.WorkerThreadPool CWebServer.Runs

/-! ## Before the first task -/

/-- The places of a worker without a task. -/
def resting : WorkerPc → Bool
  | .loop | .checkPending | .waiting | .woken _ | .relock _ | .exited => true
  | _ => false

/-- Nothing has been enqueued. -/
structure Resting (s : PoolState Unit DataAddr) : Prop where
  calls : ∀ c, (s.calls c).pc = .idle
  pending : s.taskPendingLen = 0
  threads : ∀ x ∈ s.threads, resting x.pc = true

theorem Resting.setThread {s : PoolState Unit DataAddr} (h : Resting s) (w : Nat)
    {y : WorkerThreadPoolContext} (hy : resting y.pc = true) : Resting (s.setThread w y) := by
  refine ⟨h.calls, h.pending, ?_⟩
  intro x hx
  rcases List.mem_or_eq_of_mem_set hx with hx | rfl
  · exact h.threads x hx
  · exact hy

theorem Resting.tokens {s : PoolState Unit DataAddr} (h : Resting s) (n : Nat) :
    Resting { s with tasksSemaphore := n } :=
  ⟨h.calls, h.pending, h.threads⟩

/-- The workers do nothing to an empty queue. -/
theorem Resting.transition {s s' : PoolState Unit DataAddr} (h : Resting s)
    {a : WorkerThreadPool.Action Unit DataAddr} (ht : WorkerThreadPool.Transition s a s')
    (ha : ∀ c args i, a ≠ .enqueue c args i) : Resting s' := by
  have hrest : ∀ {w : Nat} {x : WorkerThreadPoolContext}, s.threads[w]? = some x →
      resting x.pc = true := fun hw => h.threads _ (List.mem_of_getElem? hw)
  cases ht with
  | reject => exact absurd rfl (ha _ _ _)
  | link => exact absurd rfl (ha _ _ _)
  | postReturn hpc | postWait hpc | waitForever hpc | waitTimed hpc | settleCompleted hpc
  | settlePosted hpc | settleTimeout hpc | settleError hpc => simp [h.calls] at hpc
  | silent hw hsilent =>
      apply h.setThread
      have hx := hrest hw
      cases hsilent <;> simp_all [resting]
  | dequeue hw hpc hlen => exact absurd h.pending hlen
  | start hw hpc | store hw hpc | giveBack hw hpc | complete hw hpc | callbackReturn hw hpc =>
      have hx := hrest hw
      simp [hpc, resting] at hx
  | wake hw hpc hends => exact (h.tokens _).setThread _ rfl
  | stop hw =>
      have hx := hrest hw
      exact h.setThread _ hx
  | stopPost => exact h.tokens _

/-- No callback has got past its lock. -/
structure Quiet (s : ServerState) : Prop where
  acceptor : s.acceptor = .idle ∨ ∃ c fd, s.acceptor = .accepted c fd
  handlers : ∀ w, s.handlers w = none
  pool : Resting s.pool

theorem Quiet.finalizing {s : ServerState} (h : Quiet s) (p : Party) : s.finalizing p = none := by
  cases p with
  | acceptor =>
      rcases h.acceptor with hidle | ⟨c, fd, haccepted⟩ <;> simp [ServerState.finalizing, *]
  | worker w => simp [ServerState.finalizing, h.handlers]

/-- Without a lock it stays so. -/
theorem Quiet.step {s s' : ServerState} (h : Quiet s) {a : Action} (hs : step s a = some s')
    (ha : ∀ ok, a ≠ .lock ok) : Quiet s' := by
  have hacceptor : ∀ {pc : AcceptPc}, s.acceptor = pc →
    pc = .idle ∨ ∃ c fd, pc = .accepted c fd :=
    fun hpc => hpc ▸ h.acceptor
  have ht := step_transition hs
  cases ht with
  | accept hidle hfd => exact ⟨.inr ⟨_, _, rfl⟩, h.handlers, h.pool⟩
  | takePooled | takeNew | lockFailed => exact absurd rfl (ha _)
  | closeSocket hpc | fill hpc | enqueue hpc | enqueued hpc | refused hpc | acceptorDone hpc =>
      have := hacceptor hpc
      simp at this
  | pool honly hpool =>
      refine ⟨h.acceptor, h.handlers, h.pool.transition hpool ?_⟩
      rintro c args i rfl
      simp [poolOnly] at honly
  | startTask hw hpc =>
      have hrest := h.pool.threads _ (List.mem_of_getElem? hw)
      simp [hpc, resting] at hrest
  | read hw | parsed hw | parseError hw | handled hw | taskReturn hw => simp [h.handlers] at hw
  | finalize hp => simp [h.finalizing] at hp

/-! ## The invariant -/

/-- The callback gets to its lock only after the last assignment of
`http_server_init`. -/
def LocksInitialised (s : LifecycleState) : LifecycleAction → Prop
  | .server (.lock _) => s.main.initialised = true
  | _ => True

instance (s : LifecycleState) : (a : LifecycleAction) → Decidable (LocksInitialised s a)
  | .server (.lock _) => inferInstanceAs (Decidable (s.main.initialised = true))
  | .main _ | .testRunning | .noConnection | .connection _ | .callbackReturn => isTrue trivial
  | .server (.accept _) | .server .acceptor | .server (.enqueue _) | .server (.pool _)
  | .server (.startTask _) | .server (.read _) | .server (.parsed _ _) | .server (.handled _ _ _)
  | .server (.finalize _ _) | .server (.taskReturn _) => isTrue trivial

structure LifecycleInv (s : LifecycleState) : Prop where
  misused : s.misused = none
  ready : ∀ f, s.main.ready f = true → s.phases f = .ready
  idle : s.thread ≠ .calling → s.server.acceptor = .idle
  noAcceptor : s.main.noAcceptor = true → s.thread = .notStarted ∨ s.thread = .exited
  noWorker : ∀ w, s.main.noWorker w = true → s.server.pool.Gone w
  count : s.server.pool.threads.length ≤ s.numThreads.toNat
  created : ∀ i, s.main = .createThread i → s.server.pool.threads.length = i
  quiet : s.main.initialised = false → Quiet s.server

theorem lifecycleInv_beforeInit (numThreads queueSize : Int) (timeout : UInt64) :
    LifecycleInv (beforeInit numThreads queueSize timeout) where
  misused := rfl
  ready f h := by cases f <;> simp [beforeInit] at h
  idle _ := rfl
  noAcceptor _ := .inl rfl
  noWorker w _ x hx := by simp [beforeInit] at hx
  count := Nat.zero_le _
  created i h := by simp [beforeInit] at h
  quiet _ := ⟨.inl rfl, fun _ => rfl, fun _ => rfl, rfl, by simp [beforeInit]⟩

section

variable {s s' : LifecycleState}

/-- A step that uses fields which are ready is taken. -/
theorem LifecycleState.using_ready {fields : List Field}
    (h : ∀ f ∈ fields, s.phases f = .ready) : s.using fields s' = s' := by
  have hfind : (fields.find? fun f => decide (s.phases f ≠ .ready)) = none := by
    apply List.find?_eq_none.mpr
    intro f hf
    simp [h f hf]
  rw [LifecycleState.using, hfind]

/-- A thread that takes a step has not been joined. -/
theorem LifecycleInv.noAcceptor_of_alive (h : LifecycleInv s) (halive : s.alive .acceptor = true) :
    s.main.noAcceptor = false := by
  have hcalling : s.thread = .calling := by simpa [LifecycleState.alive] using halive
  cases hmain : s.main.noAcceptor with
  | false => rfl
  | true =>
      have := h.noAcceptor hmain
      simp [hcalling] at this

theorem LifecycleInv.noWorker_of_alive (h : LifecycleInv s) {w : Nat}
    (halive : s.alive (.worker w) = true) : s.main.noWorker w = false := by
  cases hmain : s.main.noWorker w with
  | false => rfl
  | true =>
      have hgone := h.noWorker w hmain
      simp only [LifecycleState.alive, Option.any_eq_true, decide_eq_true_eq] at halive
      obtain ⟨x, hx, hpc⟩ := halive
      exact absurd (hgone x hx) hpc

/-- A thread of an initialised server finds every field ready. -/
theorem LifecycleInv.ready_of_alive (h : LifecycleInv s) (hinit : s.main.initialised = true)
    {p : Party} (halive : s.alive p = true) (f : Field) : s.phases f = .ready := by
  cases p with
  | acceptor => exact h.ready f (MainPc.ready_of_acceptor hinit (h.noAcceptor_of_alive halive) f)
  | worker w => exact h.ready f (MainPc.ready_of_worker hinit (h.noWorker_of_alive halive) f)

/-- A worker always finds the pool ready. -/
theorem LifecycleInv.pool_ready_of_alive (h : LifecycleInv s) {w : Nat}
    (halive : s.alive (.worker w) = true) : s.phases .threadPool = .ready :=
  h.ready .threadPool (MainPc.hasPool_of_worker (h.noWorker_of_alive halive))

/-- The acceptor does not call the pool before the server is initialised. -/
theorem LifecycleInv.initialised_of_call (h : LifecycleInv s) {a : Action} {server : ServerState}
    (hstep : step s.server a = some server)
    (ha : (∃ i, a = .enqueue i) ∨ ∃ c, a = .pool (.post c) ∨ (∃ e, a = .pool (.wait c e))
      ∨ a = .pool (.settle c)) : s.main.initialised = true := by
  cases hinit : s.main.initialised with
  | true => rfl
  | false =>
      have hquiet := h.quiet hinit
      have ht := step_transition hstep
      rcases ha with ⟨i, rfl⟩ | ⟨c, rfl | ⟨e, rfl⟩ | rfl⟩
      · cases ht with
        | enqueue hpc =>
            have hacceptor := hquiet.acceptor
            simp [hpc] at hacceptor
      all_goals
        cases ht with
        | pool honly hpool => cases hpool <;> simp_all [hquiet.pool.calls]

/-- **What a step of the server uses is ready**: the thread that takes it
still exists, and before the last assignment it uses the pool only. -/
theorem LifecycleInv.uses_ready (h : LifecycleInv s) {a : Action} {server : ServerState}
    {p : Party} (hactor : actor a = some p) (halive : s.alive p = true)
    (hstep : step s.server a = some server)
    (hlock : ∀ ok, a = .lock ok → s.main.initialised = true) :
    ∀ f ∈ uses s.server a, s.phases f = .ready := by
  intro f hf
  cases a with
  | accept fd | acceptor | read w | parsed w ok | handled w ok status => simp [uses] at hf
  | lock ok => exact h.ready_of_alive (hlock ok rfl) halive f
  | enqueue i => exact h.ready_of_alive (h.initialised_of_call hstep (.inl ⟨i, rfl⟩)) halive f
  | startTask w | taskReturn w =>
      obtain rfl := List.mem_singleton.mp hf
      cases hactor
      exact h.pool_ready_of_alive halive
  | pool a =>
      obtain rfl := List.mem_singleton.mp hf
      cases a with
      | worker w | wake w e =>
          cases hactor
          exact h.pool_ready_of_alive halive
      | post c =>
          exact h.ready_of_alive (h.initialised_of_call hstep (.inr ⟨c, .inl rfl⟩)) halive _
      | wait c e =>
          exact h.ready_of_alive
            (h.initialised_of_call hstep (.inr ⟨c, .inr (.inl ⟨e, rfl⟩)⟩)) halive _
      | settle c =>
          exact h.ready_of_alive
            (h.initialised_of_call hstep (.inr ⟨c, .inr (.inr rfl)⟩)) halive _
      | enqueue | callbackReturn | stop | stopPost => simp [actor] at hactor
  | finalize p ok =>
      cases hactor
      cases hinit : s.main.initialised with
      | true => exact h.ready_of_alive hinit halive f
      | false => simp [uses, (h.quiet hinit).finalizing] at hf

/-! ## The steps -/

/-- The pool of a server changes by its own steps only. -/
theorem Transition.pool_eq {s s' : ServerState} {a : Action} (ht : Transition s a s') :
    s'.pool = s.pool ∨ ∃ a, WorkerThreadPool.Transition s.pool a s'.pool := by
  cases ht with
  | enqueue hpc hpool => exact .inr ⟨_, hpool⟩
  | pool honly hpool => exact .inr ⟨_, hpool⟩
  | startTask hw hpc hdata hpool => exact .inr ⟨_, hpool⟩
  | taskReturn hw hpool => exact .inr ⟨_, hpool⟩
  | finalize hp hfin =>
      rename_i p c t pc ok s₁ pc'
      have hset : (s₁.setFinalize p c t pc').pool = s₁.pool := by cases p <;> rfl
      rw [hset]
      cases hfin <;> exact .inl rfl
  | accept | takePooled | takeNew | lockFailed | closeSocket | fill | enqueued | refused
  | acceptorDone | read | parsed | parseError | handled => exact .inl rfl

/-- A worker leaves the acceptor where it is. -/
theorem Transition.acceptor_eq {s s' : ServerState} {a : Action} {w : Nat}
    (ht : Transition s a s') (hactor : actor a = some (.worker w)) : s'.acceptor = s.acceptor := by
  cases ht with
  | finalize hp hfin =>
      cases hactor
      cases hfin <;> rfl
  | accept | takePooled | takeNew | lockFailed | closeSocket | fill | enqueue | enqueued | refused
  | acceptorDone => simp [actor] at hactor
  | pool | startTask | read | parsed | parseError | handled | taskReturn => rfl

/-- A step of the server keeps the invariant. -/
theorem LifecycleInv.server (h : LifecycleInv s) {a : Action} {server : ServerState}
    {thread : AcceptorThread} (hstep : step s.server a = some server)
    (hlock : ∀ ok, a = .lock ok → s.main.initialised = true)
    (hidle : thread ≠ .calling → server.acceptor = .idle)
    (hthread : s.main.noAcceptor = true → thread = .notStarted ∨ thread = .exited) :
    LifecycleInv { s with server := server, thread := thread } := by
  have hpool := (step_transition hstep).pool_eq
  have hlength : server.pool.threads.length = s.server.pool.threads.length := by
    rcases hpool with heq | ⟨a, ht⟩
    · rw [heq]
    · exact ht.length_threads
  refine
    { misused := h.misused
      ready := h.ready
      idle := hidle
      noAcceptor := hthread
      noWorker := ?_
      count := hlength ▸ h.count
      created := fun i hi => hlength ▸ h.created i hi
      quiet := ?_ }
  · intro w hw
    rcases hpool with heq | ⟨a, ht⟩
    · exact fun x hx => h.noWorker w hw x (heq ▸ hx)
    · exact ht.gone (h.noWorker w hw)
  · intro hinit
    apply (h.quiet hinit).step hstep
    intro ok ha
    exact absurd (hinit.symm.trans (hlock ok ha)) Bool.false_ne_true

/-- The acceptor's thread goes on in its loop. -/
theorem LifecycleInv.setThread (h : LifecycleInv s) (hstarted : s.thread ≠ .notStarted)
    (hruns : s.thread ≠ .exited) (hidle : s.server.acceptor = .idle) (thread : AcceptorThread) :
    LifecycleInv { s with thread := thread } := by
  refine { h with idle := fun _ => hidle, noAcceptor := ?_ }
  intro hmain
  exact absurd (h.noAcceptor hmain) (not_or_intro hstarted hruns)

/-- The main thread goes on to `pc`. -/
theorem LifecycleInv.move (h : LifecycleInv s) {pc : MainPc} {phases : Field → Phase}
    {running : Bool} {server : ServerState}
    (hready : ∀ f, pc.ready f = true → phases f = .ready)
    (hidle : server.acceptor = s.server.acceptor)
    (hacceptor : pc.noAcceptor = true → s.main.noAcceptor = true ∨ s.thread = .exited)
    (hworker : ∀ w, pc.noWorker w = true → server.pool.Gone w)
    (hcount : server.pool.threads.length ≤ s.numThreads.toNat)
    (hcreated : ∀ i, pc = .createThread i → server.pool.threads.length = i)
    (hquiet : pc.initialised = false → Quiet server) :
    LifecycleInv { s with main := pc, phases := phases, running := running, server := server } where
  misused := h.misused
  ready := hready
  idle hthread := hidle.trans (h.idle hthread)
  noAcceptor hpc := (hacceptor hpc).elim h.noAcceptor .inr
  noWorker := hworker
  count := hcount
  created := hcreated
  quiet := hquiet

/-- It goes on and does nothing else to what the threads share. -/
theorem LifecycleInv.goto (h : LifecycleInv s) {pc : MainPc} (running : Bool)
    (hready : ∀ f, pc.ready f = true → s.main.ready f = true)
    (hacceptor : pc.noAcceptor = true → s.main.noAcceptor = true ∨ s.thread = .exited)
    (hworker : ∀ w, pc.noWorker w = true → s.server.pool.Gone w)
    (hcreated : ∀ i, pc ≠ .createThread i)
    (hinit : pc.initialised = false → s.main.initialised = false) :
    LifecycleInv { s with main := pc, running := running } :=
  h.move (fun f hf => h.ready f (hready f hf)) rfl hacceptor hworker h.count
    (fun i hi => absurd hi (hcreated i)) fun hpc => h.quiet (hinit hpc)

/-- The main thread needs nothing at `q` that it did not need at `p`. -/
structure MainPc.Goes (p q : MainPc) : Prop where
  hasPool : q.hasPool = true → p.hasPool = true
  hasMutex : q.hasMutex = true → p.hasMutex = true
  initialised : q.initialised = p.initialised
  clearTaskPool : q ≠ .clearTaskPool
  noAcceptor : q.noAcceptor = true → p.noAcceptor = true
  noWorker : ∀ w, q.noWorker w = true → p.noWorker w = true
  createThread : ∀ i, q ≠ .createThread i

theorem MainPc.Goes.ready {p q : MainPc} (h : p.Goes q) {f : Field} (hf : q.ready f = true) :
    p.ready f = true := by
  have hinit := h.initialised
  cases f with
  | threadPool => exact h.hasPool hf
  | taskPoolMutex => exact h.hasMutex hf
  | taskPoolLen =>
      have hlen : q.initialised = true := by simpa [MainPc.ready, h.clearTaskPool] using hf
      simp only [MainPc.ready, ← hinit, hlen, Bool.true_or]
  | taskPool => exact hinit.symm.trans hf

theorem LifecycleInv.goes (h : LifecycleInv s) {p q : MainPc} (hp : s.main = p) (hq : p.Goes q)
    (running : Bool) : LifecycleInv { s with main := q, running := running } := by
  subst hp
  exact h.goto running (fun f => hq.ready) (fun hpc => .inl (hq.noAcceptor hpc))
    (fun w hw => h.noWorker w (hq.noWorker w hw)) hq.createThread fun hinit =>
      hq.initialised.symm.trans hinit

/-- The threads find at `q` what they found at `p`. -/
structure MainPc.Keeps (p q : MainPc) : Prop where
  initialised : q.initialised = false → p.initialised = false
  noAcceptor : q.noAcceptor = true → p.noAcceptor = true
  noWorker : ∀ w, q.noWorker w = true → p.noWorker w = true
  createThread : ∀ i, q ≠ .createThread i

/-- The main thread goes on and initialises a field, or destroys it. -/
theorem LifecycleInv.setPhase (h : LifecycleInv s) {p q : MainPc} (hp : s.main = p)
    (hq : p.Keeps q) (f : Field) (phase : Phase)
    (hready : ∀ g, q.ready g = true → if g = f then phase = .ready else p.ready g = true) :
    LifecycleInv { s.setPhase f phase with main := q } := by
  subst hp
  refine h.move ?_ rfl (fun hpc => .inl (hq.noAcceptor hpc))
    (fun w hw => h.noWorker w (hq.noWorker w hw)) h.count
    (fun i hi => absurd hi (hq.createThread i)) fun hpc => h.quiet (hq.initialised hpc)
  intro g hg
  have hgready := hready g hg
  by_cases hgf : g = f
  · subst hgf
    rw [if_pos rfl] at hgready
    exact (Function.update_self g phase s.phases).trans hgready
  · rw [if_neg hgf] at hgready
    exact (Function.update_of_ne hgf phase s.phases).trans (h.ready g hgready)

/-- The main thread changes what is pooled of tasks. -/
theorem LifecycleInv.setTaskPool (h : LifecycleInv s) {server : ServerState}
    (hacceptor : server.acceptor = s.server.acceptor) (hpool : server.pool = s.server.pool)
    (hhandlers : server.handlers = s.server.handlers) :
    LifecycleInv { s with server := server } := by
  refine { h with idle := ?_, noWorker := ?_, count := ?_, created := ?_, quiet := ?_ }
  · exact fun hthread => hacceptor.trans (h.idle hthread)
  · intro w hw
    rw [hpool]
    exact h.noWorker w hw
  · rw [hpool]
    exact h.count
  · intro i hi
    rw [hpool]
    exact h.created i hi
  · intro hinit
    obtain ⟨hquiet, hnone, hresting⟩ := h.quiet hinit
    rw [← hacceptor] at hquiet
    rw [← hhandlers] at hnone
    rw [← hpool] at hresting
    exact ⟨hquiet, hnone, hresting⟩

theorem Quiet.setPool {s : ServerState} (h : Quiet s) {pool : PoolState Unit DataAddr}
    (hpool : Resting pool) : Quiet { s with pool := pool } :=
  ⟨h.acceptor, h.handlers, hpool⟩

theorem resting_empty (n : Nat) : Resting { maxQueueSize := n, threads := [] } :=
  ⟨fun _ => rfl, rfl, by simp⟩

theorem Resting.addThread {s : PoolState Unit DataAddr} (h : Resting s) :
    Resting { s with threads := s.threads ++ [{}] } := by
  refine ⟨h.calls, h.pending, ?_⟩
  intro x hx
  rcases List.mem_append.mp hx with hx | hx
  · exact h.threads x hx
  · rw [List.mem_singleton.mp hx]
    rfl

theorem Resting.stop {s : PoolState Unit DataAddr} (h : Resting s) (i : Nat) :
    Resting ((WorkerThreadPool.step s (.stop i)).getD s) := by
  cases hs : WorkerThreadPool.step s (.stop i) with
  | none => exact h
  | some s' => exact h.transition (WorkerThreadPool.step_transition hs) (by simp)

theorem length_threads_stop (s : PoolState Unit DataAddr) (i : Nat) :
    ((WorkerThreadPool.step s (.stop i)).getD s).threads.length = s.threads.length := by
  cases hs : WorkerThreadPool.step s (.stop i) with
  | none => rfl
  | some s' => exact (WorkerThreadPool.step_transition hs).length_threads

/-- The main thread changes the pool, in which each worker may still be. -/
theorem LifecycleInv.setPool (h : LifecycleInv s) {p q : MainPc} (hp : s.main = p)
    (hq : p.Keeps q) (hworker : ∀ w, q.noWorker w = false)
    (hready : ∀ f, q.ready f = true → p.ready f = true) {pool : PoolState Unit DataAddr}
    (hlength : pool.threads.length = s.server.pool.threads.length)
    (hresting : Resting s.server.pool → Resting pool) :
    LifecycleInv { s.setPool pool with main := q } := by
  subst hp
  refine h.move (fun f hf => h.ready f (hready f hf)) rfl (fun hpc => .inl (hq.noAcceptor hpc))
    ?_ (hlength ▸ h.count) (fun i hi => absurd hi (hq.createThread i)) ?_
  · intro w hw
    rw [hworker w] at hw
    cases hw
  · intro hpc
    have hquiet := h.quiet (hq.initialised hpc)
    exact hquiet.setPool (hresting hquiet.pool)

/-- The `i`th worker can be joined. -/
theorem gone_of_joinable {i : Nat} (h : s.joinable i = true) : s.server.pool.Gone i := by
  intro x hx
  simpa [LifecycleState.joinable, hx] using h

theorem LifecycleInv.acceptorCreated (h : LifecycleInv s) (hmain : s.main = .socketInit) :
    LifecycleInv { s with running := true, thread := .testing, main := .poolInit } := by
  have hquiet : Quiet s.server := h.quiet (by rw [hmain]; rfl)
  have hthread : s.thread ≠ .calling := by
    rcases h.noAcceptor (by rw [hmain]; rfl) with hthread | hthread <;> simp [hthread]
  exact
    { misused := h.misused
      ready := by simp
      idle := fun _ => h.idle hthread
      noAcceptor := by simp
      noWorker := fun w _ => h.noWorker w (by rw [hmain]; rfl)
      count := h.count
      created := by simp
      quiet := fun _ => hquiet }

theorem LifecycleInv.poolCreated (h : LifecycleInv s) (hmain : s.main = .poolInit) (n : Nat) :
    LifecycleInv { (s.setPool { maxQueueSize := n, threads := [] }).setPhase .threadPool .ready with
      main := .createThread 0 } := by
  have hquiet : Quiet s.server := h.quiet (by rw [hmain]; rfl)
  apply h.move
  · simp
  · rfl
  · simp
  · simp
  · exact Nat.zero_le _
  · intro i hi
    cases hi
    rfl
  · exact fun _ => hquiet.setPool (resting_empty _)

theorem LifecycleInv.workerCreated (h : LifecycleInv s) {i : Nat} (hmain : s.main = .createThread i)
    (hi : i < s.numThreads.toNat) :
    LifecycleInv { s.setPool { s.server.pool with threads := s.server.pool.threads ++ [{}] } with
      main := .createThread (i + 1) } := by
  have hquiet : Quiet s.server := h.quiet (by rw [hmain]; rfl)
  have hlength : (s.server.pool.threads ++ [({} : WorkerThreadPoolContext)]).length = i + 1 := by
    rw [List.length_append, h.created i hmain]
    rfl
  apply h.move
  · exact fun f hf => h.ready f (by simpa [hmain] using hf)
  · rfl
  · simp
  · simp
  · exact hlength ▸ hi
  · intro j hj
    cases hj
    exact hlength
  · exact fun _ => hquiet.setPool hquiet.pool.addThread

theorem LifecycleInv.acceptorJoined (h : LifecycleInv s) {t : Teardown}
    (hmain : s.main = .joinAcceptor t) (hexited : s.thread = .exited) :
    LifecycleInv { s with main := if t = .noPool then .initFailed else .stopWorker t 0 } := by
  by_cases ht : t = .noPool
  · rw [if_pos ht]
    exact h.goto _ (by simp) (fun _ => .inr hexited)
      (fun w _ => h.noWorker w (by simp [hmain, ht])) (by simp) (by simp [hmain, ht])
  · rw [if_neg ht]
    exact h.goto _ (by simp [hmain, ht]) (fun _ => .inr hexited) (by simp) (by simp)
      (by simp [hmain])

theorem LifecycleInv.workerJoined (h : LifecycleInv s) {t : Teardown} {i : Nat}
    (hmain : s.main = .joinWorker t i) (hjoinable : s.joinable i = true) :
    LifecycleInv { s with main := .joinWorker t (i + 1) } := by
  have hgone : ∀ w, w < i + 1 → s.server.pool.Gone w := by
    intro w hw
    rcases Nat.lt_succ_iff_lt_or_eq.mp hw with hlt | rfl
    · exact h.noWorker w (by simp [hmain, hlt])
    · exact gone_of_joinable hjoinable
  exact h.goto _ (by simp [hmain]) (fun hjoined => .inl (by simpa [hmain] using hjoined))
    (fun w hw => hgone w (by simpa using hw)) (by simp) (by simp [hmain])

/-- There is no worker beyond those that were joined. -/
theorem LifecycleInv.allJoined (h : LifecycleInv s) {t : Teardown} {i : Nat}
    (hmain : s.main = .joinWorker t i) (hi : s.numThreads.toNat ≤ i) :
    LifecycleInv { s with main := .destroyPool t } := by
  have hgone : ∀ w, s.server.pool.Gone w := by
    intro w x hx
    have hw := (List.getElem?_eq_some_iff.mp hx).1
    have hcount := h.count
    have hlt : w < i := by omega
    exact h.noWorker w (by simp [hmain, hlt]) x hx
  exact h.goto _ (by simp [hmain]) (fun hjoined => .inl (by simpa [hmain] using hjoined))
    (fun w _ => hgone w) (by simp) (by simp [hmain])

/-- **A step of the main thread** keeps it. -/
theorem LifecycleInv.mainStep (h : LifecycleInv s) {ok : Bool} (hs : s.mainStep ok = some s') :
    LifecycleInv s' := by
  cases hmain : s.main with
  | socketInit =>
      simp only [LifecycleState.mainStep, hmain] at hs
      split at hs
      · cases hs
        exact h.acceptorCreated hmain
      · cases hs
        exact h.goes hmain (by constructor <;> simp) _
  | poolInit =>
      simp only [LifecycleState.mainStep, hmain] at hs
      split at hs
      · cases hs
        exact h.poolCreated hmain _
      · cases hs
        exact h.goes hmain (by constructor <;> simp) _
  | createThread i =>
      simp only [LifecycleState.mainStep, hmain] at hs
      split at hs
      · cases hs
        exact h.goes hmain (by constructor <;> simp) _
      · rename_i hi
        split at hs
        · cases hs
          exact h.workerCreated hmain (Nat.not_le.mp hi)
        · cases hs
          exact h.goes hmain (by constructor <;> simp) _
  | mutexInit =>
      simp only [LifecycleState.mainStep, hmain] at hs
      split at hs
      · cases hs
        exact h.setPhase hmain (by constructor <;> simp) .taskPoolMutex .ready (by simp)
      · cases hs
        exact h.goes hmain (by constructor <;> simp) _
  | clearTaskPoolLen =>
      simp only [LifecycleState.mainStep, hmain] at hs
      cases hs
      have hset := h.setPhase hmain (q := .clearTaskPool) (by constructor <;> simp)
        .taskPoolLen .ready (by simp)
      exact hset.setTaskPool rfl rfl rfl
  | clearTaskPool =>
      simp only [LifecycleState.mainStep, hmain] at hs
      cases hs
      have hset := h.setPhase hmain (q := .started) (by constructor <;> simp)
        .taskPool .ready (by simp)
      exact hset.setTaskPool rfl rfl rfl
  | started =>
      simp only [LifecycleState.mainStep, hmain] at hs
      cases hs
      exact h.goes hmain (by constructor <;> simp) _
  | stopSocket t =>
      simp only [LifecycleState.mainStep, hmain] at hs
      cases hs
      exact h.goes hmain (by constructor <;> simp) _
  | joinAcceptor t =>
      simp only [LifecycleState.mainStep, hmain] at hs
      split at hs
      · rename_i hexited
        cases hs
        exact h.acceptorJoined hmain hexited
      · cases hs
  | stopWorker t i =>
      simp only [LifecycleState.mainStep, hmain] at hs
      split at hs
      · cases hs
        exact h.goes hmain (by constructor <;> simp) _
      · cases hs
        exact h.setPool hmain (by constructor <;> simp) (by simp) (by simp)
          (length_threads_stop _ i) fun hresting => hresting.stop i
  | postWorker t i =>
      simp only [LifecycleState.mainStep, hmain] at hs
      split at hs
      · cases hs
        exact h.goes hmain (by constructor <;> simp) _
      · cases hs
        exact h.setPool hmain (by constructor <;> simp) (by simp) (by simp) rfl
          fun hresting => hresting.tokens _
  | joinWorker t i =>
      simp only [LifecycleState.mainStep, hmain] at hs
      split at hs
      · rename_i hi
        cases hs
        exact h.allJoined hmain hi
      · split at hs
        · rename_i hjoinable
          cases hs
          exact h.workerJoined hmain hjoinable
        · cases hs
  | destroyPool t =>
      simp only [LifecycleState.mainStep, hmain] at hs
      cases hs
      cases t with
      | dealloc | poolInitFailed | noPool | mutexInitFailed =>
          exact h.setPhase hmain (by constructor <;> simp) .threadPool .destroyed (by simp)
  | destroyMutex =>
      simp only [LifecycleState.mainStep, hmain] at hs
      cases hs
      exact h.setPhase hmain (by constructor <;> simp) .taskPoolMutex .destroyed (by simp)
  | freeTasks =>
      simp only [LifecycleState.mainStep, hmain] at hs
      cases hs
      have hmoved := h.goes (q := .deallocated) hmain (by constructor <;> simp) s.running
      exact hmoved.setTaskPool rfl rfl rfl
  | initFailed | deallocated => simp [LifecycleState.mainStep, hmain] at hs

/-- **A step of the system** keeps the invariant. -/
theorem LifecycleInv.step (h : LifecycleInv s) {a : LifecycleAction}
    (hok : LocksInitialised s a) (hs : lifecycleStep s a = some s') : LifecycleInv s' := by
  unfold lifecycleStep at hs
  rw [if_neg (by simp [h.misused])] at hs
  cases a with
  | main ok =>
      obtain ⟨s₁, hmain, rfl⟩ := Option.map_eq_some_iff.mp hs
      rw [LifecycleState.using_ready fun f hf => h.ready f (MainPc.ready_of_uses hf)]
      exact h.mainStep hmain
  | testRunning =>
      simp only at hs
      split at hs
      · rename_i hthread
        cases hs
        exact h.setThread (by simp [hthread]) (by simp [hthread]) (h.idle (by simp [hthread])) _
      · cases hs
  | noConnection =>
      simp only at hs
      split at hs
      · rename_i hthread
        cases hs
        exact h.setThread (by simp [hthread]) (by simp [hthread]) (h.idle (by simp [hthread])) _
      · cases hs
  | connection fd =>
      simp only at hs
      split at hs
      · rename_i hthread
        obtain ⟨server, hstep, rfl⟩ := Option.map_eq_some_iff.mp hs
        have hgone := h.noAcceptor
        refine h.server hstep (by simp) (fun hcalling => absurd rfl hcalling) ?_
        intro hmain
        simpa [hthread] using hgone hmain
      · cases hs
  | callbackReturn =>
      simp only at hs
      split at hs
      · rename_i hthread
        cases hs
        exact h.setThread (by simp [hthread.1]) (by simp [hthread.1]) hthread.2 _
      · cases hs
  | server a =>
      simp only at hs
      split at hs
      · rename_i hactor
        obtain ⟨server, hstep, rfl⟩ := Option.map_eq_some_iff.mp hs
        obtain ⟨p, hp, halive⟩ := (Option.any_eq_true _ _).mp hactor
        have hlock : ∀ ok, a = .lock ok → s.main.initialised = true := by
          rintro ok rfl
          exact hok
        rw [LifecycleState.using_ready (h.uses_ready hp halive hstep hlock)]
        refine h.server hstep hlock ?_ h.noAcceptor
        intro hthread
        cases p with
        | acceptor => exact absurd (of_decide_eq_true halive) hthread
        | worker w =>
            rw [(step_transition hstep).acceptor_eq hp]
            exact h.idle hthread
      · cases hs

end

/-! ## Whole runs -/

/-- **No field is used too early or too late** in the runs whose callbacks get
to their locks after the last assignment of `http_server_init`. -/
theorem no_misuse {numThreads queueSize : Int} {timeout : UInt64} {s : LifecycleState}
    (h : Reaches lifecycleStep LocksInitialised (beforeInit numThreads queueSize timeout) s) :
    s.misused = none := by
  have hinv : LifecycleInv s :=
    h.invariant (lifecycleInv_beforeInit numThreads queueSize timeout)
      fun _ _ _ hinv hok hs => hinv.step hok hs
  exact hinv.misused

/-- A server with one worker is started, answers a request that it cannot
parse, and is taken down. -/
def startAndStop : List LifecycleAction :=
  [.main true, .main true, .main true, .main true, .main true, .main true, .main true,
    .testRunning, .connection 3, .server (.lock true), .server .acceptor,
    .server (.enqueue true), .server (.pool (.post 0)), .server .acceptor, .callbackReturn,
    .server (.pool (.worker 0)), .server (.pool (.worker 0)), .server (.startTask 0),
    .server (.parsed 0 false), .server (.finalize (.worker 0) true),
    .server (.finalize (.worker 0) false), .server (.finalize (.worker 0) true),
    .server (.finalize (.worker 0) true), .server (.finalize (.worker 0) true),
    .server (.taskReturn 0), .server (.pool (.worker 0)), .server (.pool (.worker 0)),
    .main true, .main true, .testRunning, .main true, .main true, .main true, .main true,
    .main true, .server (.pool (.worker 0)), .main true, .main true, .main true, .main true,
    .main true]

theorem no_misuse_startAndStop :
    ∃ s, s.main = .deallocated ∧ Reaches lifecycleStep LocksInitialised (beforeInit 1 1 0) s
      ∧ s.misused = none := by
  have hmain : (run lifecycleStep LocksInitialised startAndStop (beforeInit 1 1 0)).map (·.main)
      = some .deallocated := by
    decide +kernel
  obtain ⟨s, hrun, hs⟩ := Option.map_eq_some_iff.mp hmain
  exact ⟨s, hs, run_reaches hrun, no_misuse (run_reaches hrun)⟩

/-- A connection that comes in as soon as the socket is open is handled with a
mutex that is not initialised. -/
theorem misused_early_connection :
    ¬∀ (numThreads queueSize : Int) (timeout : UInt64) (s : LifecycleState),
      Reaches lifecycleStep Always (beforeInit numThreads queueSize timeout) s →
        s.misused = none := by
  intro h
  have hrun : run lifecycleStep Always
      [.main true, .testRunning, .connection 3, .server (.lock true)] (beforeInit 1 1 0)
      = some _ := rfl
  have hnone := h _ _ _ _ (run_reaches hrun)
  cases hnone

end CWebServer.HttpServer
