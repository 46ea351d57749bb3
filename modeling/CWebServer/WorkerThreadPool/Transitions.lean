import CWebServer.WorkerThreadPool.Lists

/-!
# WorkerThreadPool — Transitions

What one step can do, said once. `Transition s a s'` has one constructor for
each way through the code, with the guards that lead there and the state it
leaves; `step_transition` is the inversion lemma. The invariants go by cases
on it and never unfold `step`.
-/

namespace CWebServer.WorkerThreadPool

variable {κ δ : Type}

/-- The moves of a worker that change nothing but its program counter. -/
inductive Silent (s : PoolState κ δ) (x : WorkerThreadPoolContext) : WorkerPc → Prop
  | again : x.pc = .loop → x.running = true → Silent s x .checkPending
  | sleep : x.pc = .checkPending → s.taskPendingLen = 0 → Silent s x .waiting
  | awake {e} : x.pc = .woken e → x.running = true → Silent s x (.relock e)
  | nothing {e} : x.pc = .relock e → s.taskPendingLen = 0 → Silent s x .loop
  | exit : x.pc = .loop ∨ (∃ e, x.pc = .woken e) → x.running = false → Silent s x .exited
  | noResult {t v} : x.pc = .testResult t v → (s.heap t).result = none → Silent s x (.finish t)
  | result {t v} : x.pc = .testResult t v → (s.heap t).result ≠ none →
      Silent s x (.loadResult t v)
  | load {t v} : x.pc = .loadResult t v →
      Silent s x (.storeResult t v (s.heap t).result)

inductive Transition (s : PoolState κ δ) : Action κ δ → PoolState κ δ → Prop
  | reject {c a i e} :
      (s.calls c).pc = .idle →
      e = workerThreadPoolError ∨ e = workerThreadPoolErrorQueueFull →
      Transition s (.enqueue c a i) ((s.beginCall c a).returnCall c e)
  | link {c a i t s₁ s₂} :
      (s.calls c).pc = .idle → a.callback ≠ none → s.taskPendingLen < s.maxQueueSize →
      (s.beginCall c a).acquireTask i = .task t s₁ →
      (s₁.fillTask t c a).appendPending t = some s₂ →
      Transition s (.enqueue c a i) ((s₂.setCall c (.linked t)).record (.linked c))
  | postReturn {c t} :
      (s.calls c).pc = .linked t → (s.calls c).args.timeout = 0 →
      Transition s (.post c)
        (({ s with tasksSemaphore := s.tasksSemaphore + 1 }).returnCall c
          workerThreadPoolSuccess)
  | postWait {c t} :
      (s.calls c).pc = .linked t → (s.calls c).args.timeout ≠ 0 →
      Transition s (.post c)
        (({ s with tasksSemaphore := s.tasksSemaphore + 1 }).setCall c (.waiting t))
  | waitForever {c t e} :
      (s.calls c).pc = .waiting t → (s.calls c).args.timeout = -1 →
      waitEnds (s.heap t).semaphore false e = true →
      Transition s (.wait c e)
        ((s.setTask t { s.heap t with semaphore := tokensAfter (s.heap t).semaphore e }).returnCall
          c workerThreadPoolSuccess)
  | waitTimed {c t e} :
      (s.calls c).pc = .waiting t → (s.calls c).args.timeout ≠ -1 →
      waitEnds (s.heap t).semaphore true e = true →
      Transition s (.wait c e)
        ((s.setTask t { s.heap t with semaphore := tokensAfter (s.heap t).semaphore e }).setCall
          c (.waited t e))
  | settleCompleted {c t e} :
      (s.calls c).pc = .waited t e → (s.heap t).completed = true →
      Transition s (.settle c) (s.returnCall c workerThreadPoolSuccess)
  | settlePosted {c t} :
      (s.calls c).pc = .waited t .posted → (s.heap t).completed = false →
      Transition s (.settle c) ((s.pushTaskPool t).returnCall c workerThreadPoolSuccess)
  | settleTimeout {c t} :
      (s.calls c).pc = .waited t .timedOut → (s.heap t).completed = false →
      Transition s (.settle c)
        ((s.setTask t { s.heap t with result := none, timedout := true }).returnCall c
          workerThreadPoolErrorTimeout)
  | settleError {c t} :
      (s.calls c).pc = .waited t .error → (s.heap t).completed = false →
      Transition s (.settle c) ((s.pushTaskPool t).returnCall c workerThreadPoolError)
  | silent {w x p} :
      s.threads[w]? = some x → Silent s x p →
      Transition s (.worker w) (s.setThread w { x with pc := p })
  | dequeue {w x t} :
      s.threads[w]? = some x → x.pc = .checkPending ∨ (∃ e, x.pc = .relock e) →
      s.taskPendingLen ≠ 0 → s.taskPendingFirst = some t →
      Transition s (.worker w) (s.afterDequeue w x t)
  | start {w x t} :
      s.threads[w]? = some x → x.pc = .dequeued t → (s.heap t).callback ≠ none →
      Transition s (.worker w)
        ((s.setThread w { x with pc := .callback t (s.heap t).call }).record
          (.started (s.heap t).call))
  | store {w x t v c} :
      s.threads[w]? = some x → x.pc = .storeResult t v (some c) →
      Transition s (.worker w)
        ((s.setThread w { x with pc := .finish t }).record (.stored c v))
  | giveBack {w x t} :
      s.threads[w]? = some x → x.pc = .finish t → (s.heap t).timedout = true →
      Transition s (.worker w) ((s.pushTaskPool t).setThread w { x with pc := .loop })
  | complete {w x t} :
      s.threads[w]? = some x → x.pc = .finish t → (s.heap t).timedout = false →
      Transition s (.worker w)
        ((s.setTask t { s.heap t with
          completed := true
          semaphore := (s.heap t).semaphore + 1 }).setThread w { x with pc := .loop })
  | wake {w x e} :
      s.threads[w]? = some x → x.pc = .waiting → waitEnds s.tasksSemaphore true e = true →
      Transition s (.wake w e)
        (({ s with tasksSemaphore := tokensAfter s.tasksSemaphore e }).setThread w
          { x with pc := .woken e })
  | callbackReturn {w x t c v} :
      s.threads[w]? = some x → x.pc = .callback t c →
      Transition s (.callbackReturn w v)
        ((s.setThread w { x with pc := .testResult t v }).record (.completed c v))
  | stop {w x} :
      s.threads[w]? = some x → Transition s (.stop w) (s.setThread w { x with running := false })
  | stopPost : Transition s .stopPost { s with tasksSemaphore := s.tasksSemaphore + 1 }

variable {s s' : PoolState κ δ}

/-! ## The inversion -/

theorem enqueueLock_transition {c : CallId} {a : EnqueueArgs κ δ} {i : Bool}
    (hidle : (s.calls c).pc = .idle) (h : s.enqueueLock c a i = some s') :
    Transition s (.enqueue c a i) s' := by
  simp only [PoolState.enqueueLock] at h
  split at h
  · cases h
    exact .reject hidle (.inl rfl)
  · rename_i hcb
    split at h
    · cases h
      exact .reject hidle (.inr rfl)
    · rename_i hlen
      split at h
      · cases h
        exact .reject hidle (.inl rfl)
      · cases h
      · rename_i t s₁ hacq
        obtain ⟨s₂, happ, rfl⟩ := Option.map_eq_some_iff.mp h
        refine .link hidle ?_ (Nat.lt_of_not_le hlen) hacq happ
        intro hnone
        simp [hnone] at hcb

theorem enqueuePost_transition {c : CallId} (h : s.enqueuePost c = some s') :
    Transition s (.post c) s' := by
  simp only [PoolState.enqueuePost] at h
  split at h
  · rename_i t hpc
    split at h
    · rename_i ht
      cases h
      exact .postReturn hpc ht
    · rename_i ht
      cases h
      exact .postWait hpc ht
  · cases h

theorem enqueueWait_transition {c : CallId} {e : WaitResult}
    (h : s.enqueueWait c e = some s') : Transition s (.wait c e) s' := by
  simp only [PoolState.enqueueWait] at h
  split at h
  · rename_i t hpc
    split at h
    · rename_i hends
      split at h
      · rename_i ht
        cases h
        have ht' : (s.calls c).args.timeout = -1 := ht
        exact .waitForever hpc ht' (by simpa [ht'] using hends)
      · rename_i ht
        cases h
        have ht' : (s.calls c).args.timeout ≠ -1 := ht
        exact .waitTimed hpc ht' (by simpa [ht'] using hends)
    · cases h
  · cases h

theorem enqueueSettle_transition {c : CallId} (h : s.enqueueSettle c = some s') :
    Transition s (.settle c) s' := by
  simp only [PoolState.enqueueSettle] at h
  split at h
  · rename_i t e hpc
    split at h
    · rename_i hdone
      cases h
      exact .settleCompleted hpc hdone
    · rename_i hdone
      rw [Bool.not_eq_true] at hdone
      cases e <;> cases h
      · exact .settlePosted hpc hdone
      · exact .settleTimeout hpc hdone
      · exact .settleError hpc hdone
  · cases h

theorem workerStep_transition {w : Nat} {x : WorkerThreadPoolContext}
    (hw : s.threads[w]? = some x) (h : s.workerStep w x = some s') :
    Transition s (.worker w) s' := by
  simp only [PoolState.workerStep] at h
  cases hpc : x.pc with
  | loop =>
      simp only [hpc, Option.some.injEq] at h
      subst h
      by_cases hr : x.running = true
      · rw [if_pos hr]
        exact .silent hw (.again hpc hr)
      · rw [if_neg hr]
        exact .silent hw (.exit (.inl hpc) (by simpa using hr))
  | checkPending =>
      simp only [hpc] at h
      split at h
      · rename_i hlen
        cases h
        exact .silent hw (.sleep hpc hlen)
      · rename_i hlen
        obtain ⟨t, hfirst, rfl⟩ := PoolState.dequeueTask_eq_some h
        exact .dequeue hw (.inl hpc) hlen hfirst
  | waiting => simp [hpc] at h
  | woken e =>
      simp only [hpc, Option.some.injEq] at h
      subst h
      by_cases hr : x.running = true
      · rw [if_pos hr]
        exact .silent hw (.awake hpc hr)
      · rw [if_neg hr]
        exact .silent hw (.exit (.inr ⟨e, hpc⟩) (by simpa using hr))
  | relock e =>
      simp only [hpc] at h
      split at h
      · rename_i hlen
        cases h
        exact .silent hw (.nothing hpc hlen)
      · rename_i hlen
        obtain ⟨t, hfirst, rfl⟩ := PoolState.dequeueTask_eq_some h
        exact .dequeue hw (.inr ⟨e, hpc⟩) hlen hfirst
  | dequeued t =>
      simp only [hpc] at h
      split at h
      · cases h
      · rename_i hcb
        cases h
        exact .start hw hpc (by simpa using hcb)
  | callback t c => simp [hpc] at h
  | testResult t v =>
      simp only [hpc, Option.some.injEq] at h
      subst h
      cases hr : (s.heap t).result with
      | none => exact .silent hw (.noResult hpc hr)
      | some c => exact .silent hw (.result hpc (by simp [hr]))
  | loadResult t v =>
      simp only [hpc, Option.some.injEq] at h
      subst h
      exact .silent hw (.load hpc)
  | storeResult t v l =>
      cases l with
      | none => simp [hpc] at h
      | some c =>
          simp only [hpc, Option.some.injEq] at h
          subst h
          exact .store hw hpc
  | finish t =>
      simp only [hpc] at h
      split at h
      · rename_i ht
        cases h
        exact .giveBack hw hpc ht
      · rename_i ht
        cases h
        exact .complete hw hpc (by simpa using ht)
  | exited => simp [hpc] at h

/-- **The inversion lemma**: every step of the system is one of the
transitions. -/
theorem step_transition {a : Action κ δ} (h : step s a = some s') : Transition s a s' := by
  cases a with
  | enqueue c a i =>
      simp only [step] at h
      split at h
      · rename_i hidle
        exact enqueueLock_transition hidle h
      · cases h
  | post c => exact enqueuePost_transition h
  | wait c e => exact enqueueWait_transition h
  | settle c => exact enqueueSettle_transition h
  | worker w =>
      obtain ⟨x, hw, hx⟩ := Option.bind_eq_some_iff.mp h
      exact workerStep_transition hw hx
  | wake w e =>
      obtain ⟨x, hw, hx⟩ := Option.bind_eq_some_iff.mp h
      simp only [PoolState.workerWake] at hx
      split at hx
      · rename_i hpc
        split at hx
        · rename_i hends
          cases hx
          exact .wake hw hpc hends
        · cases hx
      · cases hx
  | callbackReturn w v =>
      obtain ⟨x, hw, hx⟩ := Option.bind_eq_some_iff.mp h
      simp only [PoolState.workerReturn] at hx
      split at hx
      · rename_i t c hpc
        cases hx
        exact .callbackReturn hw hpc
      · cases hx
  | stop w =>
      obtain ⟨x, hw, rfl⟩ := Option.map_eq_some_iff.mp h
      exact .stop hw
  | stopPost =>
      cases h
      exact .stopPost

/-! ## What linking leaves alone -/

theorem PoolState.acquireTask_frame {i : Bool} {t : Addr} (h : s.acquireTask i = .task t s') :
    s'.calls = s.calls ∧ s'.history = s.history ∧ s'.threads = s.threads
      ∧ s'.tasksSemaphore = s.tasksSemaphore ∧ s'.taskPendingLen = s.taskPendingLen := by
  unfold PoolState.acquireTask at h
  split at h
  · split at h
    · cases h; exact ⟨rfl, rfl, rfl, rfl, rfl⟩
    · cases h
  · split at h
    · cases h
    · cases h; exact ⟨rfl, rfl, rfl, rfl, rfl⟩

theorem PoolState.appendPending_frame {t : Addr} (h : s.appendPending t = some s') :
    s'.calls = s.calls ∧ s'.history = s.history ∧ s'.threads = s.threads
      ∧ s'.tasksSemaphore = s.tasksSemaphore ∧ s'.taskPendingLen = s.taskPendingLen + 1 := by
  unfold PoolState.appendPending at h
  split at h
  · split at h
    · cases h
    · cases h; exact ⟨rfl, rfl, rfl, rfl, rfl⟩
  · cases h; exact ⟨rfl, rfl, rfl, rfl, rfl⟩

/-- Whatever the lists look like, linking a task adds one to the length of
the queue, enters the call and leaves threads and tokens alone. -/
theorem link_frame {c : CallId} {a : EnqueueArgs κ δ} {i : Bool} {t : Addr}
    {s₁ s₂ : PoolState κ δ} (hacq : (s.beginCall c a).acquireTask i = .task t s₁)
    (happ : (s₁.fillTask t c a).appendPending t = some s₂) :
    (s₂.setCall c (.linked t)).calls = Function.update s.calls c ⟨a, .linked t⟩
      ∧ s₂.history = s.history ∧ s₂.threads = s.threads
      ∧ s₂.tasksSemaphore = s.tasksSemaphore
      ∧ s₂.taskPendingLen = s.taskPendingLen + 1 := by
  obtain ⟨hc₁, hh₁, ht₁, hs₁, hl₁⟩ := PoolState.acquireTask_frame hacq
  obtain ⟨hc₂, hh₂, ht₂, hs₂, hl₂⟩ := PoolState.appendPending_frame happ
  refine ⟨?_, hh₂.trans hh₁, ht₂.trans ht₁, hs₂.trans hs₁, ?_⟩
  · have hc : s₂.calls = Function.update s.calls c { args := a } := hc₂.trans hc₁
    simp [PoolState.setCall, hc]
  · rw [hl₂]
    exact congrArg (· + 1) hl₁

theorem PoolState.acquireTask_heap {i : Bool} {t : Addr} (h : s.acquireTask i = .task t s') :
    (∀ t', t' ≠ t → (s'.heap t').body = (s.heap t').body)
      ∧ ((t = s.allocated ∧ s'.allocated = s.allocated + 1)
        ∨ s'.allocated = s.allocated) := by
  unfold PoolState.acquireTask at h
  split at h
  · split at h
    · cases h
      exact ⟨fun t' ht' => by simp [ht'], .inl ⟨rfl, rfl⟩⟩
    · cases h
  · split at h
    · cases h
    · cases h
      exact ⟨fun t' ht' => by simp [ht'], .inr rfl⟩

theorem PoolState.appendPending_heap {t : Addr} (h : s.appendPending t = some s') :
    (∀ t', (s'.heap t').body = (s.heap t').body) ∧ s'.allocated = s.allocated := by
  unfold PoolState.appendPending at h
  split at h
  · split at h
    · cases h
    · rename_i l hl
      cases h
      refine ⟨?_, rfl⟩
      intro t'
      by_cases ht : t' = l
      · subst ht; simp [WorkerThreadPoolTask.body]
      · simp [ht]
  · cases h; exact ⟨fun _ => rfl, rfl⟩

/-- Linking a task fills its record and touches only links elsewhere. -/
theorem link_heap {c : CallId} {a : EnqueueArgs κ δ} {i : Bool} {t : Addr}
    {s₁ s₂ : PoolState κ δ} (hacq : (s.beginCall c a).acquireTask i = .task t s₁)
    (happ : (s₁.fillTask t c a).appendPending t = some s₂) :
    (∀ t', t' ≠ t → (s₂.heap t').body = (s.heap t').body)
      ∧ (s₂.heap t).body = ((s₁.fillTask t c a).heap t).body
      ∧ ((t = s.allocated ∧ s₂.allocated = s.allocated + 1)
        ∨ s₂.allocated = s.allocated) := by
  obtain ⟨hold₁, halloc₁⟩ := PoolState.acquireTask_heap hacq
  obtain ⟨hbody₂, halloc₂⟩ := PoolState.appendPending_heap happ
  refine ⟨?_, hbody₂ t, ?_⟩
  · intro t' ht'
    rw [hbody₂, ← show (s₁.heap t').body = (s.heap t').body from hold₁ t' ht']
    simp [PoolState.fillTask, PoolState.setTask, ht']
  · rw [show s₂.allocated = s₁.allocated from halloc₂]
    exact halloc₁

/-! ## What every step leaves alone -/

/-- The arguments of a call that has been made never change. -/
theorem Transition.args {a : Action κ δ} (ht : Transition s a s') {c : CallId}
    (hc : (s.calls c).pc ≠ .idle) : (s'.calls c).args = (s.calls c).args := by
  cases ht with
  | @reject c' a i e hidle he =>
      have hne : c ≠ c' := fun heq => hc (heq ▸ hidle)
      rw [PoolState.returnCall_args, PoolState.beginCall_args, if_neg hne]
  | @link c' a i t s₁ s₂ hidle hcb hlen hacq happ =>
      obtain ⟨hcalls, -, -, -, -⟩ := link_frame hacq happ
      have hne : c ≠ c' := fun heq => hc (heq ▸ hidle)
      show ((s₂.setCall c' (.linked t)).calls c).args = _
      rw [hcalls, Function.update_of_ne hne]
  | postReturn | postWait | waitForever | waitTimed | settleCompleted | settlePosted
  | settleTimeout | settleError => exact PoolState.setCall_args _ _ _ _
  | silent | dequeue | start | store | giveBack | complete | wake | callbackReturn | stop
  | stopPost => rfl

/-- A step records one event at most. -/
theorem Transition.history {a : Action κ δ} (ht : Transition s a s') :
    s'.history = s.history ∨ ∃ e, s'.history = s.history ++ [e] := by
  cases ht with
  | link hidle hcb hlen hacq happ =>
      obtain ⟨-, hhist, -, -, -⟩ := link_frame hacq happ
      exact .inr ⟨_, congrArg (· ++ [_]) hhist⟩
  | reject | postReturn | waitForever | settleCompleted | settlePosted | settleTimeout
  | settleError | dequeue | start | store | callbackReturn => exact .inr ⟨_, rfl⟩
  | postWait | waitTimed | silent | giveBack | complete | wake | stop | stopPost => exact .inl rfl

theorem Transition.history_prefix {a : Action κ δ} (ht : Transition s a s') :
    s.history <+: s'.history := by
  rcases ht.history with h | ⟨e, h⟩
  · exact ⟨[], by rw [h, List.append_nil]⟩
  · exact ⟨[e], h.symm⟩

/-- A step changes one thread at most, and none that has exited goes on. -/
theorem Transition.threads {a : Action κ δ} (ht : Transition s a s') :
    s'.threads = s.threads ∨ ∃ w x y, s.threads[w]? = some x
      ∧ (x.pc = .exited → y.pc = .exited) ∧ s'.threads = s.threads.set w y := by
  cases ht with
  | link hidle hcb hlen hacq happ =>
      obtain ⟨-, -, hthreads, -, -⟩ := link_frame hacq happ
      exact .inl hthreads
  | reject | postReturn | postWait | waitForever | waitTimed | settleCompleted | settlePosted
  | settleTimeout | settleError | stopPost => exact .inl rfl
  | silent hw hsilent =>
      refine .inr ⟨_, _, _, hw, ?_, rfl⟩
      intro hexited
      cases hsilent <;> simp_all
  | dequeue hw hpc => exact .inr ⟨_, _, _, hw, fun hexited => by simp [hexited] at hpc, rfl⟩
  | start hw hpc | store hw hpc | giveBack hw hpc | complete hw hpc | wake hw hpc
  | callbackReturn hw hpc =>
      exact .inr ⟨_, _, _, hw, fun hexited => by simp [hexited] at hpc, rfl⟩
  | @stop w x hw =>
      exact .inr ⟨w, x, { x with running := false }, hw, fun hexited => hexited, rfl⟩

/-- The thread has exited, or there is none of this number. -/
def PoolState.Gone (s : PoolState κ δ) (w : Nat) : Prop :=
  ∀ x, s.threads[w]? = some x → x.pc = .exited

theorem Transition.length_threads {a : Action κ δ} (ht : Transition s a s') :
    s'.threads.length = s.threads.length := by
  rcases ht.threads with h | ⟨w, x, y, -, -, h⟩
  · rw [h]
  · rw [h, List.length_set]

theorem Transition.gone {a : Action κ δ} (ht : Transition s a s') {w : Nat} (h : s.Gone w) :
    s'.Gone w := by
  rcases ht.threads with hthreads | ⟨w', x, y, hw', hexited, hthreads⟩
  · exact fun z hz => h z (hthreads ▸ hz)
  · intro z hz
    rw [hthreads] at hz
    by_cases hww : w' = w
    · subst hww
      have hlt : w' < s.threads.length := (List.getElem?_eq_some_iff.mp hw').1
      rw [List.getElem?_set_self hlt] at hz
      cases hz
      exact hexited (h x hw')
    · rw [List.getElem?_set_ne hww] at hz
      exact h z hz

@[simp] theorem PoolState.fillTask_heap_self (s : PoolState κ δ) (t : Addr) (c : CallId)
    (a : EnqueueArgs κ δ) :
    (s.fillTask t c a).heap t = { s.heap t with
      callback := a.callback
      data := a.data
      result := if a.callbackResult then some c else none
      timedout := false
      completed := false
      call := c } := by
  simp [fillTask, setTask]

end CWebServer.WorkerThreadPool
