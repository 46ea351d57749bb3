import CWebServer.Lib.Progress
import CWebServer.WorkerThreadPool.Handover
import CWebServer.WorkerThreadPool.Wakeup

/-!
# WorkerThreadPool — Progress

How long a task stands in the queue. Between two tasks a worker goes once
around its loop, which takes a bounded number of its own steps as long as the
queue is not empty; so a task with `k` others before it is dequeued within a
number of worker steps that depends on `k` and the number of workers only,
whatever the enqueuers do in between. The second half says when a worker
cannot step at all.
-/

namespace CWebServer.WorkerThreadPool

open CWebServer.Lib CWebServer.Runs

variable {κ δ : Type} {s s' : PoolState κ δ} {F Q : List Addr}

/-- The worker whose step it is. -/
def Action.worker? : Action κ δ → Option Nat
  | .worker w | .wake w _ | .callbackReturn w _ => some w
  | .enqueue .. | .post _ | .wait .. | .settle _ | .stop _ | .stopPost => none

def Action.isWorker (a : Action κ δ) : Bool := a.worker?.isSome

/-! ## The moves of a worker -/

/-- From `x`, a worker's next program counter. -/
inductive Moves (s : PoolState κ δ) (x : WorkerThreadPoolContext) : WorkerPc → Prop
  | silent {p} : Silent s x p → Moves s x p
  | dequeue {t} : x.pc = .checkPending ∨ (∃ e, x.pc = .relock e) → s.taskPendingLen ≠ 0 →
      Moves s x (.dequeued t)
  | wake {e} : x.pc = .waiting → Moves s x (.woken e)
  | start {t c} : x.pc = .dequeued t → Moves s x (.callback t c)
  | callbackReturn {t c v} : x.pc = .callback t c → Moves s x (.testResult t v)
  | store {t v c} : x.pc = .storeResult t v (some c) → Moves s x (.finish t)
  | finish {t} : x.pc = .finish t → Moves s x .loop

def WorkerPc.isDequeued : WorkerPc → Bool
  | .dequeued _ => true
  | _ => false

/-- From `s` to `s'`, worker `w` moves from `x` to `p`, nobody else moves, and
the only token taken and the only task dequeued are the worker's. -/
structure Moved (s s' : PoolState κ δ) (w : Nat) (x : WorkerThreadPoolContext)
    (p : WorkerPc) : Prop where
  worker : s.threads[w]? = some x
  move : Moves s x p
  threads : s'.threads = s.threads.set w { x with pc := p }
  calls : s'.calls = s.calls
  allocated : s'.allocated = s.allocated
  tokens : s'.tasksSemaphore = s.tasksSemaphore
    ∨ x.pc = .waiting ∧ (∃ e, p = .woken e) ∧ s.tasksSemaphore ≤ s'.tasksSemaphore + 1
  dequeued : (dequeuedCalls s'.history).length
    = (dequeuedCalls s.history).length + (if p.isDequeued then 1 else 0)

/-- **What a worker's step does.** -/
theorem Transition.moves {a : Action κ δ} {w : Nat} (ht : Transition s a s')
    (ha : a.worker? = some w) : ∃ x p, Moved s s' w x p := by
  cases ht with
  | reject | link | postReturn | postWait | waitForever | waitTimed | settleCompleted
  | settlePosted | settleTimeout | settleError | stop | stopPost => cases ha
  | @silent _ x p hw hs =>
      cases ha
      exact ⟨x, p, hw, .silent hs, rfl, rfl, rfl, .inl rfl, by cases hs <;> rfl⟩
  | @dequeue _ x t hw hx hlen =>
      cases ha
      exact ⟨x, .dequeued t, hw, .dequeue hx hlen, rfl, rfl, rfl, .inl rfl,
        by simp [PoolState.afterDequeue, WorkerPc.isDequeued]⟩
  | @wake _ x e hw hx hends =>
      cases ha
      refine ⟨x, .woken e, hw, .wake hx, rfl, rfl, rfl, .inr ⟨hx, ⟨e, rfl⟩, ?_⟩, rfl⟩
      show s.tasksSemaphore ≤ tokensAfter s.tasksSemaphore e + 1
      simp only [tokensAfter]
      split <;> omega
  | @start _ x t hw hx hcb =>
      cases ha
      exact ⟨x, _, hw, .start hx, rfl, rfl, rfl, .inl rfl,
        by simp [PoolState.record, WorkerPc.isDequeued, PoolState.setThread]⟩
  | @callbackReturn _ x t c v hw hx =>
      cases ha
      exact ⟨x, _, hw, .callbackReturn hx, rfl, rfl, rfl, .inl rfl,
        by simp [PoolState.record, WorkerPc.isDequeued, PoolState.setThread]⟩
  | @store _ x t v c hw hx =>
      cases ha
      exact ⟨x, _, hw, .store hx, rfl, rfl, rfl, .inl rfl,
        by simp [PoolState.record, WorkerPc.isDequeued, PoolState.setThread]⟩
  | @giveBack _ x t hw hx htimed | @complete _ x t hw hx htimed =>
      cases ha
      exact ⟨x, .loop, hw, .finish hx, rfl, rfl, rfl, .inl rfl, rfl⟩

/-- Every other step leaves the program counters alone and dequeues
nothing. -/
theorem Transition.idle_workers {a : Action κ δ} (ht : Transition s a s')
    (ha : a.worker? = none) :
    s'.threads.map (·.pc) = s.threads.map (·.pc)
      ∧ dequeuedCalls s'.history = dequeuedCalls s.history := by
  cases ht with
  | silent | dequeue | start | store | giveBack | complete | wake | callbackReturn => cases ha
  | link hidle hcb hlen hacq happ =>
      obtain ⟨-, hhist, hth, -, -⟩ := link_frame hacq happ
      refine ⟨congrArg (List.map _) hth, ?_⟩
      exact (dequeuedCalls_snoc _ _).trans (congrArg dequeuedCalls hhist)
  | reject | postReturn | waitForever | settleCompleted | settlePosted | settleTimeout
  | settleError => exact ⟨rfl, dequeuedCalls_snoc _ _⟩
  | postWait | waitTimed | stopPost => exact ⟨rfl, rfl⟩
  | @stop w x hw =>
      refine ⟨?_, rfl⟩
      obtain ⟨l₁, l₂, hl, hset⟩ := exists_split_of_getElem? hw
      change (s.threads.set w _).map _ = _
      rw [hset, hl]
      simp

/-! ## Dequeueing -/

/-- The steps up to the next dequeue, that one included, while there is
something in the queue. -/
def WorkerPc.stepsToDequeue : WorkerPc → Nat
  | .checkPending | .relock _ => 1
  | .loop | .woken _ => 2
  | .waiting | .finish _ => 3
  | .storeResult .. => 4
  | .loadResult .. => 5
  | .testResult .. => 6
  | .callback .. => 7
  | .dequeued _ => 8
  | .exited => 0

theorem WorkerPc.stepsToDequeue_le (p : WorkerPc) : p.stepsToDequeue ≤ 8 := by
  cases p <;> simp [stepsToDequeue]

theorem Moves.stepsToDequeue {x : WorkerThreadPoolContext} {p : WorkerPc} (h : Moves s x p)
    (hrunning : x.running = true) (hlen : s.taskPendingLen ≠ 0) :
    p.stepsToDequeue + 1 ≤ x.pc.stepsToDequeue + (if p.isDequeued then 8 else 0) := by
  cases h with
  | silent hs =>
      cases hs with
      | again hx => simp [hx, WorkerPc.stepsToDequeue]
      | sleep hx hempty => exact absurd hempty hlen
      | awake hx => simp [hx, WorkerPc.stepsToDequeue]
      | nothing hx hempty => exact absurd hempty hlen
      | exit hx hstop => rw [hrunning] at hstop; cases hstop
      | noResult hx => simp [hx, WorkerPc.stepsToDequeue, WorkerPc.isDequeued]
      | result hx => simp [hx, WorkerPc.stepsToDequeue]
      | load hx => simp [hx, WorkerPc.stepsToDequeue]
  | dequeue hx =>
      rcases hx with hx | ⟨e, hx⟩ <;> simp [hx, WorkerPc.stepsToDequeue, WorkerPc.isDequeued]
  | wake hx | start hx | callbackReturn hx | store hx | finish hx =>
      simp [hx, WorkerPc.stepsToDequeue]

/-- Every thread's steps to its next dequeue. -/
def PoolState.stepsToDequeue (s : PoolState κ δ) : Nat :=
  (s.threads.map fun x => x.pc.stepsToDequeue).sum

/-- Each dequeue brings the worker 8 steps, and the task one place. -/
def PoolState.waitingRank (c : CallId) (s : PoolState κ δ) : Nat :=
  8 * ((linkedCalls s.history).idxOf c + 1 - (dequeuedCalls s.history).length) + s.stepsToDequeue

/-- `c` has been put in the queue, and the workers run. -/
structure Queued (c : CallId) (s : PoolState κ δ) : Prop where
  pool : ∃ F Q, PoolInv s F Q
  running : ∀ x ∈ s.threads, x.running = true
  linked : c ∈ linkedCalls s.history

/-- The workers have not taken `c`: it is still behind what they have taken. -/
theorem PoolInv.dequeued_le_idxOf (h : PoolInv s F Q) {c : CallId}
    (hc : c ∉ dequeuedCalls s.history) :
    (dequeuedCalls s.history).length ≤ (linkedCalls s.history).idxOf c := by
  rw [h.fifo, List.idxOf_append_of_notMem hc]
  exact Nat.le_add_right _ _

theorem PoolInv.taskPendingLen_ne_zero (h : PoolInv s F Q) {c : CallId}
    (hc : c ∈ linkedCalls s.history) (hd : c ∉ dequeuedCalls s.history) :
    s.taskPendingLen ≠ 0 := by
  rw [h.fifo, List.mem_append] at hc
  obtain ⟨t, ht, -⟩ := List.mem_map.mp (hc.resolve_left hd)
  rw [h.lists.pendingLen]
  exact Nat.ne_of_gt (List.length_pos_of_mem ht)

theorem Transition.linkedCalls_isPrefix {a : Action κ δ} (ht : Transition s a s') :
    linkedCalls s.history <+: linkedCalls s'.history :=
  List.IsPrefix.filterMap _ ht.history_prefix

theorem Transition.dequeuedCalls_isPrefix {a : Action κ δ} (ht : Transition s a s') :
    dequeuedCalls s.history <+: dequeuedCalls s'.history :=
  List.IsPrefix.filterMap _ ht.history_prefix

/-- Later calls are linked behind `c`. -/
theorem Transition.idxOf_linkedCalls {a : Action κ δ} (ht : Transition s a s') {c : CallId}
    (hc : c ∈ linkedCalls s.history) :
    (linkedCalls s'.history).idxOf c = (linkedCalls s.history).idxOf c := by
  obtain ⟨l, hl⟩ := ht.linkedCalls_isPrefix
  rw [← hl, List.idxOf_append_of_mem hc]

theorem Transition.running {a : Action κ δ} (ht : Transition s a s') (hok : BeforeDealloc s a)
    (h : ∀ x ∈ s.threads, x.running = true) : ∀ x ∈ s'.threads, x.running = true := by
  cases hw : a.worker? with
  | some w =>
      obtain ⟨x, p, hmoved⟩ := ht.moves hw
      rw [hmoved.threads]
      intro y hy
      rcases List.mem_or_eq_of_mem_set hy with hy | rfl
      · exact h y hy
      · exact h x (List.mem_of_getElem? hmoved.worker)
  | none =>
      cases ht with
      | silent | dequeue | start | store | giveBack | complete | wake | callbackReturn => cases hw
      | link hidle hcb hlen hacq happ =>
          obtain ⟨-, -, hth, -, -⟩ := link_frame hacq happ
          intro x hx
          exact h x (hth ▸ hx)
      | reject | postReturn | waitForever | settleCompleted | settlePosted | settleTimeout
      | settleError | postWait | waitTimed => exact h
      | stop | stopPost => exact hok.elim

theorem Queued.step {c : CallId} (h : Queued c s) {a : Action κ δ} (hlate : NoLateError s a)
    (hbefore : BeforeDealloc s a) (ht : Transition s a s') : Queued c s' := by
  obtain ⟨F, Q, hpool⟩ := h.pool
  exact ⟨hpool.step hlate ht, ht.running hbefore h.running,
    ht.linkedCalls_isPrefix.subset h.linked⟩

theorem Queued.lowers {c : CallId} (h : Queued c s) {a : Action κ δ} (ht : Transition s a s')
    (hc : c ∉ dequeuedCalls s.history) :
    s'.waitingRank c + (if a.isWorker then 1 else 0) ≤ s.waitingRank c := by
  obtain ⟨F, Q, hpool⟩ := h.pool
  have hbehind := hpool.dequeued_le_idxOf hc
  have hlen := hpool.taskPendingLen_ne_zero h.linked hc
  have hidx := ht.idxOf_linkedCalls h.linked
  simp only [PoolState.waitingRank, PoolState.stepsToDequeue]
  cases hw : a.worker? with
  | some w =>
      have hmine : a.isWorker = true := by simp [Action.isWorker, hw]
      obtain ⟨x, p, hx, hmove, hth, -, -, -, hdeq⟩ := ht.moves hw
      have hsum := sum_map_set_add hx { x with pc := p } fun x => x.pc.stepsToDequeue
      have hrank := hmove.stepsToDequeue (h.running x (List.mem_of_getElem? hx)) hlen
      rw [hth, hidx, hdeq, hmine]
      simp only [if_true] at hsum ⊢
      split at hrank
      · rename_i hp
        simp only [hp, if_true] at hrank ⊢
        omega
      · rename_i hp
        simp only [hp] at hrank ⊢
        simp only [Bool.false_eq_true, if_false] at hrank ⊢
        omega
  | none =>
      have hmine : a.isWorker = false := by simp [Action.isWorker, hw]
      obtain ⟨hpcs, hdeq⟩ := ht.idle_workers hw
      have hmap : s'.threads.map (fun x => x.pc.stepsToDequeue)
          = s.threads.map fun x => x.pc.stepsToDequeue := by
        have hranks := congrArg (List.map WorkerPc.stepsToDequeue) hpcs
        rw [List.map_map, List.map_map] at hranks
        exact hranks
      rw [hmap, hidx, hdeq, hmine]
      simp

/-- Steps before `worker_thread_pool_dealloc` that keep the lists intact. -/
def Serving (s : PoolState κ δ) (a : Action κ δ) : Prop := NoLateError s a ∧ BeforeDealloc s a

instance (s : PoolState κ δ) (a : Action κ δ) : Decidable (Serving s a) :=
  inferInstanceAs (Decidable (_ ∧ _))

theorem approaches_dequeue (c : CallId) :
    Approaches (step : PoolState κ δ → Action κ δ → _) Serving (Queued c)
      (fun s => c ∈ dequeuedCalls s.history) Action.isWorker (PoolState.waitingRank c) where
  keeps hi hok hs := hi.step hok.1 hok.2 (step_transition hs)
  stays _ hg _ hs := (step_transition hs).dequeuedCalls_isPrefix.subset hg
  lowers {s a s'} hi _ hs := by
    by_cases hc : c ∈ dequeuedCalls s.history
    · exact .inl ((step_transition hs).dequeuedCalls_isPrefix.subset hc)
    · exact .inr (hi.lowers (step_transition hs) hc)

/-- The rank of a task with `before` in front of it. -/
theorem PoolInv.waitingRank_le (h : PoolInv s F Q) {c : CallId} {before after : List CallId}
    (hc : pendingCalls s.history = before ++ c :: after) :
    s.waitingRank c ≤ 8 * (before.length + 1 + s.threads.length) := by
  have hsplit : linkedCalls s.history = dequeuedCalls s.history ++ pendingCalls s.history := by
    rw [h.pendingCalls_eq]
    exact h.fifo
  have hidx : (linkedCalls s.history).idxOf c
      ≤ (dequeuedCalls s.history).length + before.length := by
    rw [hsplit, hc, ← List.append_assoc]
    by_cases hm : c ∈ dequeuedCalls s.history ++ before
    · rw [List.idxOf_append_of_mem hm, ← List.length_append]
      exact List.idxOf_le_length
    · rw [List.idxOf_append_of_notMem hm, List.length_append]
      simp
  have hsum : s.stepsToDequeue ≤ 8 * s.threads.length :=
    sum_map_le fun x _ => x.pc.stepsToDequeue_le
  rw [PoolState.waitingRank]
  omega

/-- **A queued task is taken**: one with `before` in front of it is dequeued
before the workers have taken more than eight steps for each of these, for the
task itself and for each worker, however their steps are interleaved with one
another's and with the enqueuers', where no worker is told to stop and a wait
that fails finds its task completed (`NoLateError`). -/
theorem dequeued_within {s₀ s t : PoolState κ δ} (h₀ : Initial s₀)
    (h : Reaches step Serving s₀ s) {c : CallId} {before after : List CallId}
    (hc : pendingCalls s.history = before ++ c :: after) {as : List (Action κ δ)}
    (hrun : run step Serving as s = some t)
    (hsteps : 8 * (before.length + 1 + s.threads.length) < as.countP Action.isWorker) :
    c ∈ dequeuedCalls t.history := by
  obtain ⟨F, Q, hpool⟩ := poolInv_reaches (fun _ _ hok => hok.1) h₀ h
  have hrunning : ∀ x ∈ s.threads, x.running = true := by
    refine h.invariant (I := fun s => ∀ x ∈ s.threads, x.running = true) ?_
      fun _ _ _ hi hok hs => (step_transition hs).running hok.2 hi
    obtain ⟨m, n, rfl⟩ := h₀.eq
    exact fun x hx => by rw [List.eq_of_mem_replicate hx]
  have hlinked : c ∈ linkedCalls s.history :=
    List.mem_of_mem_drop (i := (dequeuedCalls s.history).length) (by
      show c ∈ pendingCalls s.history
      rw [hc]
      simp)
  have hle := hpool.waitingRank_le hc
  exact (approaches_dequeue c).goal_of_rank_lt hrun
    ⟨⟨F, Q, hpool⟩, hrunning, hlinked⟩ (by omega)

/-- One worker sleeps and one task is queued. -/
def queuedRun : List (Action Unit Unit) :=
  [.worker 0, .worker 0, .enqueue 0 { callback := some () } true, .post 0]

theorem queuedRun_isSome :
    (run step Serving queuedRun { maxQueueSize := 1, threads := [{}] }).isSome = true := rfl

def queuedState : PoolState Unit Unit := (run step Serving queuedRun _).get queuedRun_isSome

/-- The worker takes the task; afterwards it finds the queue empty twice. -/
def servedRun : List (Action Unit Unit) :=
  [.wake 0 .posted, .worker 0, .worker 0, .worker 0, .callbackReturn 0 7, .worker 0, .worker 0,
    .worker 0, .worker 0, .wake 0 .timedOut, .worker 0, .worker 0, .worker 0, .worker 0,
    .wake 0 .timedOut, .worker 0, .worker 0]

theorem servedRun_isSome : (run step Serving servedRun queuedState).isSome = true := by
  decide +kernel

theorem dequeued_within_servedRun :
    0 ∈ dequeuedCalls ((run step Serving servedRun queuedState).get servedRun_isSome).history :=
  dequeued_within ⟨1, 1, rfl⟩ (reaches_get queuedRun_isSome) (s := queuedState)
    (show pendingCalls queuedState.history = [] ++ 0 :: [] from rfl)
    (Option.some_get servedRun_isSome).symm (by decide)

/-! ## Where a worker is stuck -/

/-- No record in use has a NULL callback. -/
def CallbackInv (s : PoolState κ δ) : Prop := ∀ t < s.allocated, (s.heap t).callback ≠ none

/-- A step that fills no record keeps the callbacks. -/
theorem Transition.callbackInv {a : Action κ δ} (ht : Transition s a s') (h : CallbackInv s) :
    CallbackInv s' := by
  -- a write to one record that leaves its callback alone
  have hset : ∀ {t : Addr} {y : WorkerThreadPoolTask κ δ}, y.callback = (s.heap t).callback →
      ∀ t' < s.allocated, (Function.update s.heap t y t').callback ≠ none := by
    intro t y hy t' hlt
    rw [apply_update_of_eq WorkerThreadPoolTask.callback hy]
    exact h t' hlt
  cases ht with
  | @link c a i t s₁ s₂ hidle hcb hlen hacq happ =>
      obtain ⟨hothers, hself, halloc⟩ := link_heap hacq happ
      intro t' hlt
      show (s₂.heap t').callback ≠ none
      by_cases htt : t' = t
      · have hfill : (s₂.heap t).callback = a.callback := by
          have := congrArg WorkerThreadPoolTask.callback hself
          simpa [WorkerThreadPoolTask.body] using this
        rw [htt, hfill]
        exact hcb
      · rw [(WorkerThreadPoolTask.body_eq (hothers t' htt)).1]
        apply h
        change t' < s₂.allocated at hlt
        rcases halloc with ⟨rfl, ha⟩ | ha <;> omega
  | waitForever | waitTimed | settlePosted | settleTimeout | settleError | giveBack | complete =>
      exact hset rfl
  | reject | postReturn | postWait | settleCompleted | silent | dequeue | start | store | wake
  | callbackReturn | stop | stopPost => exact h

theorem callbackInv_reaches {ok : PoolState κ δ → Action κ δ → Prop}
    {s₀ : PoolState κ δ} (h₀ : Initial s₀) (h : Reaches step ok s₀ s) :
    CallbackInv s := by
  refine h.invariant ?_ fun _ _ _ hi _ hs => (step_transition hs).callbackInv hi
  obtain ⟨m, n, rfl⟩ := h₀.eq
  intro t hlt
  cases hlt

/-- A step of worker `w` that the system allows. -/
def PoolState.CanMove (s : PoolState κ δ) (w : Nat) : Prop :=
  ∃ a : Action κ δ, a.worker? = some w ∧ (step s a).isSome

theorem PoolInv.dequeueTask_isSome (h : PoolInv s F Q) (hlen : s.taskPendingLen ≠ 0) (w : Nat)
    (x : WorkerThreadPoolContext) : (s.dequeueTask w x).isSome := by
  have hfirst := h.lists.pending.head
  rw [h.lists.pendingLen] at hlen
  obtain ⟨t, Q', rfl⟩ := List.exists_cons_of_length_pos (Nat.pos_of_ne_zero hlen)
  simp [PoolState.dequeueTask, PoolState.takePending, hfirst]

theorem canMove_of_poolInv (h : PoolInv s F Q) (hcb : CallbackInv s) {w : Nat}
    {x : WorkerThreadPoolContext} (hw : s.threads[w]? = some x) (hexited : x.pc ≠ .exited)
    (hnull : ∀ t v, x.pc ≠ .storeResult t v none) : s.CanMove w := by
  have hstep : ∀ {a : Action κ δ}, a.worker? = some w → (step s a).isSome → s.CanMove w :=
    fun hwa ha => ⟨_, hwa, ha⟩
  cases hx : x.pc with
  | loop | woken | testResult | loadResult =>
      exact hstep (a := .worker w) rfl (by simp [step, hw, PoolState.workerStep, hx])
  | checkPending | relock =>
      apply hstep (a := .worker w) rfl
      by_cases hlen : s.taskPendingLen = 0
      · simp [step, hw, PoolState.workerStep, hx, hlen]
      · simp [step, hw, PoolState.workerStep, hx, hlen, h.dequeueTask_isSome hlen]
  | waiting =>
      -- the wait is timed
      exact hstep (a := .wake w .timedOut) rfl
        (by simp [step, hw, PoolState.workerWake, hx, waitEnds])
  | dequeued t =>
      have hheld : t ∈ s.held := PoolState.mem_held hw (by simp [hx, WorkerPc.holds])
      have hc := hcb t (h.lists.bound t (.inr (.inr hheld)))
      exact hstep (a := .worker w) rfl (by simp [step, hw, PoolState.workerStep, hx, hc])
  | callback t c =>
      exact hstep (a := .callbackReturn w 0) rfl (by simp [step, hw, PoolState.workerReturn, hx])
  | storeResult t v l =>
      cases l with
      | none => exact absurd hx (hnull t v)
      | some c =>
          exact hstep (a := .worker w) rfl (by simp [step, hw, PoolState.workerStep, hx])
  | finish t =>
      apply hstep (a := .worker w) rfl
      by_cases htimed : (s.heap t).timedout <;>
        simp [step, hw, PoolState.workerStep, hx, htimed]
  | exited => exact absurd hx hexited

theorem Moves.pc_ne {x : WorkerThreadPoolContext} {p : WorkerPc} (h : Moves s x p) :
    x.pc ≠ .exited ∧ ∀ t v, x.pc ≠ .storeResult t v none := by
  cases h with
  | silent hs =>
      cases hs with
      | exit hx => rcases hx with hx | ⟨e, hx⟩ <;> simp [hx]
      | again hx | sleep hx | awake hx | nothing hx | noResult hx | result hx | load hx =>
          simp [hx]
  | dequeue hx => rcases hx with hx | ⟨e, hx⟩ <;> simp [hx]
  | wake hx | start hx | callbackReturn hx | store hx | finish hx => simp [hx]

theorem PoolState.CanMove.pc_ne {w : Nat} {x : WorkerThreadPoolContext} (h : s.CanMove w)
    (hw : s.threads[w]? = some x) :
    x.pc ≠ .exited ∧ ∀ t v, x.pc ≠ .storeResult t v none := by
  obtain ⟨a, hwa, ha⟩ := h
  obtain ⟨s', hs⟩ := Option.isSome_iff_exists.mp ha
  obtain ⟨y, p, hmoved⟩ := (step_transition hs).moves hwa
  obtain rfl : x = y := Option.some.inj (hw.symm.trans hmoved.worker)
  exact hmoved.move.pc_ne

/-- **No deadlock**: as long as the lists are intact, a worker has no step only
when it has exited or is about to store through the result pointer that a
timeout has cleared behind its test. -/
theorem stuck_iff {ok : PoolState κ δ → Action κ δ → Prop} {s₀ : PoolState κ δ}
    (hok : ∀ s a, ok s a → NoLateError s a) (h₀ : Initial s₀)
    (h : Reaches step ok s₀ s) {w : Nat} {x : WorkerThreadPoolContext}
    (hw : s.threads[w]? = some x) :
    ¬ s.CanMove w ↔ x.pc = .exited ∨ ∃ t v, x.pc = .storeResult t v none := by
  obtain ⟨F, Q, hpool⟩ := poolInv_reaches hok h₀ h
  constructor
  · intro hstuck
    by_contra hx
    rw [not_or] at hx
    exact hstuck (canMove_of_poolInv hpool (callbackInv_reaches h₀ h) hw hx.1
      fun t v he => hx.2 ⟨t, v, he⟩)
  · rintro (hx | ⟨t, v, hx⟩) hmove
    · exact (hmove.pc_ne hw).1 hx
    · exact (hmove.pc_ne hw).2 t v hx

/-- The timeout clears the result pointer after the worker has tested it. -/
def clearedRun : List (Action Unit Unit) :=
  [.enqueue 0 { callback := some (), callbackResult := true, timeout := 5 } true, .post 0,
    .worker 0, .worker 0, .worker 0, .callbackReturn 0 7, .worker 0, .wait 0 .timedOut, .settle 0,
    .worker 0]

theorem stuck_iff_clearedRun :
    ∃ s : PoolState Unit Unit, .returned 0 workerThreadPoolErrorTimeout ∈ s.history
      ∧ ¬ s.CanMove 0 :=
  let hrun : (run step NoLateError clearedRun { maxQueueSize := 1, threads := [{}] }).isSome
    = true := rfl
  ⟨_, by decide, (stuck_iff (fun _ _ hok => hok) ⟨1, 1, rfl⟩ (reaches_get hrun) rfl).mpr
    (.inr ⟨0, 7, rfl⟩)⟩

/-! ## The result pointer -/

/-- The record whose result pointer the worker has tested. -/
def WorkerPc.loads : WorkerPc → Option Addr
  | .loadResult t _ => some t
  | _ => none

/-- No call times out between a worker's test of the result pointer and its
second reading. -/
def NoClearBehindTest (s : PoolState κ δ) : Action κ δ → Prop
  | .settle c => ∀ t, (s.calls c).pc = .waited t .timedOut →
      ∀ x ∈ s.threads, x.pc.loads ≠ some t
  | _ => True

instance (s : PoolState κ δ) (a : Action κ δ) : Decidable (NoClearBehindTest s a) :=
  match a with
  | .settle c =>
      match h : (s.calls c).pc with
      | .waited t .timedOut =>
          if hd : ∀ x ∈ s.threads, x.pc.loads ≠ some t then
            isTrue fun t' ht' => by
              rw [h] at ht'
              cases ht'
              exact hd
          else isFalse fun hn => hd (hn t h)
      | .waited t .posted | .waited t .error => isTrue fun t' ht' => by simp [h] at ht'
      | .idle | .linked _ | .waiting _ | .returned _ => isTrue fun t' ht' => by simp [h] at ht'
  | .enqueue .. | .post _ | .wait .. | .worker _ | .wake .. | .callbackReturn .. | .stop _
  | .stopPost => isTrue trivial

structure PointerInv (s : PoolState κ δ) : Prop where
  loading : ∀ x ∈ s.threads, ∀ t, x.pc.loads = some t → (s.heap t).result ≠ none
  storing : ∀ x ∈ s.threads, ∀ t v, x.pc ≠ .storeResult t v none

theorem WorkerPc.holds_of_loads {p : WorkerPc} {t : Addr} (h : p.loads = some t) :
    t ∈ p.holds := by
  cases p <;> simp_all [loads, holds]

/-- No thread moves, new ones stand at their beginning, and the tested
pointers stay. -/
theorem PointerInv.congr (h : PointerInv s)
    (hth : ∀ x ∈ s'.threads, x.pc = .loop ∨ ∃ y ∈ s.threads, y.pc = x.pc)
    (hresult : ∀ x ∈ s.threads, ∀ t, x.pc.loads = some t →
      (s'.heap t).result = (s.heap t).result) : PointerInv s' := by
  constructor
  · intro x hx t ht
    rcases hth x hx with hloop | ⟨y, hy, hyx⟩
    · rw [hloop] at ht
      cases ht
    · rw [hresult y hy t (hyx ▸ ht)]
      exact h.loading y hy t (hyx ▸ ht)
  · intro x hx t v
    rcases hth x hx with hloop | ⟨y, hy, hyx⟩
    · simp [hloop]
    · rw [← hyx]
      exact h.storing y hy t v

/-- Thread `w` moves to `p`. -/
theorem PointerInv.setThread (h : PointerInv s) {w : Nat} {x : WorkerThreadPoolContext}
    {p : WorkerPc} (hth : s'.threads = s.threads.set w { x with pc := p })
    (hresult : ∀ t, (s'.heap t).result = (s.heap t).result)
    (hload : ∀ t, p.loads = some t → (s.heap t).result ≠ none)
    (hstore : ∀ t v, p ≠ .storeResult t v none) : PointerInv s' := by
  constructor
  · intro y hy t ht
    rw [hresult]
    rw [hth] at hy
    rcases List.mem_or_eq_of_mem_set hy with hy | rfl
    · exact h.loading y hy t ht
    · exact hload t ht
  · intro y hy t v
    rw [hth] at hy
    rcases List.mem_or_eq_of_mem_set hy with hy | rfl
    · exact h.storing y hy t v
    · exact hstore t v

theorem PointerInv.step (h : PointerInv s) (hi : PoolInv s F Q) {a : Action κ δ}
    (hok : NoClearBehindTest s a) (ht : Transition s a s') : PointerInv s' := by
  have hsame : ∀ x ∈ s.threads, x.pc = .loop ∨ ∃ y ∈ s.threads, y.pc = x.pc :=
    fun x hx => .inr ⟨x, hx, rfl⟩
  -- a write to one record that leaves its pointer alone
  have hset : ∀ {t : Addr} {y : WorkerThreadPoolTask κ δ}, y.result = (s.heap t).result →
      ∀ t', (Function.update s.heap t y t').result = (s.heap t').result :=
    fun hy => apply_update_of_eq WorkerThreadPoolTask.result hy
  cases ht with
  | @link c a i t s₁ s₂ hidle hcb hlen hacq happ =>
      obtain ⟨-, -, hth, -, -⟩ := link_frame hacq happ
      obtain ⟨hothers, -, -⟩ := link_heap hacq happ
      have hlists : ListInv (s.beginCall c a) F Q := hi.lists.congr (fun _ => rfl) rfl rfl
      obtain ⟨F', hfresh⟩ := PoolState.acquireTask_spec hlists hacq
      refine h.congr (fun x hx => .inr ⟨x, hth ▸ hx, rfl⟩) ?_
      intro x hx t' hload
      obtain ⟨w, hw⟩ := List.mem_iff_getElem?.mp hx
      have hheld : t' ∈ s.held := PoolState.mem_held hw (WorkerPc.holds_of_loads hload)
      have hne : t' ≠ t := fun he => hfresh.notHeld (he ▸ hheld)
      exact (WorkerThreadPoolTask.body_eq (hothers t' hne)).2.2.1
  | @settleTimeout c t hpc hd =>
      refine h.congr hsame ?_
      intro x hx t' hload
      show (Function.update s.heap t _ t').result = _
      have hne : t' ≠ t := by
        rintro rfl
        exact hok t' hpc x hx hload
      rw [Function.update_of_ne hne]
  | waitForever | waitTimed | settlePosted | settleError =>
      exact h.congr hsame fun _ _ t _ => hset (by rfl) t
  | reject | postReturn | postWait | settleCompleted | stopPost =>
      exact h.congr hsame fun _ _ _ _ => rfl
  | @silent w x p hw hs =>
      refine h.setThread rfl (fun _ => rfl) ?_ ?_
      · intro t hload
        cases hs with
        | result hx hr =>
            cases hload
            exact hr
        | _ => cases hload
      · intro t v hp
        cases hs with
        | load hx =>
            injection hp with _ _ hnone
            exact h.loading x (List.mem_of_getElem? hw) _ (by rw [hx]; rfl) hnone
        | _ => cases hp
  | dequeue | start | store | wake | callbackReturn =>
      exact h.setThread rfl (fun _ => rfl) (by simp [WorkerPc.loads]) (by simp)
  | giveBack | complete =>
      exact h.setThread rfl (hset (by rfl)) (by simp [WorkerPc.loads]) (by simp)
  | @stop w x hw =>
      refine h.congr ?_ fun _ _ _ _ => rfl
      intro y hy
      rcases List.mem_or_eq_of_mem_set hy with hy | rfl
      · exact .inr ⟨y, hy, rfl⟩
      · exact .inr ⟨x, List.mem_of_getElem? hw, rfl⟩

end CWebServer.WorkerThreadPool
