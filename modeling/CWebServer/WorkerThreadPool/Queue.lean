import CWebServer.WorkerThreadPool.Invariant

/-!
# WorkerThreadPool — Queue

What the two lists look like in every state, the order in which tasks leave
the queue, and what an error return of `worker_thread_pool_enqueue` leaves
behind. All of it rests on `PoolInv`, and fails in a run of four steps that
takes a record back while it is queued.
-/

namespace CWebServer.WorkerThreadPool

open CWebServer.Lib CWebServer.Runs

variable {κ δ : Type} {s s' : PoolState κ δ}

/-- The pending queue and the free list, as `worker_thread_pool.h` describes
them. -/
structure ListsIntact (s : PoolState κ δ) (F Q : List Addr) : Prop where
  pending : Chain (fun t => (s.heap t).next) s.taskPendingFirst Q
  pendingNodup : Q.Nodup
  pendingLen : s.taskPendingLen = Q.length
  pendingMax : s.taskPendingLen ≤ s.maxQueueSize
  pendingLast : s.taskPendingLast = Q.getLast?
  free : Chain (fun t => (s.heap t).next) s.taskPoolFirst F
  freeNodup : F.Nodup
  freeLen : s.taskPoolLen = F.length
  disjoint : ∀ t ∈ F, t ∉ Q

/-- Tasks leave the queue at most once each and in the order in which they
entered it. -/
structure Fifo (h : List Event) : Prop where
  once : (dequeuedCalls h).Nodup
  order : dequeuedCalls h <+: linkedCalls h

theorem PoolInv.listsIntact {F Q : List Addr} (h : PoolInv s F Q) : ListsIntact s F Q where
  pending := h.lists.pending
  pendingNodup := h.lists.pending_nodup
  pendingLen := h.lists.pendingLen
  pendingMax := h.lists.pendingLen ▸ h.lists.pendingMax
  pendingLast := h.lists.pendingLast
  free := h.lists.free
  freeNodup := h.lists.free_nodup
  freeLen := h.lists.freeLen
  disjoint := fun _ ht => (h.lists.free_disjoint ht).1

theorem PoolInv.fifo_history {F Q : List Addr} (h : PoolInv s F Q) : Fifo s.history := by
  have horder : dequeuedCalls s.history <+: linkedCalls s.history := ⟨_, h.fifo.symm⟩
  exact ⟨h.labels.calls.nodup.sublist horder.sublist, horder⟩

/-- **The lists stay intact and the queue is first in, first out**, in every
run in which no enqueuer takes back a record after a wait error. -/
theorem lists_intact {s₀ : PoolState κ δ} (h₀ : Initial s₀)
    (h : Reaches step NoLateError s₀ s) : (∃ F Q, ListsIntact s F Q) ∧ Fifo s.history := by
  obtain ⟨F, Q, hi⟩ := poolInv_reaches (fun _ _ => id) h₀ h
  exact ⟨⟨F, Q, hi.listsIntact⟩, hi.fifo_history⟩

theorem lists_intact_completedRun :
    ∃ s : PoolState Unit Unit, dequeuedCalls s.history = [0]
      ∧ (∃ F Q, ListsIntact s F Q) ∧ Fifo s.history :=
  let hrun : (run step NoLateError completedRun _).isSome = true := rfl
  ⟨_, rfl, lists_intact ⟨1, 1, rfl⟩ (reaches_get hrun)⟩

/-- One call with a timeout, whose wait is interrupted while its task is
still queued. -/
def interruptedRun : List (Action Unit Unit) :=
  [.enqueue 0 { callback := some (), timeout := 5 } true, .post 0, .wait 0 .error, .settle 0]

/-- The record is then on both lists. -/
theorem lists_not_intact :
    ¬ ∀ s₀ s : PoolState Unit Unit, Initial s₀ → Reaches step Always s₀ s →
      (∃ F Q, ListsIntact s F Q) ∧ Fifo s.history := by
  intro hall
  have hrun : (run step Always interruptedRun
      { maxQueueSize := 1, threads := [{}] }).isSome = true := rfl
  obtain ⟨⟨F, Q, h⟩, -⟩ := hall _ _ ⟨1, 1, rfl⟩ (reaches_get hrun)
  have hF : 0 ∈ F := List.mem_of_head? h.free.head.symm
  have hQ : 0 ∈ Q := List.mem_of_head? h.pending.head.symm
  exact h.disjoint 0 hF hQ

/-! ## Error returns -/

structure ErrorInv (s : PoolState κ δ) : Prop where
  pool : ∃ F Q, PoolInv s F Q
  dequeued : ∀ c, .dequeued c ∈ s.history → c ∈ linkedCalls s.history
  started : ∀ c, .started c ∈ s.history → c ∈ linkedCalls s.history
  unlinked : ∀ c e, .returned c e ∈ s.history → e ≠ workerThreadPoolSuccess →
    e ≠ workerThreadPoolErrorTimeout → c ∉ linkedCalls s.history

/-- A step that links nothing and records at most `e`. -/
theorem ErrorInv.of_event (h : ErrorInv s) (hpool : ∃ F Q, PoolInv s' F Q) {e : Event}
    (hh : s'.history = s.history ++ [e]) (hl : ∀ c, e ≠ .linked c)
    (hd : ∀ c, e = .dequeued c → c ∈ linkedCalls s.history)
    (hs : ∀ c, e = .started c → c ∈ linkedCalls s.history)
    (hr : ∀ c code, e = .returned c code → code ≠ workerThreadPoolSuccess →
      code ≠ workerThreadPoolErrorTimeout → c ∉ linkedCalls s.history) : ErrorInv s' := by
  have hlinked : linkedCalls s'.history = linkedCalls s.history := by
    rw [hh, linkedCalls_snoc]
    cases e with
    | linked c => exact absurd rfl (hl c)
    | _ => rfl
  refine ⟨hpool, ?_, ?_, ?_⟩ <;> rw [hlinked, hh] <;> simp only [List.mem_append,
    List.mem_singleton]
  · rintro c (hm | hm)
    · exact h.dequeued c hm
    · exact hd c hm.symm
  · rintro c (hm | hm)
    · exact h.started c hm
    · exact hs c hm.symm
  · rintro c code (hm | hm)
    · exact h.unlinked c code hm
    · exact hr c code hm.symm

theorem ErrorInv.step (h : ErrorInv s) {a : Action κ δ} (hok : NoLateError s a)
    (ht : Transition s a s') : ErrorInv s' := by
  obtain ⟨F, Q, hi⟩ := h.pool
  have hpool : ∃ F Q, PoolInv s' F Q := hi.step hok ht
  have hsame : ∀ {s' : PoolState κ δ}, (∃ F Q, PoolInv s' F Q) → s'.history = s.history →
      ErrorInv s' := by
    intro s' hpool hh
    exact ⟨hpool, hh ▸ h.dequeued, hh ▸ h.started, hh ▸ h.unlinked⟩
  -- the codes that a call returns once it has linked its task
  have hlate : ∀ {c c' : CallId} {e code : ErrorCode},
      e = workerThreadPoolSuccess ∨ e = workerThreadPoolErrorTimeout →
      Event.returned c e = .returned c' code → code ≠ workerThreadPoolSuccess →
      code ≠ workerThreadPoolErrorTimeout → c' ∉ linkedCalls s.history := by
    intro c c' e code he heq hn hm
    cases heq
    exact (he.elim hn hm).elim
  have hlabel : ∀ {t : Addr}, t ∈ Q ∨ t ∈ s.held →
      (s.heap t).call ∈ linkedCalls s.history :=
    fun hm => hi.labels.labelled _ (hi.lists.bound _ (.inr hm))
  cases ht with
  | @reject c a i e hidle he =>
      apply h.of_event hpool rfl (by simp) (by simp) (by simp)
      rintro c' code heq - -
      cases heq
      exact fun hc => hi.labels.calls.known c hc hidle
  | @link c a i t s₁ s₂ hidle hcb hlen hacq happ =>
      obtain ⟨-, hhist, -, -, -⟩ := link_frame hacq happ
      have hlinked : linkedCalls (s₂.history ++ [.linked c]) = linkedCalls s.history ++ [c] := by
        simp [hhist]
      refine ⟨hpool, ?_, ?_, ?_⟩
      · intro c' hm
        change c' ∈ linkedCalls (s₂.history ++ [.linked c])
        change .dequeued c' ∈ s₂.history ++ [.linked c] at hm
        rw [hlinked]
        rw [hhist] at hm
        exact List.mem_append_left _ (h.dequeued c' (by simpa using hm))
      · intro c' hm
        change c' ∈ linkedCalls (s₂.history ++ [.linked c])
        change .started c' ∈ s₂.history ++ [.linked c] at hm
        rw [hlinked]
        rw [hhist] at hm
        exact List.mem_append_left _ (h.started c' (by simpa using hm))
      · intro c' code hm hn hm'
        change .returned c' code ∈ s₂.history ++ [.linked c] at hm
        change c' ∉ linkedCalls (s₂.history ++ [.linked c])
        rw [hhist] at hm
        have hold : .returned c' code ∈ s.history := by simpa using hm
        rw [hlinked, List.mem_append, List.mem_singleton, not_or]
        refine ⟨h.unlinked c' code hold hn hm', ?_⟩
        -- a call that is over is not made again
        rintro rfl
        rw [hi.labels.calls.reported c' code hold] at hidle
        cases hidle
  | @settlePosted c t hpc hdone =>
      exact h.of_event hpool rfl (by simp) (by simp) (by simp) fun _ _ => hlate (.inl rfl)
  | @settleError c t hpc hdone =>
      rw [hok t hpc] at hdone
      cases hdone
  | postReturn hpc htime | waitForever hpc htime hends | settleCompleted hpc hdone =>
      exact h.of_event hpool rfl (by simp) (by simp) (by simp) fun _ _ => hlate (.inl rfl)
  | settleTimeout hpc hdone =>
      exact h.of_event hpool rfl (by simp) (by simp) (by simp) fun _ _ => hlate (.inr rfl)
  | @dequeue w x t hw hx hlen hfirst =>
      refine h.of_event hpool rfl (by simp) ?_ (by simp) (by simp)
      intro c hc
      cases hc
      obtain ⟨Q', rfl, -⟩ := PoolState.afterDequeue_spec hi.lists hw hfirst
      exact hlabel (.inl (by simp))
  | @start w x t hw hx hcb =>
      refine h.of_event hpool rfl (by simp) (by simp) ?_ (by simp)
      intro c hc
      cases hc
      exact hlabel (.inr (PoolState.mem_held hw (by simp [hx, WorkerPc.holds])))
  | store hw hx | callbackReturn hw hx =>
      exact h.of_event hpool rfl (by simp) (by simp) (by simp) (by simp)
  | postWait hpc htime | waitTimed hpc htime hends | silent hw hs | giveBack hw hx htimed
  | complete hw hx htimed | wake hw hx hends | stop hw | stopPost => exact hsame hpool rfl

theorem errorInv_reaches {s₀ : PoolState κ δ} (h₀ : Initial s₀)
    (h : Reaches step NoLateError s₀ s) : ErrorInv s := by
  refine h.invariant ?_ fun _ _ _ hi hok hs => hi.step hok (step_transition hs)
  have hpool : ∃ F Q, PoolInv s₀ F Q := ⟨[], [], .initial h₀⟩
  obtain ⟨m, n, rfl⟩ := h₀.eq
  exact ⟨hpool, by simp, by simp, by simp⟩

/-- The step in which an error other than a timeout is returned. -/
theorem reject_frame {a : Action κ δ} {c : CallId} {e : ErrorCode}
    (hok : NoLateError s a) (ht : Transition s a s')
    (hh : s'.history = s.history ++ [.returned c e]) (hs : e ≠ workerThreadPoolSuccess)
    (htime : e ≠ workerThreadPoolErrorTimeout) :
    { s' with calls := s.calls, history := s.history } = s := by
  have hevent : ∀ {e' : Event}, s'.history = s.history ++ [e'] → e' = .returned c e := by
    intro e' he'
    rw [hh] at he'
    exact (List.singleton_inj.mp (List.append_cancel_left he')).symm
  have hquiet : s'.history ≠ s.history := by
    rw [hh]
    simp
  cases ht with
  | reject hidle he => rfl
  | link hidle hcb hlen hacq happ =>
      obtain ⟨-, hhist, -, -, -⟩ := link_frame hacq happ
      cases hevent (congrArg (· ++ [_]) hhist)
  | settleError hpc hdone =>
      rw [hok _ hpc] at hdone
      cases hdone
  | postReturn hpc _ | waitForever hpc _ _ | settleCompleted hpc _ | settlePosted hpc _ =>
      cases hevent rfl
      exact absurd rfl hs
  | settleTimeout hpc hdone =>
      cases hevent rfl
      exact absurd rfl htime
  | dequeue | start | store | callbackReturn => cases hevent rfl
  | postWait | waitTimed | silent | giveBack | complete | wake | stop | stopPost =>
      exact absurd rfl hquiet

/-- **Errors leave no trace**: in every run in which no enqueuer takes back a
record after a wait error, a call that returns an error other than
`WORKER_THREAD_POOL_ERROR_TIMEOUT` has changed nothing, and its task is
never queued, dequeued or started, neither before nor after. -/
theorem error_leaves_no_trace {s₀ : PoolState κ δ} (h₀ : Initial s₀)
    (h : Reaches step NoLateError s₀ s) {c : CallId} {e : ErrorCode}
    (hs : e ≠ workerThreadPoolSuccess) (htime : e ≠ workerThreadPoolErrorTimeout) :
    (.returned c e ∈ s.history → .linked c ∉ s.history ∧ .dequeued c ∉ s.history
        ∧ .started c ∉ s.history)
      ∧ ∀ a s', NoLateError s a → step s a = some s' →
        s'.history = s.history ++ [.returned c e] →
        { s' with calls := s.calls, history := s.history } = s := by
  have hi := errorInv_reaches h₀ h
  constructor
  · intro hm
    have hun := hi.unlinked c e hm hs htime
    refine ⟨fun hl => hun ?_, fun hd => hun (hi.dequeued c hd),
      fun hst => hun (hi.started c hst)⟩
    exact List.mem_filterMap.mpr ⟨_, hl, rfl⟩
  · intro a s' hok hstep hh
    exact reject_frame hok (step_transition hstep) hh hs htime

/-- The second of two calls finds the queue full. -/
def fullRun : List (Action Unit Unit) :=
  [.enqueue 0 { callback := some () } true, .enqueue 1 { callback := some () } true]

theorem error_leaves_no_trace_fullRun :
    ∃ s : PoolState Unit Unit, Event.returned 1 workerThreadPoolErrorQueueFull ∈ s.history
      ∧ .linked 1 ∉ s.history ∧ .dequeued 1 ∉ s.history ∧ .started 1 ∉ s.history :=
  let hrun : (run step NoLateError fullRun { maxQueueSize := 1, threads := [{}] }).isSome = true :=
    rfl
  let hmem : Event.returned 1 1 ∈ [Event.linked 0, .returned 1 1] := by decide
  ⟨_, hmem,
    (error_leaves_no_trace ⟨1, 1, rfl⟩ (reaches_get hrun) (by decide) (by decide)).1 hmem⟩

/-- After the interrupted wait has been reported as an error, a worker still
runs the task. -/
theorem error_leaves_a_task :
    ¬ ∀ s₀ s : PoolState Unit Unit, Initial s₀ → Reaches step Always s₀ s → ∀ c e,
      e ≠ workerThreadPoolSuccess → e ≠ workerThreadPoolErrorTimeout →
      .returned c e ∈ s.history → .linked c ∉ s.history ∧ .dequeued c ∉ s.history
        ∧ .started c ∉ s.history := by
  intro hall
  have hrun : (run step Always (interruptedRun ++ [.worker 0, .worker 0, .worker 0])
      { maxQueueSize := 1, threads := [{}] }).isSome = true := rfl
  have hreturned : Event.returned 0 1
      ∈ [Event.linked 0, .returned 0 1, .dequeued 0, .started 0] := by decide
  have hstarted : Event.started 0
      ∈ [Event.linked 0, .returned 0 1, .dequeued 0, .started 0] := by decide
  exact (hall _ _ ⟨1, 1, rfl⟩ (reaches_get hrun) 0 1 (by decide) (by decide) hreturned).2.2
    hstarted

end CWebServer.WorkerThreadPool
