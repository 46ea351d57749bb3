import CWebServer.WorkerThreadPool.Invariant

/-!
# WorkerThreadPool — Records

Where the records are. A record that its call has timed out on goes back to
the free list through the worker. Every other way to the end of a call loses
it: the enqueuer that finds its task completed does not put the record back,
and neither does a wait for ever or a call that does not wait.
-/

namespace CWebServer.WorkerThreadPool

open CWebServer.Lib CWebServer.Runs

variable {κ δ : Type} {s s' : PoolState κ δ} {F Q : List Addr}

/-- Waits end by a post or by a timeout. -/
def OrdinaryWaits (_ : PoolState κ δ) : Action κ δ → Prop
  | .wait _ e | .wake _ e => e ≠ .error
  | _ => True

instance (s : PoolState κ δ) (a : Action κ δ) : Decidable (OrdinaryWaits s a) :=
  match a with
  | .wait _ e | .wake _ e => inferInstanceAs (Decidable (e ≠ .error))
  | .enqueue .. | .post _ | .settle _ | .worker _ | .callbackReturn .. | .stop _ | .stopPost =>
      isTrue trivial

/-- No call returns `WORKER_THREAD_POOL_SUCCESS` after its task has
completed, and no task that has not timed out completes after its call has
returned. -/
def KeepsRecord (s : PoolState κ δ) : Action κ δ → Prop
  | .post c => ∀ t ∈ (s.calls c).pc.holds, (s.calls c).args.timeout = 0 →
      (s.heap t).completed = false
  | .wait c _ => ∀ t ∈ (s.calls c).pc.holds, (s.calls c).args.timeout = -1 →
      (s.heap t).completed = false
  | .settle c => ∀ t ∈ (s.calls c).pc.holds, (s.heap t).completed = false
  | .worker w => ∀ x ∈ s.threads[w]?, ∀ t ∈ x.pc.holds, x.pc = .finish t →
      (s.heap t).timedout = false → (s.calls (s.heap t).call).pc.holds = some t
  | _ => True

instance (s : PoolState κ δ) (a : Action κ δ) : Decidable (KeepsRecord s a) :=
  match a with
  | .post c => inferInstanceAs (Decidable (∀ t ∈ (s.calls c).pc.holds, _ → _))
  | .wait c _ => inferInstanceAs (Decidable (∀ t ∈ (s.calls c).pc.holds, _ → _))
  | .settle c => inferInstanceAs (Decidable (∀ t ∈ (s.calls c).pc.holds, _))
  | .worker w =>
      inferInstanceAs (Decidable (∀ x ∈ s.threads[w]?, ∀ t ∈ x.pc.holds, _ → _ → _))
  | .enqueue .. | .wake .. | .callbackReturn .. | .stop _ | .stopPost => isTrue trivial

/-- Every record is on a list, with a worker or with a call, and one that
nobody works with any more is free. -/
structure Accounted (s : PoolState κ δ) (F Q : List Addr) : Prop where
  free : Chain (fun t => (s.heap t).next) s.taskPoolFirst F
  pending : Chain (fun t => (s.heap t).next) s.taskPendingFirst Q
  somewhere : ∀ t < s.allocated,
    t ∈ F ∨ t ∈ Q ∨ t ∈ s.held ∨ ∃ c, (s.calls c).pc.holds = some t
  returned : ∀ t < s.allocated, ∀ v e, .completed (s.heap t).call v ∈ s.history →
    .returned (s.heap t).call e ∈ s.history → t ∉ s.held → t ∈ F

/-! ## Completed tasks are out of the queue -/

/-- The task that a worker holds has been dequeued. -/
theorem PoolInv.dequeued_of_held (h : PoolInv s F Q) {t : Addr} (ht : t ∈ s.held) :
    (s.heap t).call ∈ dequeuedCalls s.history := by
  have hlt := h.lists.bound t (.inr (.inr ht))
  have hmem := h.labels.labelled t hlt
  rw [h.fifo, List.mem_append] at hmem
  apply hmem.resolve_right
  intro hq
  obtain ⟨t', ht', heq⟩ := List.mem_map.mp hq
  have hsame := h.labels.inj t' (h.lists.bound t' (.inr (.inl ht'))) t hlt heq
  exact (h.lists.held_disjoint ht).2 (hsame ▸ ht')

/-- The task of a queued record has not. -/
theorem PoolInv.notMem_dequeued (h : PoolInv s F Q) {t : Addr} (ht : t ∈ Q) :
    (s.heap t).call ∉ dequeuedCalls s.history := by
  have hnd := h.labels.calls.nodup
  rw [h.fifo, List.nodup_append] at hnd
  exact fun hd => hnd.2.2 _ hd _ (List.mem_map.mpr ⟨t, ht, rfl⟩) rfl

structure RunInv (s : PoolState κ δ) : Prop where
  running : ∀ x ∈ s.threads, ∀ t c, x.pc = .callback t c → c ∈ dequeuedCalls s.history
  completed : ∀ c v, .completed c v ∈ s.history → c ∈ dequeuedCalls s.history

theorem RunInv.of_step (h : RunInv s) (hpre : s.history <+: s'.history)
    (hrun : ∀ x ∈ s'.threads, ∀ t c, x.pc = .callback t c →
      (∃ y ∈ s.threads, y.pc = .callback t c) ∨ c ∈ dequeuedCalls s.history)
    (hcomp : ∀ c v, .completed c v ∈ s'.history →
      .completed c v ∈ s.history ∨ c ∈ dequeuedCalls s.history) : RunInv s' := by
  have hsub : dequeuedCalls s.history ⊆ dequeuedCalls s'.history :=
    (hpre.sublist.filterMap _).subset
  refine ⟨fun x hx t c hc => hsub ?_, fun c v hm => hsub ?_⟩
  · rcases hrun x hx t c hc with ⟨y, hy, hyc⟩ | hd
    · exact h.running y hy t c hyc
    · exact hd
  · exact (hcomp c v hm).elim (h.completed c v) id

theorem RunInv.step (h : RunInv s) (hi : PoolInv s F Q) {a : Action κ δ}
    (ht : Transition s a s') : RunInv s' := by
  have hpre := ht.history_prefix
  have hevent : ∀ {e : Event} {c : CallId} {v : Int}, (∀ c v, e ≠ .completed c v) →
      .completed c v ∈ s.history ++ [e] →
      .completed c v ∈ s.history ∨ c ∈ dequeuedCalls s.history := by
    intro e c v he hm
    rw [List.mem_append, List.mem_singleton] at hm
    exact .inl (hm.resolve_right fun heq => he c v heq.symm)
  have hsame : ∀ x ∈ s.threads, ∀ t c, x.pc = .callback t c →
      (∃ y ∈ s.threads, y.pc = .callback t c) ∨ c ∈ dequeuedCalls s.history :=
    fun x hx t c hc => .inl ⟨x, hx, hc⟩
  -- thread `w` goes to `p`
  have hset : ∀ {w : Nat} {x : WorkerThreadPoolContext} {p : WorkerPc},
      s.threads[w]? = some x → (∀ t c, p = .callback t c → c ∈ dequeuedCalls s.history) →
      ∀ y ∈ s.threads.set w { x with pc := p }, ∀ t c, y.pc = .callback t c →
      (∃ y ∈ s.threads, y.pc = .callback t c) ∨ c ∈ dequeuedCalls s.history := by
    intro w x p _ hp y hy t c hc
    rcases List.mem_or_eq_of_mem_set hy with hy | rfl
    · exact hsame y hy t c hc
    · exact .inr (hp t c hc)
  cases ht with
  | @link c a i t s₁ s₂ hidle hcb hlen hacq happ =>
      obtain ⟨-, hhist, hth, -, -⟩ := link_frame hacq happ
      apply h.of_step hpre (fun x hx => hsame x (hth ▸ hx))
      intro c' v hm
      change _ ∈ s₂.history ++ [.linked c] at hm
      rw [hhist] at hm
      exact hevent (by simp) hm
  | reject | postReturn | waitForever | settleCompleted | settlePosted | settleTimeout
  | settleError => exact h.of_step hpre hsame fun c v hm => hevent (by simp) hm
  | postWait | waitTimed | stopPost => exact h.of_step hpre hsame fun c v hm => .inl hm
  | @silent w x p hw hs =>
      refine h.of_step hpre (hset hw ?_) fun c v hm => .inl hm
      intro t c hp
      subst hp
      cases hs
  | dequeue hw => exact h.of_step hpre (hset hw (by simp)) fun c v hm => hevent (by simp) hm
  | @start w x t hw hx hcb =>
      refine h.of_step hpre (hset hw ?_) fun c v hm => hevent (by simp) hm
      intro t' c hp
      cases hp
      exact hi.dequeued_of_held (PoolState.mem_held hw (by simp [hx, WorkerPc.holds]))
  | store hw => exact h.of_step hpre (hset hw (by simp)) fun c v hm => hevent (by simp) hm
  | giveBack hw | complete hw | wake hw =>
      exact h.of_step hpre (hset hw (by simp)) fun c v hm => .inl hm
  | @callbackReturn w x t c v hw hx =>
      apply h.of_step hpre (hset hw (by simp))
      intro c' v' hm
      rcases List.mem_append.mp hm with hm | hm
      · exact .inl hm
      · cases List.mem_singleton.mp hm
        exact .inr (h.running x (List.mem_of_getElem? hw) t c hx)
  | @stop w x hw =>
      refine h.of_step hpre ?_ fun c v hm => .inl hm
      intro y hy t c hc
      rcases List.mem_or_eq_of_mem_set hy with hy | rfl
      · exact .inl ⟨y, hy, hc⟩
      · exact .inl ⟨x, List.mem_of_getElem? hw, hc⟩

/-! ## Accounting -/

structure RecordInv (s : PoolState κ δ) (F Q : List Addr) : Prop where
  pool : PoolInv s F Q
  run : RunInv s
  ordinary : ∀ c t, (s.calls c).pc ≠ .waited t .error
  somewhere : ∀ t < s.allocated,
    t ∈ F ∨ t ∈ Q ∨ t ∈ s.held ∨ ∃ c, (s.calls c).pc.holds = some t

theorem RecordInv.accounted (h : RecordInv s F Q) : Accounted s F Q := by
  refine ⟨h.pool.lists.free, h.pool.lists.pending, h.somewhere, ?_⟩
  intro t hlt v e hc hr hh
  rcases h.somewhere t hlt with hF | hQ | hH | ⟨c, hcall⟩
  · exact hF
  · exact absurd (h.run.completed _ v hc) (h.pool.notMem_dequeued hQ)
  · exact absurd hH hh
  · rw [(h.pool.active c t hcall).call] at hr
    rw [h.pool.labels.calls.reported c e hr] at hcall
    cases hcall

/-- A call that lets go of a record leaves it with the queue or a worker. -/
theorem PoolInv.let_go (h : PoolInv s F Q) {a : Action κ δ} (hok : KeepsRecord s a)
    (ht : Transition s a s') {c : CallId} {t : Addr} (hc : (s.calls c).pc.holds = some t) :
    (s'.calls c).pc.holds = some t ∨ t ∈ Q ∨ t ∈ s.held := by
  have hlive : (s.heap t).completed = false → t ∈ Q ∨ t ∈ s.held := fun hd =>
    (h.active c t hc).somewhere.resolve_left (by rw [hd]; exact Bool.false_ne_true)
  -- a step of call `c'` to `pc`
  have hcall : ∀ {s' : PoolState κ δ} (c' : CallId) (pc : EnqueuePc),
      (∀ c, (s'.calls c).pc = if c = c' then pc else (s.calls c).pc) →
      (c = c' → pc.holds = some t ∨ (s.heap t).completed = false) →
      (s'.calls c).pc.holds = some t ∨ t ∈ Q ∨ t ∈ s.held := by
    intro s' c' pc hpc hself
    rw [hpc]
    split
    · rename_i hcc
      exact (hself hcc).imp_right hlive
    · exact .inl hc
  have hsame : ∀ {t' : Addr} {pc : EnqueuePc}, (s.calls c).pc = pc → pc.holds = some t' →
      t' = t := by
    intro t' pc hpc hh
    rw [hpc, hh] at hc
    exact Option.some.inj hc
  cases ht with
  | @reject c' a i e hidle he =>
      apply hcall c' (.returned e)
      · intro c
        rw [PoolState.returnCall_pc, PoolState.beginCall_pc]
        split <;> rfl
      · intro hcc
        rw [hcc, hidle] at hc
        cases hc
  | @link c' a i t' s₁ s₂ hidle hcb hlen hacq happ =>
      obtain ⟨hcs, -, -, -, -⟩ := link_frame hacq happ
      apply hcall c' (.linked t')
      · intro c
        show ((s₂.setCall c' (.linked t')).calls c).pc = _
        rw [hcs, Function.update_apply]
        split <;> rfl
      · intro hcc
        rw [hcc, hidle] at hc
        cases hc
  | @postReturn c' t' hpc htime =>
      refine hcall c' _ (fun c => PoolState.returnCall_pc _ c' c _) fun hcc => .inr ?_
      subst hcc
      obtain rfl := hsame hpc rfl
      exact hok t' hc htime
  | @postWait c' t' hpc htime =>
      refine hcall c' _ (fun c => PoolState.setCall_pc _ c' c _) fun hcc => .inl ?_
      subst hcc
      exact congrArg some (hsame hpc rfl)
  | @waitForever c' t' e hpc htime hends =>
      refine hcall c' _ (fun c => PoolState.returnCall_pc _ c' c _) fun hcc => .inr ?_
      subst hcc
      obtain rfl := hsame hpc rfl
      exact hok t' hc htime
  | @waitTimed c' t' e hpc htime hends =>
      refine hcall c' _ (fun c => PoolState.setCall_pc _ c' c _) fun hcc => .inl ?_
      subst hcc
      exact congrArg some (hsame hpc rfl)
  | @settleCompleted c' t' e hpc hd =>
      refine hcall c' _ (fun c => PoolState.returnCall_pc _ c' c _) fun hcc => .inr ?_
      subst hcc
      exact hok t hc
  | @settlePosted c' t' hpc hd | @settleTimeout c' t' hpc hd | @settleError c' t' hpc hd =>
      refine hcall c' _ (fun c => PoolState.returnCall_pc _ c' c _) fun hcc => .inr ?_
      subst hcc
      obtain rfl := hsame hpc rfl
      exact hd
  | silent | dequeue | start | store | giveBack | complete | wake | callbackReturn | stop
  | stopPost => exact .inl hc

/-- A call stands behind a wait error only if a wait has ended with one. -/
theorem Transition.waited {a : Action κ δ} (ht : Transition s a s') {c : CallId} {t : Addr}
    {e : WaitResult} (hc : (s'.calls c).pc = .waited t e) :
    (s.calls c).pc = .waited t e ∨ a = .wait c e := by
  have hcall : ∀ {s' : PoolState κ δ} (c' : CallId) (pc : EnqueuePc),
      (∀ c, (s'.calls c).pc = if c = c' then pc else (s.calls c).pc) →
      (∀ t e, pc ≠ .waited t e) → (s'.calls c).pc = .waited t e →
      (s.calls c).pc = .waited t e ∨ a = .wait c e := by
    intro s' c' pc hpc hne hc
    rw [hpc] at hc
    split at hc
    · exact absurd hc (hne t e)
    · exact .inl hc
  cases ht with
  | @reject c' a i e' hidle he =>
      refine hcall c' (.returned e') ?_ (by simp) hc
      intro c
      rw [PoolState.returnCall_pc, PoolState.beginCall_pc]
      split <;> rfl
  | @link c' a i t' s₁ s₂ hidle hcb hlen hacq happ =>
      obtain ⟨hcs, -, -, -, -⟩ := link_frame hacq happ
      refine hcall c' (.linked t') ?_ (by simp) hc
      intro c
      show ((s₂.setCall c' (.linked t')).calls c).pc = _
      rw [hcs, Function.update_apply]
      split <;> rfl
  | @postWait c' t' hpc htime =>
      exact hcall c' _ (fun c => PoolState.setCall_pc _ c' c _) (by simp) hc
  | @waitTimed c' t' e' hpc htime hends =>
      rw [PoolState.setCall_pc] at hc
      split at hc
      · rename_i hcc
        cases hc
        exact .inr (by rw [hcc])
      · exact .inl hc
  | @postReturn c' | @waitForever c' | @settleCompleted c' | @settlePosted c' | @settleTimeout c'
  | @settleError c' => exact hcall c' _ (fun c => PoolState.returnCall_pc _ c' c _) (by simp) hc
  | silent | dequeue | start | store | giveBack | complete | wake | callbackReturn | stop
  | stopPost => exact .inl hc

theorem RecordInv.step (h : RecordInv s F Q) {a : Action κ δ} (hw : OrdinaryWaits s a)
    (hok : KeepsRecord s a) (ht : Transition s a s') : ∃ F' Q', RecordInv s' F' Q' := by
  have hlate : NoLateError s a := by
    cases a with
    | settle c => exact fun t hpc => absurd hpc (h.ordinary c t)
    | _ => trivial
  obtain ⟨F', Q', hi, hflow⟩ := h.pool.flow hlate ht
  refine ⟨F', Q', hi, h.run.step h.pool ht, ?_, ?_⟩
  · intro c t hc
    rcases ht.waited hc with hold | rfl
    · exact h.ordinary c t hold
    · exact hw rfl
  · intro t hlt
    -- a record on a list or with a worker stays there, or its call has it
    have hlisted : t ∈ F ∨ t ∈ Q ∨ t ∈ s.held →
        t ∈ F' ∨ t ∈ Q' ∨ t ∈ s'.held ∨ ∃ c, (s'.calls c).pc.holds = some t := by
      intro hm
      rcases hflow.kept t hm with hstay | ⟨w, x, rfl, hx, hpc, htimed⟩
      · exact hstay.imp_right (Or.imp_right .inl)
      · have hcall := hok x hx t (by simp [hpc, WorkerPc.holds]) hpc htimed
        refine .inr (.inr (.inr ⟨(s.heap t).call, ?_⟩))
        cases ht <;> exact hcall
    rcases hflow.new t hlt with hold | hnew
    · rcases h.somewhere t hold with hF | hQ | hH | ⟨c, hc⟩
      · exact hlisted (.inl hF)
      · exact hlisted (.inr (.inl hQ))
      · exact hlisted (.inr (.inr hH))
      · rcases h.pool.let_go hok ht hc with hkeep | hlive
        · exact .inr (.inr (.inr ⟨c, hkeep⟩))
        · exact hlisted (.inr hlive)
    · exact .inr (.inl hnew)

theorem recordInv_reaches {s₀ : PoolState κ δ} (h₀ : Initial s₀)
    (h : Reaches step (fun s a => OrdinaryWaits s a ∧ KeepsRecord s a) s₀ s) :
    ∃ F Q, RecordInv s F Q := by
  refine h.invariant (I := fun s => ∃ F Q, RecordInv s F Q) ⟨[], [], ?_⟩
    fun _ _ _ ⟨_, _, hi⟩ hok hs => hi.step hok.1 hok.2 (step_transition hs)
  have hpool : PoolInv s₀ [] [] := .initial h₀
  obtain ⟨m, n, rfl⟩ := h₀.eq
  refine ⟨hpool, ⟨?_, by simp⟩, by simp, by simp⟩
  intro x hx t c hc
  rw [List.eq_of_mem_replicate hx] at hc
  cases hc

/-- **No record is lost**, in every run in which waits end by a post or a
timeout, no call returns success after its task has completed, and no task
completes after its call has returned. -/
theorem records_accounted {s₀ : PoolState κ δ} (h₀ : Initial s₀)
    (h : Reaches step (fun s a => OrdinaryWaits s a ∧ KeepsRecord s a) s₀ s) :
    ∃ F Q, Accounted s F Q := by
  obtain ⟨F, Q, hi⟩ := recordInv_reaches h₀ h
  exact ⟨F, Q, hi.accounted⟩

/-- The call times out and the worker gives the record back. -/
def givenBackRun : List (Action Unit Unit) :=
  [.enqueue 0 { callback := some (), timeout := 5 } true, .post 0, .worker 0, .worker 0, .worker 0,
    .wait 0 .timedOut, .settle 0, .callbackReturn 0 7, .worker 0, .worker 0]

theorem records_accounted_givenBackRun :
    ∃ s : PoolState Unit Unit, s.taskPoolFirst = some 0 ∧ ∃ F Q, Accounted s F Q :=
  let hrun : (run step (fun s a => OrdinaryWaits s a ∧ KeepsRecord s a) givenBackRun
    { maxQueueSize := 1, threads := [{}] }).isSome = true := rfl
  ⟨_, rfl, records_accounted ⟨1, 1, rfl⟩ (reaches_get hrun)⟩

/-- A call that waits and finds its task completed leaves its record
nowhere. -/
theorem record_lost :
    ¬ ∀ s₀ s : PoolState Unit Unit, Initial s₀ → Reaches step OrdinaryWaits s₀ s →
      ∃ F Q, Accounted s F Q := by
  intro hall
  have hrun : (run step OrdinaryWaits completedRun
      { maxQueueSize := 1, threads := [{}] }).isSome = true := rfl
  have hreach := reaches_get hrun
  obtain ⟨F, Q, h⟩ := hall _ _ ⟨1, 1, rfl⟩ hreach
  have hF : F = [] := List.head?_eq_none_iff.mp h.free.head.symm
  have hQ : Q = [] := List.head?_eq_none_iff.mp h.pending.head.symm
  rcases h.somewhere 0 (show 0 < 1 by decide) with hm | hm | hm | ⟨c, hc⟩
  · rw [hF] at hm
    cases hm
  · rw [hQ] at hm
    cases hm
  · change 0 ∈ ([] : List Addr) at hm
    cases hm
  · -- only the one call that was linked could hold it, and that has returned
    have hlinked := (callInv_reaches ⟨1, 1, rfl⟩ hreach).recorded c 0 hc
    change c ∈ [0] at hlinked
    obtain rfl := List.mem_singleton.mp hlinked
    cases hc

end CWebServer.WorkerThreadPool
