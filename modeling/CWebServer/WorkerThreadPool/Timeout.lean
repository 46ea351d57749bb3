import CWebServer.WorkerThreadPool.Calls

/-!
# WorkerThreadPool — Timeout

A caller that got `WORKER_THREAD_POOL_ERROR_TIMEOUT` may have left the frame
that its result pointer points into. The enqueuer withdraws the pointer from
the record under the mutex; a worker that has loaded it before stores
through it afterwards. That window is the only one: without it, nothing is
written after a timeout, whatever the lists look like.
-/

namespace CWebServer.WorkerThreadPool

open CWebServer.Runs

variable {κ δ : Type} {s s' : PoolState κ δ}

/-- The location that a worker is about to write. -/
def WorkerPc.storesTo : WorkerPc → Option CallId
  | .storeResult _ _ l => l
  | _ => none

/-- No worker has loaded the pointer that a timeout withdraws. -/
def NoStoreInFlight (s : PoolState κ δ) : Action κ δ → Prop
  | .settle c => ∀ t, (s.calls c).pc = .waited t .timedOut → (s.heap t).completed = false →
      ∀ x ∈ s.threads, x.pc.storesTo ≠ some c
  | _ => True

instance (s : PoolState κ δ) (a : Action κ δ) : Decidable (NoStoreInFlight s a) :=
  match a with
  | .settle c =>
      match h : (s.calls c).pc with
      | .waited t .timedOut =>
          if hd : (s.heap t).completed = false →
            ∀ x ∈ s.threads, x.pc.storesTo ≠ some c then
            isTrue fun t' ht' => by
              rw [h] at ht'
              cases ht'
              exact hd
          else isFalse fun hn => hd (hn t h)
      | .waited t .posted | .waited t .error => isTrue fun t' ht' => by simp [h] at ht'
      | .idle | .linked _ | .waiting _ | .returned _ => isTrue fun t' ht' => by simp [h] at ht'
  | .enqueue .. | .post _ | .wait .. | .worker _ | .wake .. | .callbackReturn .. | .stop _
  | .stopPost => isTrue trivial

/-- Nothing is stored for a call that has timed out before. -/
def NoStoreAfterTimeout (pre : List Event) (e : Event) : Prop :=
  ∀ c v, e = .stored c v → .returned c workerThreadPoolErrorTimeout ∉ pre

/-- A record points to a call's location only while the call holds it, or
after the call has returned for another reason than a timeout. -/
structure TimeoutInv (s : PoolState κ δ) : Prop where
  calls : CallInv s
  result : ∀ t c, (s.heap t).result = some c → (s.calls c).pc.holds = some t
    ∨ ∃ e, (s.calls c).pc = .returned e ∧ e ≠ workerThreadPoolErrorTimeout
  storing : ∀ x ∈ s.threads, ∀ c, x.pc.storesTo = some c →
    (s.calls c).pc ≠ .returned workerThreadPoolErrorTimeout
  past : Past NoStoreAfterTimeout s.history

/-- The pointer that a record holds is not that of a call that timed out. -/
theorem TimeoutInv.result_live (h : TimeoutInv s) {t : Addr} {c : CallId}
    (hr : (s.heap t).result = some c) :
    (s.calls c).pc ≠ .returned workerThreadPoolErrorTimeout := by
  intro hpc
  rcases h.result t c hr with hh | ⟨e, he, hne⟩
  · rw [hpc] at hh
    cases hh
  · rw [hpc] at he
    cases he
    exact hne rfl

/-- A step of call `c` to `pc`. -/
theorem TimeoutInv.of_call (h : TimeoutInv s) {c : CallId} {p : EnqueuePc} (hcalls : CallInv s')
    (hpc : ∀ c', (s'.calls c').pc = if c' = c then p else (s.calls c').pc)
    (hthreads : s'.threads = s.threads)
    (hheap : ∀ t c', (s'.heap t).result = some c' → c' ≠ c → (s.heap t).result = some c')
    (hself : ∀ t, (s'.heap t).result = some c → p.holds = some t
      ∨ ∃ e, p = .returned e ∧ e ≠ workerThreadPoolErrorTimeout)
    (hstore : p = .returned workerThreadPoolErrorTimeout →
      ∀ x ∈ s.threads, x.pc.storesTo ≠ some c)
    (hhist : ∀ c' v, s'.history ≠ s.history ++ [.stored c' v])
    (hsnoc : s'.history = s.history ∨ ∃ e, s'.history = s.history ++ [e]) : TimeoutInv s' := by
  refine ⟨hcalls, ?_, ?_, ?_⟩
  · intro t c' hr
    rw [hpc]
    split
    · rename_i hc
      exact hself t (hc ▸ hr)
    · rename_i hc
      exact h.result t c' (hheap t c' hr hc)
  · intro x hx c' hs
    rw [hthreads] at hx
    rw [hpc]
    split
    · rename_i hc
      intro hp
      exact hstore hp x hx (hc ▸ hs)
    · exact h.storing x hx c' hs
  · rcases hsnoc with hh | ⟨e, hh⟩
    · rw [hh]
      exact h.past
    · rw [hh]
      apply h.past.snoc
      intro c' v he
      exact absurd (he ▸ hh) (hhist c' v)

/-- A worker's step to `p`, which stores nothing. -/
theorem TimeoutInv.of_thread (h : TimeoutInv s) {w : Nat} {x : WorkerThreadPoolContext}
    {p : WorkerPc} (hcalls : CallInv s') (hc : s'.calls = s.calls)
    (hthreads : s'.threads = s.threads.set w { x with pc := p })
    (hheap : ∀ t, (s'.heap t).result = (s.heap t).result)
    (hp : ∀ c, p.storesTo = some c → (s.calls c).pc ≠ .returned workerThreadPoolErrorTimeout)
    (hhist : s'.history = s.history ∨ ∃ e, s'.history = s.history ++ [e] ∧
      NoStoreAfterTimeout s.history e) : TimeoutInv s' := by
  refine ⟨hcalls, ?_, ?_, ?_⟩
  · intro t c hr
    rw [hheap] at hr
    rw [hc]
    exact h.result t c hr
  · intro y hy c hs
    rw [hthreads] at hy
    rw [hc]
    rcases List.mem_or_eq_of_mem_set hy with hy | rfl
    · exact h.storing y hy c hs
    · exact hp c hs
  · rcases hhist with hh | ⟨e, hh, he⟩
    · rw [hh]; exact h.past
    · rw [hh]; exact h.past.snoc he

/-- `return e;` with another code than a timeout. -/
theorem TimeoutInv.returnCall (h : TimeoutInv s) {s₁ : PoolState κ δ} {c : CallId}
    (e : ErrorCode) (hcalls : CallInv (s₁.returnCall c e)) (hth : s₁.threads = s.threads)
    (hh : s₁.history = s.history) (hc : ∀ c', c' ≠ c → (s₁.calls c').pc = (s.calls c').pc)
    (hheap : ∀ t, (s₁.heap t).result = (s.heap t).result)
    (hne : e ≠ workerThreadPoolErrorTimeout) : TimeoutInv (s₁.returnCall c e) := by
  have hhist : (s₁.returnCall c e).history = s.history ++ [.returned c e] := by
    rw [← hh]
    rfl
  refine h.of_call (c := c) (p := .returned e) hcalls ?_ hth
    (fun t c' hr _ => (hheap t).symm.trans hr) (fun t _ => .inr ⟨e, rfl, hne⟩) ?_ ?_
    (.inr ⟨_, hhist⟩)
  · intro c'
    rw [PoolState.returnCall_pc]
    split
    · rfl
    · rename_i hcc
      exact hc c' hcc
  · intro hp
    cases hp
    exact absurd rfl hne
  · intro c' v heq
    rw [hhist] at heq
    cases List.singleton_inj.mp (List.append_cancel_left heq)

/-- A step of the call `c` that keeps its record. -/
theorem TimeoutInv.setCall (h : TimeoutInv s) {s₁ : PoolState κ δ} {c : CallId} {t : Addr}
    {pc : EnqueuePc} (hcalls : CallInv (s₁.setCall c pc)) (hth : s₁.threads = s.threads)
    (hh : s₁.history = s.history) (hc : s₁.calls = s.calls)
    (hheap : ∀ t, (s₁.heap t).result = (s.heap t).result)
    (hold : (s.calls c).pc.holds = some t) (hnew : pc.holds = some t) :
    TimeoutInv (s₁.setCall c pc) := by
  have hhist : (s₁.setCall c pc).history = s.history := hh
  refine h.of_call (c := c) (p := pc) hcalls ?_ hth (fun t c' hr _ => (hheap t).symm.trans hr)
    ?_ ?_ ?_ (.inl hhist)
  · intro c'
    rw [PoolState.setCall_pc, hc]
  · intro t' hr
    apply Or.inl
    rcases h.result t' c ((hheap t').symm.trans hr) with hh' | ⟨e, he, -⟩
    · rw [hold] at hh'
      rw [hnew, hh']
    · rw [he] at hold
      cases hold
  · intro hp
    rw [hp] at hnew
    cases hnew
  · intro c' v heq
    rw [hhist] at heq
    simp at heq

/-- The record that is linked points to its own call. -/
theorem TimeoutInv.link (h : TimeoutInv s) {c : CallId} {a : EnqueueArgs κ δ}
    {i : Bool} {t : Addr} {s₁ s₂ : PoolState κ δ} (hidle : (s.calls c).pc = .idle)
    (hcalls : CallInv ((s₂.setCall c (.linked t)).record (.linked c)))
    (hacq : (s.beginCall c a).acquireTask i = .task t s₁)
    (happ : (s₁.fillTask t c a).appendPending t = some s₂) :
    TimeoutInv ((s₂.setCall c (.linked t)).record (.linked c)) := by
  obtain ⟨hcs, hhist, hth, -, -⟩ := link_frame hacq happ
  obtain ⟨hothers, hself, -⟩ := link_heap hacq happ
  rw [PoolState.fillTask_heap_self] at hself
  have hres : (s₂.heap t).result = if a.callbackResult then some c else none :=
    (WorkerThreadPoolTask.body_eq hself).2.2.1
  have hres' : ∀ t', t' ≠ t → (s₂.heap t').result = (s.heap t').result :=
    fun t' ht' => (WorkerThreadPoolTask.body_eq (hothers t' ht')).2.2.1
  refine h.of_call (c := c) (p := .linked t) hcalls ?_ hth ?_ ?_ (fun hp => by cases hp) ?_
    (.inr ⟨_, congrArg (· ++ [_]) hhist⟩)
  · intro c'
    show ((s₂.setCall c (.linked t)).calls c').pc = _
    rw [hcs]
    by_cases hcc : c' = c
    · subst hcc
      simp
    · simp [hcc]
  · intro t' c' hr hne
    have hr : (s₂.heap t').result = some c' := hr
    by_cases htt : t' = t
    · rw [htt, hres] at hr
      split at hr <;> cases hr
      exact absurd rfl hne
    · rwa [hres' t' htt] at hr
  · -- no other record points to a call that is made only now
    intro t' hr
    have hr : (s₂.heap t').result = some c := hr
    apply Or.inl
    by_cases htt : t' = t
    · rw [htt]
      rfl
    · rw [hres' t' htt] at hr
      rcases h.result t' c hr with hh | ⟨e, he, -⟩
      · rw [hidle] at hh
        cases hh
      · rw [hidle] at he
        cases he
  · intro c' v heq
    have heq : s₂.history ++ [.linked c] = s.history ++ [_] := heq
    rw [hhist] at heq
    cases List.singleton_inj.mp (List.append_cancel_left heq)

/-- A timeout withdraws the call's pointer. -/
theorem TimeoutInv.settleTimeout (h : TimeoutInv s) {c : CallId} {t : Addr}
    (hcalls : CallInv ((s.setTask t { s.heap t with result := none, timedout := true }).returnCall c
      workerThreadPoolErrorTimeout))
    (hpc : (s.calls c).pc = .waited t .timedOut)
    (hok : ∀ x ∈ s.threads, x.pc.storesTo ≠ some c) :
    TimeoutInv ((s.setTask t { s.heap t with result := none, timedout := true }).returnCall c
      workerThreadPoolErrorTimeout) := by
  -- only the call's own record loses its pointer
  have hback : ∀ t' c', (Function.update s.heap t { s.heap t with
      result := none, timedout := true } t').result = some c' →
      t' ≠ t ∧ (s.heap t').result = some c' := by
    intro t' c' hr
    by_cases htt : t' = t
    · rw [htt, Function.update_self] at hr
      cases hr
    · rw [Function.update_of_ne htt] at hr
      exact ⟨htt, hr⟩
  refine h.of_call (c := c) (p := .returned _) hcalls
    (fun c' => PoolState.returnCall_pc _ c c' _) rfl ?_ ?_ (fun _ => hok) ?_ (.inr ⟨_, rfl⟩)
  · intro t' c' hr _
    exact (hback t' c' hr).2
  · intro t' hr
    obtain ⟨htt, hold⟩ := hback t' c hr
    rcases h.result t' c hold with hh | ⟨e, he, -⟩
    · rw [hpc] at hh
      cases hh
      exact absurd rfl htt
    · rw [hpc] at he
      cases he
  · intro c' v heq
    cases List.singleton_inj.mp (List.append_cancel_left heq)

/-- **The step lemma.** -/
theorem TimeoutInv.step (h : TimeoutInv s) {a : Action κ δ} (hok : NoStoreInFlight s a)
    (ht : Transition s a s') : TimeoutInv s' := by
  have hcalls : CallInv s' := h.calls.step ht
  have hset := fun (t : Addr) (x : WorkerThreadPoolTask κ δ) =>
    s.setTask_field (t := t) (x := x) WorkerThreadPoolTask.result
  cases ht with
  | @reject c a i e hidle he =>
      refine h.returnCall e hcalls rfl rfl ?_ (fun _ => rfl) ?_
      · intro c' hc'
        rw [PoolState.beginCall_pc, if_neg hc']
      · rcases he with rfl | rfl <;> decide
  | link hidle hcb hlen hacq happ => exact h.link hidle hcalls hacq happ
  | postReturn hpc htime =>
      exact h.returnCall _ hcalls rfl rfl (fun _ _ => rfl) (fun _ => rfl) (by decide)
  | @postWait c t hpc htime =>
      exact h.setCall (t := t) hcalls rfl rfl rfl (fun _ => rfl) (by rw [hpc]; rfl) rfl
  | waitForever hpc htime hends =>
      exact h.returnCall _ hcalls rfl rfl (fun _ _ => rfl) (hset _ _ rfl) (by decide)
  | @waitTimed c t e hpc htime hends =>
      exact h.setCall (t := t) hcalls rfl rfl rfl (hset _ _ rfl) (by rw [hpc]; rfl) rfl
  | settleCompleted hpc hdone =>
      exact h.returnCall _ hcalls rfl rfl (fun _ _ => rfl) (fun _ => rfl) (by decide)
  | settlePosted hpc hdone | settleError hpc hdone =>
      exact h.returnCall _ hcalls rfl rfl (fun _ _ => rfl) (hset _ _ rfl) (by decide)
  | @settleTimeout c t hpc hdone => exact h.settleTimeout hcalls hpc (hok t hpc hdone)
  | @silent w x p hw hs =>
      refine h.of_thread hcalls rfl rfl (fun _ => rfl) ?_ (.inl rfl)
      intro c hc
      cases hs with
      | load hx => exact h.result_live hc
      | _ => cases hc
  | @dequeue w x t hw hx hlen hfirst =>
      refine h.of_thread hcalls rfl rfl (fun _ => rfl) (fun c hc => by cases hc)
        (.inr ⟨_, rfl, fun c v he => by cases he⟩)
  | @start w x t hw hx hcb =>
      refine h.of_thread hcalls rfl rfl (fun _ => rfl) (fun c hc => by cases hc)
        (.inr ⟨_, rfl, fun c v he => by cases he⟩)
  | @store w x t v c hw hx =>
      refine h.of_thread hcalls rfl rfl (fun _ => rfl) (fun c hc => by cases hc)
        (.inr ⟨_, rfl, ?_⟩)
      intro c' v' he
      cases he
      intro hm
      have hlive := h.storing x (List.mem_of_getElem? hw) c (by rw [hx]; rfl)
      exact hlive (h.calls.reported c _ hm)
  | @giveBack w x t hw hx htimed =>
      exact h.of_thread hcalls rfl rfl (hset _ _ rfl) (fun c hc => by cases hc) (.inl rfl)
  | @complete w x t hw hx htimed =>
      exact h.of_thread hcalls rfl rfl (hset _ _ rfl) (fun c hc => by cases hc) (.inl rfl)
  | @wake w x e hw hx hends =>
      exact h.of_thread hcalls rfl rfl (fun _ => rfl) (fun c hc => by cases hc) (.inl rfl)
  | @callbackReturn w x t c v hw hx =>
      refine h.of_thread hcalls rfl rfl (fun _ => rfl) (fun c hc => by cases hc)
        (.inr ⟨_, rfl, fun c v he => by cases he⟩)
  | @stop w x hw =>
      refine ⟨hcalls, h.result, ?_, h.past⟩
      intro y hy c hs
      rcases List.mem_or_eq_of_mem_set hy with hy | rfl
      · exact h.storing y hy c hs
      · exact h.storing x (List.mem_of_getElem? hw) c hs
  | stopPost => exact ⟨hcalls, h.result, h.storing, h.past⟩

theorem timeoutInv_reaches {s₀ : PoolState κ δ} (h₀ : Initial s₀)
    (h : Reaches step NoStoreInFlight s₀ s) : TimeoutInv s := by
  refine h.invariant ?_ fun _ _ _ hi hok hs => hi.step hok (step_transition hs)
  have hcalls := callInv_initial h₀
  obtain ⟨m, n, rfl⟩ := h₀.eq
  refine ⟨hcalls, by simp, ?_, .nil⟩
  intro x hx c hc
  rw [List.eq_of_mem_replicate hx] at hc
  cases hc

/-- **No store after a timeout**: in every run in which no call times out
while a worker has its location in hand, nothing is written to a location
after the call that passed it has returned
`WORKER_THREAD_POOL_ERROR_TIMEOUT`. -/
theorem no_store_after_timeout {s₀ : PoolState κ δ} (h₀ : Initial s₀)
    (h : Reaches step NoStoreInFlight s₀ s) : Past NoStoreAfterTimeout s.history :=
  (timeoutInv_reaches h₀ h).past

/-- The call times out while its callback runs. -/
def timedOutRun : List (Action Unit Unit) :=
  [.enqueue 0 { callback := some (), callbackResult := true, timeout := 5 } true, .post 0,
    .worker 0, .worker 0, .worker 0, .wait 0 .timedOut, .settle 0, .callbackReturn 0 7, .worker 0,
    .worker 0]

theorem no_store_after_timeout_timedOutRun :
    ∃ s : PoolState Unit Unit, .returned 0 workerThreadPoolErrorTimeout ∈ s.history
      ∧ Past NoStoreAfterTimeout s.history :=
  let hrun : (run step NoStoreInFlight timedOutRun { maxQueueSize := 1, threads := [{}] }).isSome
    = true := rfl
  let hmem : Event.returned 0 2 ∈ [.linked 0, .dequeued 0, .started 0, .returned 0 2,
    .completed 0 7] := by decide
  ⟨_, hmem, no_store_after_timeout ⟨1, 1, rfl⟩ (reaches_get hrun)⟩

/-- The call times out between the worker's load of `task->result` and its
store. -/
def lateStoreRun : List (Action Unit Unit) :=
  [.enqueue 0 { callback := some (), callbackResult := true, timeout := 5 } true, .post 0,
    .worker 0, .worker 0, .worker 0, .callbackReturn 0 7, .worker 0, .worker 0,
    .wait 0 .timedOut, .settle 0, .worker 0]

theorem store_after_timeout :
    ¬ ∀ s₀ s : PoolState Unit Unit, Initial s₀ → Reaches step Always s₀ s →
      Past NoStoreAfterTimeout s.history := by
  intro hall
  have hrun : (run step Always lateStoreRun { maxQueueSize := 1, threads := [{}] }).isSome
    = true := rfl
  exact hall _ _ ⟨1, 1, rfl⟩ (reaches_get hrun)
    [.linked 0, .dequeued 0, .started 0, .completed 0 7, .returned 0 2] (.stored 0 7) [] rfl 0 7 rfl
    (by decide)

end CWebServer.WorkerThreadPool
