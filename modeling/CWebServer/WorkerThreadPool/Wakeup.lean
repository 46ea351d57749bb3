import CWebServer.WorkerThreadPool.Calls

/-!
# WorkerThreadPool — Wakeup

No lost wakeup. Workers take tasks with and without having consumed a token
of `tasks_semaphore`, and the post comes after the mutex is released, so
tokens and queue length drift apart. What never fails is one inequality: the
queue is no longer than the tokens that exist, are about to be posted, or
were consumed by a worker that has not looked at the queue since.
-/

namespace CWebServer.WorkerThreadPool

open CWebServer.Lib CWebServer.Runs

variable {κ δ : Type} {s s' : PoolState κ δ}

def EnqueuePc.isLinked : EnqueuePc → Bool
  | .linked _ => true
  | _ => false

/-- Woken by a post, and has not looked at the queue since. -/
def WorkerPc.hasToken : WorkerPc → Bool
  | .woken .posted | .relock .posted => true
  | _ => false

/-- Calls between linking their task and their `sem_post`. -/
def PoolState.pendingPosts (s : PoolState κ δ) : Nat :=
  (linkedCalls s.history).countP fun c => (s.calls c).pc.isLinked

def PoolState.tokensInHand (s : PoolState κ δ) : Nat :=
  s.threads.countP fun x => x.pc.hasToken

/-- `worker_thread_pool_dealloc` has not begun. -/
def BeforeDealloc (_ : PoolState κ δ) : Action κ δ → Prop
  | .stop _ | .stopPost => False
  | _ => True

instance (s : PoolState κ δ) (a : Action κ δ) : Decidable (BeforeDealloc s a) :=
  match a with
  | .stop _ | .stopPost => isFalse id
  | .enqueue .. | .post _ | .wait .. | .settle _ | .worker _ | .wake .. | .callbackReturn .. =>
      isTrue trivial

structure TokenInv (s : PoolState κ δ) : Prop where
  calls : CallInv s
  running : ∀ x ∈ s.threads, x.running = true
  tokens : s.taskPendingLen ≤ s.tasksSemaphore + s.pendingPosts + s.tokensInHand

/-- `pendingPosts` only looks at which calls are linked. -/
theorem pendingPosts_congr (hl : linkedCalls s'.history = linkedCalls s.history)
    (hpc : ∀ c, (s'.calls c).pc.isLinked = (s.calls c).pc.isLinked) :
    s'.pendingPosts = s.pendingPosts := by
  simp only [PoolState.pendingPosts, hl, hpc]

theorem pendingPosts_post (s' : PoolState κ δ) (hc : CallInv s) {c : CallId} {t : Addr}
    {pc : EnqueuePc} (hpc : (s.calls c).pc = .linked t)
    (hl : linkedCalls s'.history = linkedCalls s.history)
    (hpc' : ∀ c', (s'.calls c').pc = if c' = c then pc else (s.calls c').pc)
    (hpost : pc.isLinked = false) : s.pendingPosts = s'.pendingPosts + 1 := by
  simp only [PoolState.pendingPosts, hl]
  apply countP_eq_add_one hc.nodup (a := c)
  · exact hc.recorded c t (by rw [hpc]; rfl)
  · rw [hpc]; rfl
  · simp only [hpc', if_true, hpost]
  · intro b _ hb
    simp only [hpc', if_neg hb]

/-- A thread's step from `x` to `y` changes the tokens in hand by theirs. -/
theorem tokensInHand_setThread (s' : PoolState κ δ) {w : Nat} {x y : WorkerThreadPoolContext}
    (hw : s.threads[w]? = some x) (hs : s'.threads = s.threads.set w y) :
    s'.tokensInHand + (if x.pc.hasToken then 1 else 0)
      = s.tokensInHand + (if y.pc.hasToken then 1 else 0) := by
  simp only [PoolState.tokensInHand, hs]
  exact countP_set_add hw y fun z => z.pc.hasToken

/-- A move of call `c` between states that are not `linked`. -/
theorem isLinked_of_call {c : CallId} {pc : EnqueuePc}
    (hpc' : ∀ c', (s'.calls c').pc = if c' = c then pc else (s.calls c').pc)
    (hold : (s.calls c).pc.isLinked = false) (hnew : pc.isLinked = false) (c' : CallId) :
    (s'.calls c').pc.isLinked = (s.calls c').pc.isLinked := by
  rw [hpc']
  split
  · rename_i h
    rw [h, hold, hnew]
  · rfl

theorem TokenInv.running_setThread (h : TokenInv s) {w : Nat} {x : WorkerThreadPoolContext}
    (p : WorkerPc) (hw : s.threads[w]? = some x) :
    ∀ y ∈ s.threads.set w { x with pc := p }, y.running = true := by
  intro y hy
  rcases List.mem_or_eq_of_mem_set hy with hy | rfl
  · exact h.running y hy
  · exact h.running x (List.mem_of_getElem? hw)

/-- A step of call `c` that leaves queue, tokens and threads alone. -/
theorem TokenInv.of_call (h : TokenInv s) (c : CallId) (pc : EnqueuePc) (hci : CallInv s')
    (hth : s'.threads = s.threads) (hlen : s'.taskPendingLen = s.taskPendingLen)
    (hsem : s'.tasksSemaphore = s.tasksSemaphore)
    (hl : linkedCalls s'.history = linkedCalls s.history)
    (hpc : ∀ c', (s'.calls c').pc = if c' = c then pc else (s.calls c').pc)
    (hold : (s.calls c).pc.isLinked = false) (hnew : pc.isLinked = false) : TokenInv s' := by
  refine ⟨hci, hth ▸ h.running, ?_⟩
  rw [hlen, hsem, pendingPosts_congr hl (isLinked_of_call hpc hold hnew)]
  simp only [PoolState.tokensInHand, hth]
  exact h.tokens

/-- A step of thread `w` that leaves tokens and calls alone. -/
theorem TokenInv.of_thread (h : TokenInv s) {w : Nat} {x : WorkerThreadPoolContext}
    (p : WorkerPc) (hci : CallInv s') (hw : s.threads[w]? = some x)
    (hth : s'.threads = s.threads.set w { x with pc := p })
    (hsem : s'.tasksSemaphore = s.tasksSemaphore) (hcalls : s'.calls = s.calls)
    (hl : linkedCalls s'.history = linkedCalls s.history)
    (hlen : s'.taskPendingLen + (if x.pc.hasToken then 1 else 0)
        ≤ s.taskPendingLen + (if p.hasToken then 1 else 0) ∨ s'.taskPendingLen = 0) :
    TokenInv s' := by
  refine ⟨hci, hth ▸ h.running_setThread p hw, ?_⟩
  have htok := h.tokens
  have htk := tokensInHand_setThread _ hw hth
  simp only at htk
  rw [hsem, pendingPosts_congr hl (by simp [hcalls])]
  omega

/-- The task linked is paid for by the post its call now owes. -/
theorem TokenInv.link (h : TokenInv s) {c : CallId} {a : EnqueueArgs κ δ} {i : Bool} {t : Addr}
    {s₁ s₂ : PoolState κ δ} (hidle : (s.calls c).pc = .idle)
    (hacq : (s.beginCall c a).acquireTask i = .task t s₁)
    (happ : (s₁.fillTask t c a).appendPending t = some s₂)
    (hci : CallInv ((s₂.setCall c (.linked t)).record (.linked c))) :
    TokenInv ((s₂.setCall c (.linked t)).record (.linked c)) := by
  obtain ⟨hcalls, hhist, hth, hsem, hlen⟩ := link_frame hacq happ
  have htok := h.tokens
  have hposts : ((s₂.setCall c (.linked t)).record (.linked c)).pendingPosts
      = s.pendingPosts + 1 := by
    show (linkedCalls (s₂.history ++ [.linked c])).countP
      (fun c' => ((s₂.setCall c (.linked t)).calls c').pc.isLinked) = _
    rw [hhist, hcalls, linkedCalls_snoc, List.countP_append]
    have hold : (linkedCalls s.history).countP
        (fun c' => (Function.update s.calls c ⟨a, .linked t⟩ c').pc.isLinked)
        = s.pendingPosts := by
      apply List.countP_congr
      intro c' hc'
      have hne : c' ≠ c := fun e => h.calls.known c' hc' (e ▸ hidle)
      rw [Function.update_of_ne hne]
    rw [hold]
    simp [EnqueuePc.isLinked]
  have hhand : ((s₂.setCall c (.linked t)).record (.linked c)).tokensInHand
      = s.tokensInHand := congrArg (List.countP _) hth
  refine ⟨hci, ?_, ?_⟩
  · intro x hx
    exact h.running x (hth ▸ hx)
  · rw [hposts, hhand]
    show s₂.taskPendingLen ≤ s₂.tasksSemaphore + _ + _
    omega

/-- A worker woken by a post has the token it consumed in hand. -/
theorem TokenInv.wake (h : TokenInv s) {w : Nat} {x : WorkerThreadPoolContext} {e : WaitResult}
    (hw : s.threads[w]? = some x) (hx : x.pc = .waiting)
    (hends : waitEnds s.tasksSemaphore true e = true)
    (hci : CallInv (({ s with tasksSemaphore := tokensAfter s.tasksSemaphore e }).setThread w
      { x with pc := .woken e })) :
    TokenInv (({ s with tasksSemaphore := tokensAfter s.tasksSemaphore e }).setThread w
      { x with pc := .woken e }) := by
  refine ⟨hci, h.running_setThread (.woken e) hw, ?_⟩
  have htok := h.tokens
  have htk := tokensInHand_setThread
    (({ s with tasksSemaphore := tokensAfter s.tasksSemaphore e }).setThread w
      { x with pc := .woken e }) hw rfl
  rw [hx] at htk
  show s.taskPendingLen ≤ tokensAfter s.tasksSemaphore e + s.pendingPosts + _
  cases e with
  | posted =>
      have hpos : 0 < s.tasksSemaphore := by simpa [waitEnds] using hends
      simp only [WorkerPc.hasToken, tokensAfter] at htk ⊢
      simp only [if_true, Bool.false_eq_true, if_false] at htk
      omega
  | timedOut | error =>
      simp only [WorkerPc.hasToken, tokensAfter] at htk ⊢
      simp only [Bool.false_eq_true, if_false] at htk
      omega

/-- A worker's step on its own: only the look at the queue spends a token. -/
theorem TokenInv.silent (h : TokenInv s) {w : Nat} {x : WorkerThreadPoolContext} {p : WorkerPc}
    (hw : s.threads[w]? = some x) (hs : Silent s x p)
    (hci : CallInv (s.setThread w { x with pc := p })) :
    TokenInv (s.setThread w { x with pc := p }) := by
  apply h.of_thread p hci hw rfl rfl rfl rfl
  cases hs with
  | again hx hr => exact .inl (by rw [hx]; exact Nat.le_refl _)
  | sleep hx hlen => exact .inl (by rw [hx]; exact Nat.le_refl _)
  | @awake e hx hr => exact .inl (by rw [hx]; cases e <;> exact Nat.le_refl _)
  -- the token is spent on an empty queue
  | nothing hx hlen => exact .inr hlen
  -- no worker leaves before `running` is cleared
  | exit hx hr =>
      rw [h.running x (List.mem_of_getElem? hw)] at hr
      cases hr
  | noResult hx hr => exact .inl (by rw [hx]; exact Nat.le_refl _)
  | result hx hr => exact .inl (by rw [hx]; exact Nat.le_refl _)
  | load hx => exact .inl (by rw [hx]; exact Nat.le_refl _)

theorem TokenInv.step (h : TokenInv s) {a : Action κ δ} (hok : BeforeDealloc s a)
    (ht : Transition s a s') : TokenInv s' := by
  have htok := h.tokens
  have hci : CallInv s' := h.calls.step ht
  cases ht with
  | @reject c a i e hidle he =>
      refine h.of_call c (.returned e) hci rfl rfl rfl ?_ ?_ (by rw [hidle]; rfl) rfl
      · simp [PoolState.returnCall, PoolState.record, PoolState.setCall, PoolState.beginCall]
      · intro c'
        rw [PoolState.returnCall_pc, PoolState.beginCall_pc]
        split <;> rfl
  | @link c a i t s₁ s₂ hidle hcb hmax hacq happ =>
      exact h.link hidle hacq happ hci
  | @postReturn c t hpc htime =>
      have hp := pendingPosts_post (({ s with tasksSemaphore := s.tasksSemaphore + 1 }).returnCall
        c workerThreadPoolSuccess) h.calls hpc
        (by simp [PoolState.returnCall, PoolState.record, PoolState.setCall])
        (fun c' => PoolState.returnCall_pc _ c c' _) rfl
      refine ⟨hci, h.running, ?_⟩
      show s.taskPendingLen ≤ (s.tasksSemaphore + 1) + _ + s.tokensInHand
      omega
  | @postWait c t hpc htime =>
      have hp := pendingPosts_post (({ s with tasksSemaphore := s.tasksSemaphore + 1 }).setCall
        c (.waiting t)) h.calls hpc rfl (fun c' => PoolState.setCall_pc _ c c' _) rfl
      refine ⟨hci, h.running, ?_⟩
      show s.taskPendingLen ≤ (s.tasksSemaphore + 1) + _ + s.tokensInHand
      omega
  | @waitForever c t e hpc htime hends =>
      refine h.of_call c (.returned _) hci rfl rfl rfl ?_
        (fun c' => PoolState.returnCall_pc _ c c' _) (by rw [hpc]; rfl) rfl
      simp [PoolState.returnCall, PoolState.record, PoolState.setCall, PoolState.setTask]
  | @waitTimed c t e hpc htime hends =>
      exact h.of_call c (.waited t e) hci rfl rfl rfl rfl
        (fun c' => PoolState.setCall_pc _ c c' _) (by rw [hpc]; rfl) rfl
  | @settleCompleted c t e hpc hdone =>
      refine h.of_call c (.returned _) hci rfl rfl rfl ?_
        (fun c' => PoolState.returnCall_pc _ c c' _) (by rw [hpc]; rfl) rfl
      simp [PoolState.returnCall, PoolState.record, PoolState.setCall]
  | @settlePosted c t hpc hdone =>
      refine h.of_call c (.returned _) hci rfl rfl rfl ?_
        (fun c' => PoolState.returnCall_pc _ c c' _) (by rw [hpc]; rfl) rfl
      simp [PoolState.returnCall, PoolState.record, PoolState.setCall, PoolState.pushTaskPool]
  | @settleTimeout c t hpc hdone =>
      refine h.of_call c (.returned _) hci rfl rfl rfl ?_
        (fun c' => PoolState.returnCall_pc _ c c' _) (by rw [hpc]; rfl) rfl
      simp [PoolState.returnCall, PoolState.record, PoolState.setCall, PoolState.setTask]
  | @settleError c t hpc hdone =>
      refine h.of_call c (.returned _) hci rfl rfl rfl ?_
        (fun c' => PoolState.returnCall_pc _ c c' _) (by rw [hpc]; rfl) rfl
      simp [PoolState.returnCall, PoolState.record, PoolState.setCall, PoolState.pushTaskPool]
  | @silent w x p hw hs =>
      exact h.silent hw hs hci
  | @dequeue w x t hw hx hlen hfirst =>
      refine h.of_thread (.dequeued t) hci hw rfl rfl rfl
        (by simp [PoolState.afterDequeue]) (.inl ?_)
      -- a token in hand pays for the task taken
      show s.taskPendingLen - 1 + _ ≤ s.taskPendingLen + 0
      split <;> omega
  | @start w x t hw hx hcb =>
      refine h.of_thread (.callback t (s.heap t).call) hci hw rfl rfl rfl
        (by simp [PoolState.record, PoolState.setThread]) (.inl ?_)
      rw [hx]
      exact Nat.le_refl _
  | @store w x t v c hw hx =>
      refine h.of_thread (.finish t) hci hw rfl rfl rfl
        (by simp [PoolState.record, PoolState.setThread]) (.inl ?_)
      rw [hx]
      exact Nat.le_refl _
  | @giveBack w x t hw hx htimed =>
      exact h.of_thread .loop hci hw rfl rfl rfl rfl
        (.inl (by rw [hx]; exact Nat.le_refl _))
  | @complete w x t hw hx htimed =>
      exact h.of_thread .loop hci hw rfl rfl rfl rfl
        (.inl (by rw [hx]; exact Nat.le_refl _))
  | @wake w x e hw hx hends =>
      exact h.wake hw hx hends hci
  | @callbackReturn w x t c v hw hx =>
      refine h.of_thread (.testResult t v) hci hw rfl rfl rfl
        (by simp [PoolState.record, PoolState.setThread]) (.inl ?_)
      rw [hx]
      exact Nat.le_refl _
  | stop hw => exact hok.elim
  | stopPost => exact hok.elim

theorem tokenInv_initial (h : Initial s) : TokenInv s := by
  have hcalls := callInv_initial h
  obtain ⟨m, n, rfl⟩ := h.eq
  refine ⟨hcalls, ?_, Nat.zero_le _⟩
  intro x hx
  rw [List.eq_of_mem_replicate hx]

/-- The inequality holds in every run before `worker_thread_pool_dealloc`. -/
theorem tokenInv_reaches {s₀ : PoolState κ δ} (h₀ : Initial s₀)
    (h : Reaches step BeforeDealloc s₀ s) : TokenInv s :=
  h.invariant (tokenInv_initial h₀) fun _ _ _ hi hok hs => hi.step hok (step_transition hs)

/-- **No lost wakeup**: before `worker_thread_pool_dealloc` there is no moment
at which tasks are queued while every worker sleeps, the semaphore has no
token and no enqueuer is about to post one. -/
theorem no_lost_wakeup {s₀ : PoolState κ δ} (h₀ : Initial s₀)
    (h : Reaches step BeforeDealloc s₀ s) :
    ¬ (0 < s.taskPendingLen ∧ (∀ x ∈ s.threads, x.pc = .waiting) ∧ s.tasksSemaphore = 0
      ∧ ∀ c t, (s.calls c).pc ≠ .linked t) := by
  rintro ⟨hlen, hwait, hsem, hpost⟩
  have htok := (tokenInv_reaches h₀ h).tokens
  have hposts : s.pendingPosts = 0 := by
    apply List.countP_eq_zero.mpr
    intro c _
    cases hpc : (s.calls c).pc with
    | linked t => exact absurd hpc (hpost c t)
    | _ => simp [EnqueuePc.isLinked]
  have hhand : s.tokensInHand = 0 := by
    apply List.countP_eq_zero.mpr
    intro x hx
    rw [hwait x hx]
    simp [WorkerPc.hasToken]
  omega

/-- One worker sleeps when a task is linked; its token is posted. -/
def wakeupRun : List (Action Unit Unit) :=
  [.worker 0, .worker 0, .enqueue 0 { callback := some () } true, .post 0]

theorem no_lost_wakeup_wakeupRun :
    ∃ s : PoolState Unit Unit, s.taskPendingLen = 1 ∧ (∀ x ∈ s.threads, x.pc = .waiting)
      ∧ ¬ (0 < s.taskPendingLen ∧ (∀ x ∈ s.threads, x.pc = .waiting)
        ∧ s.tasksSemaphore = 0
        ∧ ∀ c t, (s.calls c).pc ≠ .linked t) :=
  let hrun : (run step BeforeDealloc wakeupRun _).isSome = true := rfl
  ⟨_, rfl, by decide, no_lost_wakeup ⟨1, 1, rfl⟩ (reaches_get hrun)⟩

end CWebServer.WorkerThreadPool
