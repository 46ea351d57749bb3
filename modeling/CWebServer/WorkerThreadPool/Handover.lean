import CWebServer.WorkerThreadPool.Invariant

/-!
# WorkerThreadPool — Handover

What the pool is to its callers: a queue of jobs, each named by the call that
passed it. A call is refused, or its job waits until one worker takes it,
starts it and finishes it. As long as no enqueuer takes a record back too
early, every step of the pool is a step of this machine; and as long as none
gives up a task that is not complete, a call succeeds exactly if its job was
accepted.
-/

namespace CWebServer.WorkerThreadPool

open CWebServer.Lib CWebServer.Runs

variable {κ δ : Type} {s s' : PoolState κ δ} {F Q : List Addr}

/-- What a worker has to do with a job. -/
inductive Phase
  | idle
  | taken (c : CallId)
  | running (c : CallId)
deriving DecidableEq, Repr

/-- The jobs that wait, in order, and those in the workers' hands. -/
structure Jobs where
  pending : List CallId
  phase : Nat → Phase

/-- A step, as the jobs see it. -/
inductive Handover : Jobs → Action κ δ → Jobs → Prop
  | quiet {j a} : Handover j a j
  | accept {j c a i} : Handover j (.enqueue c a i) { j with pending := j.pending ++ [c] }
  | take {c rest phase w} : phase w = .idle →
      Handover ⟨c :: rest, phase⟩ (.worker w) ⟨rest, Function.update phase w (.taken c)⟩
  | start {j w c} : j.phase w = .taken c →
      Handover j (.worker w) { j with phase := Function.update j.phase w (.running c) }
  | finish {j w v c} : j.phase w = .running c →
      Handover j (.callbackReturn w v) { j with phase := Function.update j.phase w .idle }

/-! ## The jobs of a pool -/

/-- The jobs accepted and not taken yet. -/
def pendingCalls (h : List Event) : List CallId :=
  (linkedCalls h).drop (dequeuedCalls h).length

def WorkerPc.phase (heap : Addr → WorkerThreadPoolTask κ δ) : WorkerPc → Phase
  | .dequeued t => .taken (heap t).call
  | .callback _ c => .running c
  | _ => .idle

def PoolState.phase (s : PoolState κ δ) (w : Nat) : Phase :=
  match s.threads[w]? with
  | some x => x.pc.phase s.heap
  | none => .idle

def PoolState.jobs (s : PoolState κ δ) : Jobs := ⟨pendingCalls s.history, s.phase⟩

theorem pendingCalls_snoc (h : List Event) (e : Event)
    (hle : (dequeuedCalls h).length ≤ (linkedCalls h).length) :
    pendingCalls (h ++ [e]) =
      match e with
      | .linked c => pendingCalls h ++ [c]
      | .dequeued _ => (pendingCalls h).tail
      | _ => pendingCalls h := by
  cases e with
  | linked c =>
      simp only [pendingCalls, linkedCalls_snoc, dequeuedCalls_snoc]
      exact List.drop_append_of_le_length hle
  | dequeued c => simp [pendingCalls]
  | _ => simp [pendingCalls]

/-- A step that links and dequeues nothing. -/
theorem pendingCalls_congr (hl : linkedCalls s'.history = linkedCalls s.history)
    (hd : dequeuedCalls s'.history = dequeuedCalls s.history) :
    pendingCalls s'.history = pendingCalls s.history := by
  simp only [pendingCalls, hl, hd]

theorem PoolInv.pendingCalls_eq (h : PoolInv s F Q) :
    pendingCalls s.history = Q.map fun t => (s.heap t).call := by
  rw [pendingCalls, h.fifo, List.drop_left']
  rfl

theorem PoolInv.dequeued_le_linked (h : PoolInv s F Q) :
    (dequeuedCalls s.history).length ≤ (linkedCalls s.history).length := by
  rw [h.fifo, List.length_append]
  exact Nat.le_add_right _ _

/-- The label of a record in a worker's hands stays. -/
theorem Transition.held_label (hl : ListInv s F Q) {a : Action κ δ} (ht : Transition s a s')
    {t' : Addr} (hheld : t' ∈ s.held) : (s'.heap t').call = (s.heap t').call := by
  cases ht with
  | @link c a i t s₁ s₂ hidle hcb hmax hacq happ =>
      have hlists : ListInv (s.beginCall c a) F Q := hl.congr (fun _ => rfl) rfl rfl
      obtain ⟨F', hfresh⟩ := PoolState.acquireTask_spec hlists hacq
      obtain ⟨hothers, -, -⟩ := link_heap hacq happ
      have hne : t' ≠ t := fun he => hfresh.notHeld (he ▸ hheld)
      exact (WorkerThreadPoolTask.body_eq (hothers t' hne)).2.2.2.2.2.2
  | waitForever | waitTimed | settlePosted | settleTimeout | settleError | giveBack | complete =>
      exact apply_update_of_eq WorkerThreadPoolTask.call (by rfl) t'
  | reject | postReturn | postWait | settleCompleted | silent | dequeue | start | store | wake
  | callbackReturn | stop | stopPost => rfl

/-- Steps that change no thread. -/
theorem phase_congr (hth : s'.threads = s.threads)
    (hlabel : ∀ t' ∈ s.held, (s'.heap t').call = (s.heap t').call) : s'.phase = s.phase := by
  funext w
  simp only [PoolState.phase, hth]
  cases hw : s.threads[w]? with
  | none => rfl
  | some x =>
      cases hx : x.pc with
      | dequeued t =>
          have hheld : t ∈ s.held := PoolState.mem_held hw (by simp [hx, WorkerPc.holds])
          simp only [hx, WorkerPc.phase, hlabel t hheld]
      | _ => simp only [hx, WorkerPc.phase]

/-- A step of one thread. -/
theorem phase_setThread {w : Nat} {x y : WorkerThreadPoolContext} (hw : s.threads[w]? = some x)
    (hth : s'.threads = s.threads.set w y)
    (hlabel : ∀ t' ∈ s.held, (s'.heap t').call = (s.heap t').call) :
    s'.phase = Function.update s.phase w (y.pc.phase s'.heap) := by
  have hlt : w < s.threads.length := (List.getElem?_eq_some_iff.mp hw).1
  funext w'
  by_cases hww : w' = w
  · subst hww
    rw [Function.update_self]
    simp only [PoolState.phase, hth, List.getElem?_set_self hlt]
  · have hsame : { s' with threads := s.threads }.phase = s.phase := phase_congr rfl hlabel
    rw [Function.update_of_ne hww, ← hsame]
    simp only [PoolState.phase, hth, List.getElem?_set_ne (Ne.symm hww)]

theorem phase_initial (h₀ : Initial s) (w : Nat) : s.phase w = .idle := by
  obtain ⟨m, n, rfl⟩ := h₀.eq
  simp only [PoolState.phase]
  split
  · rename_i x hw
    rw [List.eq_of_mem_replicate (List.mem_of_getElem? hw)]
    rfl
  · rfl

theorem PoolState.phase_eq {w : Nat} {x : WorkerThreadPoolContext} (hw : s.threads[w]? = some x) :
    s.phase w = x.pc.phase s.heap := by
  simp only [PoolState.phase, hw]

/-- **Every step is one of the job queue.** -/
theorem PoolInv.handover (h : PoolInv s F Q) {a : Action κ δ} (ht : Transition s a s') :
    Handover s.jobs a s'.jobs := by
  have hle := h.dequeued_le_linked
  have hlabel : ∀ t' ∈ s.held, (s'.heap t').call = (s.heap t').call :=
    fun t' => ht.held_label h.lists
  -- nothing is linked or dequeued, and no thread moves
  have hcall : s'.threads = s.threads → linkedCalls s'.history = linkedCalls s.history →
      dequeuedCalls s'.history = dequeuedCalls s.history → Handover s.jobs a s'.jobs := by
    intro hth hl hd
    have heq : s'.jobs = s.jobs := by
      rw [PoolState.jobs, PoolState.jobs, pendingCalls_congr hl hd, phase_congr hth hlabel]
    rw [heq]
    exact .quiet
  -- one thread moves
  have hthread : ∀ {w : Nat} {x y : WorkerThreadPoolContext}, s.threads[w]? = some x →
      s'.threads = s.threads.set w y → linkedCalls s'.history = linkedCalls s.history →
      dequeuedCalls s'.history = dequeuedCalls s.history →
      s'.jobs = ⟨s.jobs.pending, Function.update s.jobs.phase w (y.pc.phase s'.heap)⟩ := by
    intro w x y hw hth hl hd
    rw [PoolState.jobs, PoolState.jobs, pendingCalls_congr hl hd, phase_setThread hw hth hlabel]
  -- one thread moves and its phase is the same
  have hquiet : ∀ {w : Nat} {x y : WorkerThreadPoolContext}, s.threads[w]? = some x →
      s'.threads = s.threads.set w y → linkedCalls s'.history = linkedCalls s.history →
      dequeuedCalls s'.history = dequeuedCalls s.history →
      y.pc.phase s'.heap = x.pc.phase s.heap → Handover s.jobs a s'.jobs := by
    intro w x y hw hth hl hd hp
    have heq := hthread hw hth hl hd
    rw [hp, ← PoolState.phase_eq hw, show s.jobs.phase = s.phase from rfl,
      Function.update_eq_self] at heq
    rw [heq]
    exact .quiet
  cases ht with
  | reject | postReturn | waitForever | settleCompleted | settlePosted | settleTimeout
  | settleError => exact hcall rfl (linkedCalls_snoc _ _) (dequeuedCalls_snoc _ _)
  | postWait | waitTimed | stopPost => exact hcall rfl rfl rfl
  | @link c a i t s₁ s₂ hidle hcb hmax hacq happ =>
      obtain ⟨-, hhist, hth, -, -⟩ := link_frame hacq happ
      have heq : ((s₂.setCall c (.linked t)).record (.linked c)).jobs
          = { s.jobs with pending := s.jobs.pending ++ [c] } := by
        have hphase : ((s₂.setCall c (.linked t)).record (.linked c)).phase = s.phase :=
          phase_congr hth hlabel
        show Jobs.mk (pendingCalls (s₂.history ++ [.linked c])) _ = _
        rw [hphase, hhist, pendingCalls_snoc _ _ hle]
        rfl
      rw [heq]
      exact .accept
  | @silent w x p hw hs =>
      apply hquiet hw rfl rfl rfl
      cases hs with
      | exit hx hrun =>
          rcases hx with hx | ⟨e, hx⟩ <;> rw [hx] <;> rfl
      | again hx _ | sleep hx _ | awake hx _ | nothing hx _ | noResult hx _ | result hx _
      | load hx => rw [hx]; rfl
  | @dequeue w x t hw hx hlen hfirst =>
      have hidle : s.phase w = .idle := by
        rw [PoolState.phase_eq hw]
        rcases hx with hx | ⟨e, hx⟩ <;> rw [hx] <;> rfl
      obtain ⟨Q', rfl, -⟩ := (hfirst ▸ h.lists.pending).pop
      have hpending := h.pendingCalls_eq
      have hnext : pendingCalls (s.afterDequeue w x t).history
          = Q'.map fun t => (s.heap t).call := by
        show pendingCalls (s.history ++ [.dequeued (s.heap t).call]) = _
        rw [pendingCalls_snoc _ _ hle, hpending]
        rfl
      rw [PoolState.jobs, PoolState.jobs, hpending, hnext, phase_setThread hw rfl hlabel,
        List.map_cons]
      exact .take hidle
  | @start w x t hw hx hcb =>
      have hphase : s.jobs.phase w = .taken (s.heap t).call := by
        show s.phase w = _
        rw [PoolState.phase_eq hw, hx]
        rfl
      rw [hthread hw rfl (linkedCalls_snoc _ _) (dequeuedCalls_snoc _ _)]
      exact .start hphase
  | @callbackReturn w x t c v hw hx =>
      have hphase : s.jobs.phase w = .running c := by
        show s.phase w = _
        rw [PoolState.phase_eq hw, hx]
        rfl
      rw [hthread hw rfl (linkedCalls_snoc _ _) (dequeuedCalls_snoc _ _)]
      exact .finish hphase
  | store hw hx =>
      exact hquiet hw rfl (linkedCalls_snoc _ _) (dequeuedCalls_snoc _ _) (by rw [hx]; rfl)
  | giveBack hw hx htimed | complete hw hx htimed | wake hw hx hends =>
      exact hquiet hw rfl rfl rfl (by rw [hx]; rfl)
  | @stop w x hw =>
      apply hquiet hw rfl rfl rfl
      cases x
      rfl

/-! ## How calls end -/

/-- No enqueuer gives up a task that is not complete: when its wait did not
end by a post, it finds `completed` set. -/
def NoEarlySettle (s : PoolState κ δ) : Action κ δ → Prop
  | .settle c => ∀ t e, (s.calls c).pc = .waited t e → e ≠ .posted →
      (s.heap t).completed = true
  | _ => True

instance (s : PoolState κ δ) (a : Action κ δ) : Decidable (NoEarlySettle s a) :=
  match a with
  | .settle c =>
      match h : (s.calls c).pc with
      | .waited t e =>
          if hd : e ≠ .posted → (s.heap t).completed = true then
            isTrue fun t' e' ht' => by
              rw [h] at ht'
              cases ht'
              exact hd
          else isFalse fun hn => hd (hn t e h)
      | .idle | .linked _ | .waiting _ | .returned _ => isTrue fun t' e' ht' => by simp [h] at ht'
  | .enqueue .. | .post _ | .wait .. | .worker _ | .wake .. | .callbackReturn .. | .stop _
  | .stopPost => isTrue trivial

theorem NoEarlySettle.noLateError {a : Action κ δ} (h : NoEarlySettle s a) : NoLateError s a := by
  cases a with
  | settle c => exact fun t ht => h t .error ht (by decide)
  | _ => trivial

/-- A call that has returned has succeeded exactly if its job was accepted. -/
structure OutcomeInv (s : PoolState κ δ) : Prop where
  pool : ∃ F Q, PoolInv s F Q
  ended : ∀ c e, (s.calls c).pc = .returned e →
    (e = workerThreadPoolSuccess ↔ c ∈ linkedCalls s.history)

theorem OutcomeInv.step (h : OutcomeInv s) {a : Action κ δ} (hok : NoEarlySettle s a)
    (ht : Transition s a s') : OutcomeInv s' := by
  obtain ⟨F, Q, hpool⟩ := h.pool
  refine ⟨hpool.step hok.noLateError ht, ?_⟩
  have hcalls := hpool.labels.calls
  -- a call that ends with success has been linked
  have hsuccess : ∀ {s' : PoolState κ δ} {c : CallId} {t : Addr},
    (s.calls c).pc.holds = some t →
      (∀ c', (s'.calls c').pc = if c' = c then .returned workerThreadPoolSuccess
        else (s.calls c').pc) → linkedCalls s'.history = linkedCalls s.history →
      ∀ c' e, (s'.calls c').pc = .returned e →
        (e = workerThreadPoolSuccess ↔ c' ∈ linkedCalls s'.history) := by
    intro s' c t ht hpc hl c' e he
    rw [hpc] at he
    rw [hl]
    split at he
    · rename_i hcc
      cases he
      exact iff_of_true rfl (hcc ▸ hcalls.recorded c t ht)
    · exact h.ended c' e he
  -- nothing is linked and no call ends
  have hkeep : ∀ {s' : PoolState κ δ},
      (∀ c e, (s'.calls c).pc = .returned e → (s.calls c).pc = .returned e) →
      linkedCalls s'.history = linkedCalls s.history → ∀ c e, (s'.calls c).pc = .returned e →
        (e = workerThreadPoolSuccess ↔ c ∈ linkedCalls s'.history) := by
    intro s' hpc hl c e he
    rw [hl]
    exact h.ended c e (hpc c e he)
  have hmove : ∀ {s' : PoolState κ δ} {c : CallId} {p : EnqueuePc},
    (∀ e, p ≠ .returned e) →
      (∀ c', (s'.calls c').pc = if c' = c then p else (s.calls c').pc) →
      ∀ c' e, (s'.calls c').pc = .returned e → (s.calls c').pc = .returned e := by
    intro s' c p hp hpc c' e he
    rw [hpc] at he
    split at he
    · exact absurd he (hp e)
    · exact he
  cases ht with
  | @reject c a i code hidle he =>
      intro c' e hc'
      rw [PoolState.returnCall_pc, PoolState.beginCall_pc] at hc'
      show _ ↔ c' ∈ linkedCalls (s.history ++ [.returned c code])
      rw [linkedCalls_snoc]
      split at hc'
      · rename_i hcc
        cases hc'
        have hunlinked : c' ∉ linkedCalls s.history := fun hm =>
          hcalls.known c' hm (hcc ▸ hidle)
        rcases he with rfl | rfl <;> exact iff_of_false (by decide) hunlinked
      · exact h.ended c' e hc'
  | @link c a i t s₁ s₂ hidle hcb hmax hacq happ =>
      obtain ⟨hcs, hhist, -, -, -⟩ := link_frame hacq happ
      intro c' e hc'
      change ((s₂.setCall c (.linked t)).calls c').pc = _ at hc'
      show _ ↔ c' ∈ linkedCalls (s₂.history ++ [.linked c])
      rw [hcs] at hc'
      rw [hhist, linkedCalls_snoc]
      by_cases hcc : c' = c
      · subst hcc
        rw [Function.update_self] at hc'
        cases hc'
      · rw [Function.update_of_ne hcc] at hc'
        rw [h.ended c' e hc']
        simp [hcc]
  | postReturn hpc htime | waitForever hpc htime hends =>
      exact hsuccess (by rw [hpc]; rfl) (fun c' => PoolState.returnCall_pc _ _ c' _)
        (linkedCalls_snoc _ _)
  | settleCompleted hpc hdone | settlePosted hpc hdone =>
      exact hsuccess (by rw [hpc]; rfl) (fun c' => PoolState.returnCall_pc _ _ c' _)
        (linkedCalls_snoc _ _)
  | settleTimeout hpc hdone | settleError hpc hdone =>
      rw [hok _ _ hpc (by decide)] at hdone
      cases hdone
  | postWait hpc htime =>
      exact hkeep (hmove (by simp) fun c' => PoolState.setCall_pc _ _ c' _) rfl
  | waitTimed hpc htime hends =>
      exact hkeep (hmove (by simp) fun c' => PoolState.setCall_pc _ _ c' _) rfl
  | silent | giveBack | complete | wake | stop | stopPost => exact hkeep (fun _ _ => id) rfl
  | dequeue | start | store | callbackReturn =>
      exact hkeep (fun _ _ => id) (linkedCalls_snoc _ _)

theorem outcomeInv_initial (h₀ : Initial s) : OutcomeInv s := by
  refine ⟨⟨[], [], .initial h₀⟩, ?_⟩
  obtain ⟨m, n, rfl⟩ := h₀.eq
  simp

end CWebServer.WorkerThreadPool
