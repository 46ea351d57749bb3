import CWebServer.WorkerThreadPool.Calls

/-!
# WorkerThreadPool — Invariant

What holds of the pool as long as no enqueuer takes back a record that a
worker may still get. The only step that does so is the second critical
section of the timed form after a wait that ended with another error than
`ETIMEDOUT`, on a task that has not completed. Runs without that step keep
the two lists intact, and each record in one place.
-/

namespace CWebServer.WorkerThreadPool

open CWebServer.Lib CWebServer.Runs

variable {κ δ : Type} {s s' : PoolState κ δ} {F Q : List Addr}

/-- After a wait error, the enqueuer finds its task completed. -/
def NoLateError (s : PoolState κ δ) : Action κ δ → Prop
  | .settle c => ∀ t, (s.calls c).pc = .waited t .error → (s.heap t).completed = true
  | _ => True

instance (s : PoolState κ δ) (a : Action κ δ) : Decidable (NoLateError s a) :=
  match a with
  | .settle c =>
      match h : (s.calls c).pc with
      | .waited t .error =>
          if hd : (s.heap t).completed = true then
            isTrue fun t' ht' => by
              rw [h] at ht'
              cases ht'
              exact hd
          else isFalse fun hn => hd (hn t h)
      | .waited t .posted | .waited t .timedOut => isTrue fun t' ht' => by simp [h] at ht'
      | .idle | .linked _ | .waiting _ | .returned _ => isTrue fun t' ht' => by simp [h] at ht'
  | .enqueue .. | .post _ | .wait .. | .worker _ | .wake .. | .callbackReturn .. | .stop _
  | .stopPost => isTrue trivial

/-- The record `t` that call `c` has not let go of. -/
structure Active (s : PoolState κ δ) (F Q : List Addr) (c : CallId) (t : Addr) : Prop where
  lt : t < s.allocated
  notFree : t ∉ F
  call : (s.heap t).call = c
  timedout : (s.heap t).timedout = false
  somewhere : (s.heap t).completed = true ∨ t ∈ Q ∨ t ∈ s.held

structure PoolInv (s : PoolState κ δ) (F Q : List Addr) : Prop where
  labels : LabelInv s
  lists : ListInv s F Q
  live : ∀ t, t ∈ Q ∨ t ∈ s.held →
    (s.heap t).completed = false ∧ (s.heap t).semaphore = 0
  freeSem : ∀ t ∈ F, (s.heap t).semaphore = 0
  active : ∀ c t, (s.calls c).pc.holds = some t → Active s F Q c t
  waited : ∀ c t, (s.calls c).pc = .waited t .posted → (s.heap t).completed = true
  fifo : linkedCalls s.history
    = dequeuedCalls s.history ++ Q.map fun t => (s.heap t).call

/-- The step in which a worker marks the task of `t` as completed. -/
def Completes (s : PoolState κ δ) (a : Action κ δ) (t : Addr) : Prop :=
  ∃ w x, a = .worker w ∧ s.threads[w]? = some x ∧ x.pc = .finish t
    ∧ (s.heap t).timedout = false

/-- Where the records go in one step: none leaves the lists and the workers'
hands unless its task completes, and a new one is queued. -/
structure Flow (s s' : PoolState κ δ) (a : Action κ δ) (F Q F' Q' : List Addr) : Prop where
  kept : ∀ t, t ∈ F ∨ t ∈ Q ∨ t ∈ s.held →
    (t ∈ F' ∨ t ∈ Q' ∨ t ∈ s'.held) ∨ Completes s a t
  new : ∀ t < s'.allocated, t < s.allocated ∨ t ∈ Q'

theorem Flow.refl {a : Action κ δ} (hheld : s'.held = s.held)
    (halloc : s'.allocated = s.allocated) : Flow s s' a F Q F Q :=
  ⟨fun _ ht => .inl (by rw [hheld]; exact ht), fun _ ht => .inl (halloc ▸ ht)⟩

namespace PoolInv

/-- Two calls never hold the same record. -/
theorem active_unique (h : PoolInv s F Q) {c c' : CallId} {t : Addr}
    (hc : (s.calls c).pc.holds = some t) (hc' : (s.calls c').pc.holds = some t) : c = c' :=
  (h.active c t hc).call.symm.trans (h.active c' t hc').call

/-- A post on a task's semaphore means that the task has completed. -/
theorem completed_of_token (h : PoolInv s F Q) {c : CallId} {t : Addr}
    (hc : (s.calls c).pc.holds = some t) (hsem : 0 < (s.heap t).semaphore) :
    (s.heap t).completed = true := by
  rcases (h.active c t hc).somewhere with hdone | hlive
  · exact hdone
  · have := (h.live t hlive).2
    omega

theorem allocated_eq (h : s'.listFields = s.listFields) : s'.allocated = s.allocated := by
  simp only [PoolState.listFields, Prod.mk.injEq] at h
  exact h.2.2.2.2.2.2

/-! ## The enqueuer's steps after linking -/

/-- A step of call `c` that keeps its record or lets go of it, and at most
takes a token from its semaphore or marks it as timed out. -/
theorem of_call (h : PoolInv s F Q) {c : CallId} {p : EnqueuePc} (hlabels : LabelInv s')
    (hpc : ∀ c', (s'.calls c').pc = if c' = c then p else (s.calls c').pc)
    (hfields : s'.listFields = s.listFields) (hthreads : s'.threads = s.threads)
    (hlinked : linkedCalls s'.history = linkedCalls s.history)
    (hdequeued : dequeuedCalls s'.history = dequeuedCalls s.history)
    (hheap : ∀ t, (s'.heap t).next = (s.heap t).next ∧ (s'.heap t).call = (s.heap t).call
      ∧ (s'.heap t).completed = (s.heap t).completed
      ∧ (s'.heap t).semaphore ≤ (s.heap t).semaphore)
    (htimed : ∀ t, (s'.heap t).timedout = (s.heap t).timedout
      ∨ (s.calls c).pc.holds = some t ∧ p.holds = none)
    (hholds : p.holds = none ∨ p.holds = (s.calls c).pc.holds)
    (hwaited : ∀ t, p = .waited t .posted → (s.heap t).completed = true) :
    PoolInv s' F Q := by
  have hheld : s'.held = s.held := by simp only [PoolState.held, hthreads]
  have hcompleted := fun t => (hheap t).2.2.1
  have halloc := allocated_eq hfields
  -- a call that holds a record in `s'` held it in `s`
  have hback : ∀ c' t, (s'.calls c').pc.holds = some t →
      (s.calls c').pc.holds = some t ∧ (c' = c → p.holds = some t) := by
    intro c' t ht
    rw [hpc] at ht
    split at ht
    · rename_i hc
      subst hc
      rcases hholds with hn | hs
      · rw [hn] at ht
        cases ht
      · exact ⟨hs ▸ ht, fun _ => ht⟩
    · rename_i hc
      exact ⟨ht, fun he => absurd he hc⟩
  refine ⟨hlabels, h.lists.congr (fun t => (hheap t).1) hfields hheld, ?_, ?_, ?_, ?_, ?_⟩
  · intro t ht
    rw [hheld] at ht
    obtain ⟨hdone, hsem⟩ := h.live t ht
    have hle := (hheap t).2.2.2
    exact ⟨(hcompleted t).trans hdone, by omega⟩
  · intro t ht
    have hsem := h.freeSem t ht
    have hle := (hheap t).2.2.2
    omega
  · intro c' t ht
    obtain ⟨hold, hkeep⟩ := hback c' t ht
    obtain ⟨hlt, hfree, hcall, htime, hsome⟩ := h.active c' t hold
    refine ⟨halloc ▸ hlt, hfree, (hheap t).2.1.trans hcall, ?_, ?_⟩
    · rcases htimed t with hsame | ⟨hc, hnone⟩
      · exact hsame.trans htime
      · have hcc := h.active_unique hold hc
        rw [hkeep hcc] at hnone
        cases hnone
    · rw [hcompleted, hheld]
      exact hsome
  · intro c' t ht
    rw [hcompleted]
    rw [hpc] at ht
    split at ht
    · exact hwaited t ht
    · exact h.waited c' t ht
  · have hmap : (Q.map fun t => (s'.heap t).call) = Q.map fun t => (s.heap t).call :=
      List.map_congr_left fun t _ => (hheap t).2.1
    rw [hlinked, hdequeued, hmap]
    exact h.fifo

/-! ## The workers' steps -/

/-- A step that changes no record, no list and no call. -/
theorem of_worker (h : PoolInv s F Q) (hlabels : LabelInv s') (hheap : s'.heap = s.heap)
    (hcalls : s'.calls = s.calls) (hfields : s'.listFields = s.listFields)
    (hheld : s'.held = s.held) (hlinked : linkedCalls s'.history = linkedCalls s.history)
    (hdequeued : dequeuedCalls s'.history = dequeuedCalls s.history) : PoolInv s' F Q := by
  have halloc := allocated_eq hfields
  refine ⟨hlabels, h.lists.congr (fun t => by rw [hheap]) hfields hheld, ?_, ?_, ?_, ?_, ?_⟩
  · rw [hheld, hheap]; exact h.live
  · rw [hheap]; exact h.freeSem
  · intro c t ht
    rw [hcalls] at ht
    obtain ⟨hlt, hfree, hcall, htime, hsome⟩ := h.active c t ht
    exact ⟨halloc ▸ hlt, hfree, hheap ▸ hcall, hheap ▸ htime,
      by rw [hheap, hheld]; exact hsome⟩
  · rw [hcalls, hheap]; exact h.waited
  · rw [hlinked, hdequeued, hheap]; exact h.fifo

theorem dequeue (h : PoolInv s F Q) {w : Nat} {x : WorkerThreadPoolContext} {t : Addr}
    (hlabels : LabelInv (s.afterDequeue w x t)) (hw : s.threads[w]? = some x)
    (hidle : x.pc.holds = []) (hfirst : s.taskPendingFirst = some t) :
    ∃ Q', PoolInv (s.afterDequeue w x t) F Q'
      ∧ Flow s (s.afterDequeue w x t) (.worker w) F Q F Q' := by
  obtain ⟨Q', rfl, hlists⟩ := PoolState.afterDequeue_spec h.lists hw hfirst
  have hcount := s.count_held_setThread hw { x with pc := .dequeued t }
  -- what is in the queue or held stays so
  have hmem : ∀ t', t' ∈ Q' ∨ t' ∈ (s.afterDequeue w x t).held
    ↔ t' ∈ t :: Q' ∨ t' ∈ s.held := by
    intro t'
    have hc := hcount t'
    have hheld : t' ∈ (s.afterDequeue w x t).held ↔ t' = t ∨ t' ∈ s.held := by
      rw [← List.count_pos_iff, ← List.count_pos_iff]
      change 0 < (s.setThread w { x with pc := .dequeued t }).held.count t' ↔ _
      rw [hidle] at hc
      simp only [WorkerPc.holds, List.count_nil, List.count_singleton, beq_iff_eq] at hc
      by_cases htt : t = t'
      · simp only [htt, if_true] at hc
        simp only [htt, true_or, iff_true]
        omega
      · simp only [htt, if_false] at hc
        simp only [Ne.symm htt, false_or]
        omega
    rw [hheld, List.mem_cons]
    tauto
  refine ⟨Q', ⟨hlabels, hlists, ?_, h.freeSem, ?_, h.waited, ?_⟩,
    fun t' ht' => .inl (ht'.imp_right (hmem t').mpr), fun _ ht' => .inl ht'⟩
  · intro t' ht'
    exact h.live t' ((hmem t').mp ht')
  · intro c t' ht'
    obtain ⟨hlt, hfree, hcall, htime, hsome⟩ := h.active c t' ht'
    exact ⟨hlt, hfree, hcall, htime, hsome.imp_right (hmem t').mpr⟩
  · have hfifo := h.fifo
    show linkedCalls (s.history ++ [.dequeued (s.heap t).call])
      = dequeuedCalls (s.history ++ [.dequeued (s.heap t).call])
        ++ Q'.map fun t => (s.heap t).call
    rw [linkedCalls_snoc, dequeuedCalls_snoc, hfifo]
    simp

/-- The worker that finishes a task gives up its record. -/
theorem mem_held_finish {w : Nat} {x : WorkerThreadPoolContext} {t : Addr}
    (hw : s.threads[w]? = some x) (hx : x.pc = .finish t) {t' : Addr} :
    (t' ∈ (s.setThread w { x with pc := .loop }).held → t' ∈ s.held)
      ∧ (t' ∈ s.held → t' = t ∨ t' ∈ (s.setThread w { x with pc := .loop }).held) := by
  have hc := s.count_held_setThread hw { x with pc := .loop } t'
  simp only [hx, WorkerPc.holds, List.count_nil, List.count_singleton, beq_iff_eq] at hc
  simp only [← List.count_pos_iff]
  refine ⟨fun hpos => by omega, ?_⟩
  intro hpos
  by_cases htt : t = t'
  · exact .inl htt.symm
  · rw [if_neg htt] at hc
    exact .inr (by omega)

theorem giveBack (h : PoolInv s F Q) {w : Nat} {x : WorkerThreadPoolContext} {t : Addr}
    (hlabels : LabelInv ((s.pushTaskPool t).setThread w { x with pc := .loop }))
    (hw : s.threads[w]? = some x) (hx : x.pc = .finish t)
    (htimed : (s.heap t).timedout = true) :
    PoolInv ((s.pushTaskPool t).setThread w { x with pc := .loop }) (t :: F) Q := by
  have hheld : t ∈ s.held := PoolState.mem_held hw (by simp [hx, WorkerPc.holds])
  have hsame : ∀ t', (((s.pushTaskPool t).setThread w { x with pc := .loop }).heap t').body
      = (s.heap t').body :=
    s.setTask_field (x := { s.heap t with next := s.taskPoolFirst }) WorkerThreadPoolTask.body rfl
  have hback : ∀ t', t' ∈ ((s.pushTaskPool t).setThread w { x with pc := .loop }).held →
      t' ∈ s.held := fun t' => (mem_held_finish hw hx).1
  refine ⟨hlabels, PoolState.pushTaskPool_held h.lists hw hx, ?_, ?_, ?_, ?_, ?_⟩
  · intro t' ht'
    obtain ⟨-, -, -, hsem, -, hdone, -⟩ := WorkerThreadPoolTask.body_eq (hsame t')
    rw [hsem, hdone]
    exact h.live t' (ht'.imp_right (hback t'))
  · intro t' ht'
    obtain ⟨-, -, -, hsem, -, -, -⟩ := WorkerThreadPoolTask.body_eq (hsame t')
    rw [hsem]
    rcases List.mem_cons.mp ht' with rfl | ht'
    · exact (h.live t' (.inr hheld)).2
    · exact h.freeSem t' ht'
  · intro c t' ht'
    obtain ⟨hlt, hfree, hcall, htime, hsome⟩ := h.active c t' ht'
    obtain ⟨-, -, -, -, htime', hdone', hcall'⟩ := WorkerThreadPoolTask.body_eq (hsame t')
    -- a record that timed out belongs to no call
    have hne : t' ≠ t := by
      rintro rfl
      rw [htimed] at htime
      cases htime
    refine ⟨hlt, ?_, hcall'.trans hcall, htime'.trans htime, ?_⟩
    · rw [List.mem_cons, not_or]
      exact ⟨hne, hfree⟩
    · rw [hdone']
      refine hsome.imp_right (Or.imp_right ?_)
      intro hm
      exact ((mem_held_finish hw hx).2 hm).resolve_left hne
  · intro c t' ht'
    obtain ⟨-, -, -, -, -, hdone', -⟩ := WorkerThreadPoolTask.body_eq (hsame t')
    rw [hdone']
    exact h.waited c t' ht'
  · have hmap : (Q.map fun t' =>
        (((s.pushTaskPool t).setThread w { x with pc := .loop }).heap t').call)
        = Q.map fun t' => (s.heap t').call :=
      List.map_congr_left fun t' _ => (WorkerThreadPoolTask.body_eq (hsame t')).2.2.2.2.2.2
    rw [hmap]
    exact h.fifo

theorem complete (h : PoolInv s F Q) {w : Nat} {x : WorkerThreadPoolContext} {t : Addr}
    {y : WorkerThreadPoolTask κ δ} (hy : y = { s.heap t with
      completed := true
      semaphore := (s.heap t).semaphore + 1 })
    (hlabels : LabelInv ((s.setTask t y).setThread w { x with pc := .loop }))
    (hw : s.threads[w]? = some x) (hx : x.pc = .finish t) :
    PoolInv ((s.setTask t y).setThread w { x with pc := .loop }) F Q := by
  have hheld : t ∈ s.held := PoolState.mem_held hw (by simp [hx, WorkerPc.holds])
  obtain ⟨htF, htQ⟩ := h.lists.held_disjoint hheld
  have hcount := s.count_held_setThread hw { x with pc := .loop }
  simp only [hx, WorkerPc.holds, List.count_nil, List.count_singleton, beq_iff_eq] at hcount
  have hself : Function.update s.heap t y t = y := Function.update_self _ _ _
  have hother : ∀ t', t' ≠ t → Function.update s.heap t y t' = s.heap t' :=
    fun t' ht' => Function.update_of_ne ht' _ _
  have hcall : ∀ t', (Function.update s.heap t y t').call = (s.heap t').call :=
    s.setTask_field WorkerThreadPoolTask.call (by rw [hy])
  -- the record is in neither list and, from now on, in no worker's hands
  have hgone : t ∉ (s.setThread w { x with pc := .loop }).held := by
    have honce := h.lists.once t
    have hc := hcount t
    have hpos := List.count_pos_iff.mpr hheld
    rw [if_pos rfl] at hc
    exact List.count_eq_zero.mp (by omega)
  have hlists : ListInv (s.setThread w { x with pc := .loop }) F Q := by
    refine ⟨h.lists.free, h.lists.freeLen, h.lists.pending, h.lists.pendingLast,
      h.lists.pendingLen, h.lists.pendingMax, ?_, ?_⟩
    · intro t'
      have honce := h.lists.once t'
      have hc := hcount t'
      omega
    · intro t' ht'
      exact h.lists.bound t' (ht'.imp_right (Or.imp_right (mem_held_finish hw hx).1))
  refine ⟨hlabels, hlists.congr ?_ rfl rfl, ?_, ?_, ?_, ?_, ?_⟩
  · intro t'
    exact s.setTask_field WorkerThreadPoolTask.next (by rw [hy]) t'
  · intro t' ht'
    show (Function.update s.heap t y t').completed = _
      ∧ (Function.update s.heap t y t').semaphore = _
    have hne : t' ≠ t := by
      rintro rfl
      exact ht'.elim htQ hgone
    rw [hother t' hne]
    exact h.live t' (ht'.imp_right (mem_held_finish hw hx).1)
  · intro t' ht'
    show (Function.update s.heap t y t').semaphore = 0
    rw [hother t' (fun htt => htF (htt ▸ ht'))]
    exact h.freeSem t' ht'
  · intro c t' ht'
    obtain ⟨hlt, hfree, hcall', htime, hsome⟩ := h.active c t' ht'
    refine ⟨hlt, hfree, (hcall t').trans hcall', ?_, ?_⟩
    · show (Function.update s.heap t y t').timedout = false
      by_cases htt : t' = t
      · rw [htt, hself, hy, ← htt]; exact htime
      · rw [hother t' htt]; exact htime
    · show (Function.update s.heap t y t').completed = true
        ∨ t' ∈ Q ∨ t' ∈ (s.setThread w { x with pc := .loop }).held
      by_cases htt : t' = t
      · rw [htt, hself, hy]; exact .inl rfl
      · rw [hother t' htt]
        exact hsome.imp_right (Or.imp_right fun hm =>
          ((mem_held_finish hw hx).2 hm).resolve_left htt)
  · intro c t' ht'
    show (Function.update s.heap t y t').completed = true
    by_cases htt : t' = t
    · rw [htt, hself, hy]
    · rw [hother t' htt]; exact h.waited c t' ht'
  · have hmap : (Q.map fun t' => (Function.update s.heap t y t').call)
        = Q.map fun t' => (s.heap t').call :=
      List.map_congr_left fun t' _ => hcall t'
    show linkedCalls s.history = dequeuedCalls s.history
      ++ Q.map fun t' => (Function.update s.heap t y t').call
    rw [hmap]
    exact h.fifo

/-! ## Linking a task -/

/-- The record that is filled goes to the end of the queue. -/
theorem link_lists (h : PoolInv s F Q) {F' : List Addr} {c : CallId} {a : EnqueueArgs κ δ}
    {t : Addr} {s₁ s₂ : PoolState κ δ} (hmax : s.taskPendingLen < s.maxQueueSize)
    (hfresh : (s.beginCall c a).Fresh s₁ F F' Q t)
    (happ : (s₁.fillTask t c a).appendPending t = some s₂) :
    ListInv ((s₂.setCall c (.linked t)).record (.linked c)) F' (Q ++ [t]) := by
  have hlists₀ : ListInv (s.beginCall c a) F Q := h.lists.congr (fun _ => rfl) rfl rfl
  have hlists₁ : ListInv (s₁.fillTask t c a) F' Q := by
    refine hfresh.lists.congr ?_ rfl rfl
    intro t'
    by_cases htt : t' = t
    · subst htt; simp [PoolState.fillTask, PoolState.setTask]
    · simp [PoolState.fillTask, PoolState.setTask, htt]
  have hrest := hfresh.rest
  have hmax₁ : s₁.maxQueueSize = s.maxQueueSize := by
    simpa [PoolState.beginCall] using congrArg PoolState.maxQueueSize hrest
  have hthreads₁ : s₁.threads = s.threads := by
    simpa [PoolState.beginCall] using congrArg PoolState.threads hrest
  have hheld₁ : t ∉ (s₁.fillTask t c a).held := by
    rw [show (s₁.fillTask t c a).held = s.held from
      congrArg (List.flatMap fun x : WorkerThreadPoolContext => x.pc.holds) hthreads₁]
    exact hfresh.notHeld
  have hroom : Q.length < (s₁.fillTask t c a).maxQueueSize := by
    rw [show (s₁.fillTask t c a).maxQueueSize = s.maxQueueSize from hmax₁,
      ← h.lists.pendingLen]
    exact hmax
  have hunlinked : ((s₁.fillTask t c a).heap t).next = none := by
    rw [PoolState.fillTask_heap_self]
    exact hfresh.unlinked
  obtain ⟨s₂', happ', hlists₂, -, -⟩ :=
    PoolState.appendPending_spec hlists₁ hfresh.notFree hfresh.notPending hheld₁
      (hfresh.lt hlists₀) hunlinked hroom
  rw [happ] at happ'
  cases happ'
  exact hlists₂.congr (fun _ => rfl) rfl rfl

/-- The record that is filled was free or is new. -/
theorem link_flow {F' : List Addr} {c : CallId} {a b : EnqueueArgs κ δ} {i : Bool} {t : Addr}
    {s₁ : PoolState κ δ} (hfresh : (s.beginCall c a).Fresh s₁ F F' Q t)
    (hheld : s'.held = s.held) (halloc : t = s.allocated ∧ s'.allocated = s.allocated + 1
      ∨ s'.allocated = s.allocated) : Flow s s' (.enqueue c b i) F Q F' (Q ++ [t]) := by
  constructor
  · intro t' ht'
    left
    rw [hheld, List.mem_append, List.mem_singleton]
    rcases ht' with hm | hm | hm
    · rcases hfresh.source with ⟨-, rfl, -, -⟩ | ⟨rfl, -, -⟩
      · exact .inl hm
      · rcases List.mem_cons.mp hm with rfl | hm
        · exact .inr (.inl (.inr rfl))
        · exact .inl hm
    · exact .inr (.inl (.inl hm))
    · exact .inr (.inr hm)
  · intro t' ht'
    rcases halloc with ⟨rfl, ha⟩ | ha
    · rw [ha] at ht'
      rcases Nat.lt_succ_iff_lt_or_eq.mp ht' with hlt | rfl
      · exact .inl hlt
      · exact .inr (by simp)
    · exact .inl (ha ▸ ht')

theorem link (h : PoolInv s F Q) {c : CallId} {a : EnqueueArgs κ δ} {i : Bool} {t : Addr}
    {s₁ s₂ : PoolState κ δ}
    (hlabels : LabelInv ((s₂.setCall c (.linked t)).record (.linked c)))
    (hidle : (s.calls c).pc = .idle) (hmax : s.taskPendingLen < s.maxQueueSize)
    (hacq : (s.beginCall c a).acquireTask i = .task t s₁)
    (happ : (s₁.fillTask t c a).appendPending t = some s₂) :
    ∃ F', PoolInv ((s₂.setCall c (.linked t)).record (.linked c)) F' (Q ++ [t])
      ∧ Flow s ((s₂.setCall c (.linked t)).record (.linked c)) (.enqueue c a i)
        F Q F' (Q ++ [t]) := by
  have hlists₀ : ListInv (s.beginCall c a) F Q := h.lists.congr (fun _ => rfl) rfl rfl
  obtain ⟨F', hfresh⟩ := PoolState.acquireTask_spec hlists₀ hacq
  obtain ⟨hcalls, hhist, hthreads, -, -⟩ := link_frame hacq happ
  obtain ⟨hothers, hself, halloc⟩ := link_heap hacq happ
  have hheld : ((s₂.setCall c (.linked t)).record (.linked c)).held = s.held :=
    congrArg (List.flatMap fun x : WorkerThreadPoolContext => x.pc.holds) hthreads
  have hF : ∀ t', t' ∈ F' → t' ∈ F := by
    intro t' ht'
    rcases hfresh.source with ⟨-, rfl, -, -⟩ | ⟨rfl, -, -⟩
    · exact ht'
    · exact List.mem_cons_of_mem t ht'
  -- no call holds the record that is filled
  have hnone : ∀ c', (s.calls c').pc.holds ≠ some t := by
    intro c' ht'
    obtain ⟨hlt, hfree, -, -, -⟩ := h.active c' t ht'
    rcases hfresh.source with ⟨rfl, -, -, -⟩ | ⟨rfl, -, -⟩
    · exact Nat.lt_irrefl _ hlt
    · exact hfree (by simp)
  have hlists : ListInv ((s₂.setCall c (.linked t)).record (.linked c)) F' (Q ++ [t]) :=
    h.link_lists hmax hfresh happ
  rw [PoolState.fillTask_heap_self] at hself
  obtain ⟨-, -, -, hsem, htimed, hdone, hcall⟩ := WorkerThreadPoolTask.body_eq hself
  have hsem₀ : (s₁.heap t).semaphore = 0 := by
    rcases hfresh.source with ⟨-, -, -, hnew⟩ | ⟨rfl, -, hold⟩
    · rw [hnew]
    · obtain ⟨-, -, -, hs, -, -, -⟩ := WorkerThreadPoolTask.body_eq hold
      rw [hs]
      exact h.freeSem t (by simp)
  have hflow : Flow s ((s₂.setCall c (.linked t)).record (.linked c)) (.enqueue c a i)
      F Q F' (Q ++ [t]) := link_flow hfresh hheld halloc
  refine ⟨F', ⟨hlabels, hlists, ?_, ?_, ?_, ?_, ?_⟩, hflow⟩
  · intro t' ht'
    rw [hheld, List.mem_append, List.mem_singleton] at ht'
    show (s₂.heap t').completed = false ∧ (s₂.heap t').semaphore = 0
    by_cases htt : t' = t
    · subst htt
      exact ⟨hdone, hsem.trans hsem₀⟩
    · obtain ⟨-, -, -, hsem', -, hdone', -⟩ := WorkerThreadPoolTask.body_eq (hothers t' htt)
      rw [hsem', hdone']
      exact h.live t' (ht'.imp_left fun hm => hm.resolve_right htt)
  · intro t' ht'
    show (s₂.heap t').semaphore = 0
    have htt : t' ≠ t := fun htt => hfresh.notFree (htt ▸ ht')
    obtain ⟨-, -, -, hsem', -, -, -⟩ := WorkerThreadPoolTask.body_eq (hothers t' htt)
    rw [hsem']
    exact h.freeSem t' (hF t' ht')
  · intro c' t' ht'
    change ((s₂.setCall c (.linked t)).calls c').pc.holds = some t' at ht'
    rw [hcalls] at ht'
    have hlt : t' < s.allocated → t' < s₂.allocated := by
      rcases halloc with ⟨-, ha⟩ | ha
      · rw [ha]; exact Nat.lt_succ_of_lt
      · rw [ha]; exact id
    by_cases hcc : c' = c
    · subst hcc
      rw [Function.update_self] at ht'
      cases ht'
      refine ⟨hlists.bound t (.inr (.inl (by simp))), hfresh.notFree, hcall, htimed,
        .inr (.inl (by simp))⟩
    · rw [Function.update_of_ne hcc] at ht'
      obtain ⟨hlt', hfree, hcall', htime', hsome⟩ := h.active c' t' ht'
      have htt : t' ≠ t := fun htt => hnone c' (htt ▸ ht')
      obtain ⟨-, -, -, -, htime'', hdone'', hcall''⟩ :=
        WorkerThreadPoolTask.body_eq (hothers t' htt)
      refine ⟨hlt hlt', fun hm => hfree (hF t' hm), hcall''.trans hcall',
        htime''.trans htime', ?_⟩
      rw [hheld]
      show (s₂.heap t').completed = true ∨ _
      rw [hdone'', List.mem_append]
      exact hsome.imp_right (Or.imp_left .inl)
  · intro c' t' ht'
    change ((s₂.setCall c (.linked t)).calls c').pc = _ at ht'
    rw [hcalls] at ht'
    show (s₂.heap t').completed = true
    by_cases hcc : c' = c
    · subst hcc
      rw [Function.update_self] at ht'
      cases ht'
    · rw [Function.update_of_ne hcc] at ht'
      have htt : t' ≠ t := fun htt => hnone c' (by rw [ht', htt]; rfl)
      obtain ⟨-, -, -, -, -, hdone'', -⟩ := WorkerThreadPoolTask.body_eq (hothers t' htt)
      rw [hdone'']
      exact h.waited c' t' ht'
  · have hmap : (Q.map fun t' => (s₂.heap t').call) = Q.map fun t' => (s.heap t').call := by
      apply List.map_congr_left
      intro t' ht'
      have htt : t' ≠ t := fun htt => hfresh.notPending (htt ▸ ht')
      exact (WorkerThreadPoolTask.body_eq (hothers t' htt)).2.2.2.2.2.2
    show linkedCalls (s₂.history ++ [.linked c]) = dequeuedCalls (s₂.history ++ [.linked c])
      ++ (Q ++ [t]).map fun t' => (s₂.heap t').call
    rw [linkedCalls_snoc, dequeuedCalls_snoc, hhist, List.map_append, hmap]
    simp only [List.map_cons, List.map_nil, hcall, h.fifo, List.append_assoc]

/-! ## The invariant -/

theorem initial (h₀ : Initial s) : PoolInv s [] [] := by
  have hlabels := labelInv_initial h₀
  obtain ⟨q, n, rfl⟩ := h₀.eq
  have hheld : ((List.replicate n ({} : WorkerThreadPoolContext)).flatMap
      fun x => x.pc.holds) = [] := by
    apply List.flatMap_eq_nil_iff.mpr
    intro x hx
    rw [List.eq_of_mem_replicate hx]
    rfl
  refine ⟨hlabels, ⟨rfl, rfl, rfl, rfl, rfl, Nat.zero_le _, ?_, ?_⟩, ?_, by simp,
    by simp [EnqueuePc.holds], by simp, rfl⟩
  all_goals simp [PoolState.held, hheld]

/-- A step of a call that changes no record. -/
theorem flow_of_call (h : PoolInv s F Q) {a : Action κ δ} (c : CallId) (pc : EnqueuePc)
    (hlabels : LabelInv s')
    (hpc : ∀ c', (s'.calls c').pc = if c' = c then pc else (s.calls c').pc)
    (hfields : s'.listFields = s.listFields) (hthreads : s'.threads = s.threads)
    (hheap : s'.heap = s.heap) (hl : linkedCalls s'.history = linkedCalls s.history)
    (hd : dequeuedCalls s'.history = dequeuedCalls s.history)
    (hholds : pc.holds = none ∨ pc.holds = (s.calls c).pc.holds)
    (hw : ∀ t, pc ≠ .waited t .posted) :
    ∃ F' Q', PoolInv s' F' Q' ∧ Flow s s' a F Q F' Q' := by
  have hheld : s'.held = s.held := by simp only [PoolState.held, hthreads]
  refine ⟨F, Q, ?_, .refl hheld (allocated_eq hfields)⟩
  apply h.of_call hlabels hpc hfields hthreads hl hd
  · intro t
    rw [hheap]
    exact ⟨rfl, rfl, rfl, Nat.le_refl _⟩
  · intro t
    exact .inl (by rw [hheap])
  · exact hholds
  · intro t ht
    exact absurd ht (hw t)

/-- A worker's step that keeps the record it holds. -/
theorem flow_of_thread (h : PoolInv s F Q) {a : Action κ δ} {w : Nat}
    {x : WorkerThreadPoolContext} (p : WorkerPc) (hw : s.threads[w]? = some x)
    (hp : p.holds = x.pc.holds) (hlabels : LabelInv s') (hheap : s'.heap = s.heap)
    (hcalls : s'.calls = s.calls) (hfields : s'.listFields = s.listFields)
    (hthreads : s'.threads = s.threads.set w { x with pc := p })
    (hl : linkedCalls s'.history = linkedCalls s.history)
    (hd : dequeuedCalls s'.history = dequeuedCalls s.history) :
    ∃ F' Q', PoolInv s' F' Q' ∧ Flow s s' a F Q F' Q' := by
  have hheld : s'.held = s.held := by
    rw [PoolState.held, hthreads]
    exact flatMap_set_of_eq hw hp
  exact ⟨F, Q, h.of_worker hlabels hheap hcalls hfields hheld hl hd,
    .refl hheld (allocated_eq hfields)⟩

/-- The wait of an enqueuer at most takes a token from the semaphore of its task. -/
theorem heap_wait (s : PoolState κ δ) (t : Addr) (e : WaitResult) (t' : Addr) :
    let y := { s.heap t with semaphore := tokensAfter (s.heap t).semaphore e }
    ((s.setTask t y).heap t').next = (s.heap t').next
      ∧ ((s.setTask t y).heap t').call = (s.heap t').call
      ∧ ((s.setTask t y).heap t').completed = (s.heap t').completed
      ∧ ((s.setTask t y).heap t').semaphore ≤ (s.heap t').semaphore := by
  intro y
  refine ⟨?_, ?_, ?_, ?_⟩
  · exact s.setTask_field WorkerThreadPoolTask.next (by rfl) t'
  · exact s.setTask_field WorkerThreadPoolTask.call (by rfl) t'
  · exact s.setTask_field WorkerThreadPoolTask.completed (by rfl) t'
  · by_cases htt : t' = t
    · subst htt
      cases e <;> simp [PoolState.setTask, y, tokensAfter]
    · simp [PoolState.setTask, htt]

theorem waitForever (h : PoolInv s F Q) {c : CallId} {t : Addr} {e : WaitResult}
    {r : ErrorCode}
    (hlabels : LabelInv ((s.setTask t { s.heap t with
      semaphore := tokensAfter (s.heap t).semaphore e }).returnCall c r)) :
    PoolInv ((s.setTask t { s.heap t with
      semaphore := tokensAfter (s.heap t).semaphore e }).returnCall c r) F Q := by
  apply h.of_call (c := c) (p := .returned r) hlabels
  · exact fun c' => PoolState.returnCall_pc _ c c' _
  · rfl
  · rfl
  · exact linkedCalls_snoc _ _
  · exact dequeuedCalls_snoc _ _
  · exact heap_wait s t e
  · intro t'
    exact .inl (s.setTask_field WorkerThreadPoolTask.timedout (by rfl) t')
  · exact .inl rfl
  · simp

theorem waitTimed (h : PoolInv s F Q) {c : CallId} {t : Addr} {e : WaitResult}
    (hlabels : LabelInv ((s.setTask t { s.heap t with
      semaphore := tokensAfter (s.heap t).semaphore e }).setCall c (.waited t e)))
    (hpc : (s.calls c).pc = .waiting t) (hends : waitEnds (s.heap t).semaphore true e = true) :
    PoolInv ((s.setTask t { s.heap t with
      semaphore := tokensAfter (s.heap t).semaphore e }).setCall c (.waited t e)) F Q := by
  apply h.of_call (c := c) (p := .waited t e) hlabels
  · exact fun c' => PoolState.setCall_pc _ c c' _
  · rfl
  · rfl
  · rfl
  · rfl
  · exact heap_wait s t e
  · intro t'
    exact .inl (s.setTask_field WorkerThreadPoolTask.timedout (by rfl) t')
  · exact .inr (by rw [hpc]; rfl)
  · intro t' hw
    cases hw
    exact h.completed_of_token (c := c) (by rw [hpc]; rfl) (by simpa [waitEnds] using hends)

/-- A call that gives up marks its record and lets go of it. -/
theorem settleTimeout (h : PoolInv s F Q) {c : CallId} {t : Addr} {r : ErrorCode}
    (hlabels : LabelInv ((s.setTask t { s.heap t with
      timedout := true
      result := none }).returnCall c r))
    (hpc : (s.calls c).pc = .waited t .timedOut) :
    PoolInv ((s.setTask t { s.heap t with
      timedout := true
      result := none }).returnCall c r) F Q := by
  apply h.of_call (c := c) (p := .returned r) hlabels
  · exact fun c' => PoolState.returnCall_pc _ c c' _
  · rfl
  · rfl
  · exact linkedCalls_snoc _ _
  · exact dequeuedCalls_snoc _ _
  · intro t'
    refine ⟨?_, ?_, ?_, ?_⟩
    · exact s.setTask_field WorkerThreadPoolTask.next (by rfl) t'
    · exact s.setTask_field WorkerThreadPoolTask.call (by rfl) t'
    · exact s.setTask_field WorkerThreadPoolTask.completed (by rfl) t'
    · exact Nat.le_of_eq (s.setTask_field WorkerThreadPoolTask.semaphore (by rfl) t')
  · intro t'
    by_cases htt : t' = t
    · subst htt
      exact .inr ⟨by rw [hpc]; rfl, rfl⟩
    · exact .inl (congrArg WorkerThreadPoolTask.timedout (Function.update_of_ne htt _ _))
  · exact .inl rfl
  · simp

/-- **The step lemma**: a step that gives no record back too early keeps the
lists intact. -/
theorem flow (h : PoolInv s F Q) {a : Action κ δ} (hok : NoLateError s a)
    (ht : Transition s a s') : ∃ F' Q', PoolInv s' F' Q' ∧ Flow s s' a F Q F' Q' := by
  have hlabels : LabelInv s' := h.labels.step ht
  cases ht with
  | @reject c a i e hidle he =>
      refine h.flow_of_call c (.returned e) hlabels ?_ rfl rfl rfl
        (linkedCalls_snoc _ _) (dequeuedCalls_snoc _ _) (.inl rfl) (by simp)
      intro c'
      rw [PoolState.returnCall_pc, PoolState.beginCall_pc]
      split <;> rfl
  | @link c a i t s₁ s₂ hidle hcb hmax hacq happ =>
      obtain ⟨F', h'⟩ := h.link hlabels hidle hmax hacq happ
      exact ⟨F', Q ++ [t], h'⟩
  | @postReturn c t hpc htime =>
      exact h.flow_of_call c (.returned _) hlabels (fun c' => PoolState.returnCall_pc _ c c' _) rfl
        rfl rfl (linkedCalls_snoc _ _) (dequeuedCalls_snoc _ _) (.inl rfl) (by simp)
  | @postWait c t hpc htime =>
      exact h.flow_of_call c (.waiting t) hlabels (fun c' => PoolState.setCall_pc _ c c' _) rfl rfl
        rfl rfl rfl (.inr (by rw [hpc]; rfl)) (by simp)
  | @settleCompleted c t e hpc hdone =>
      exact h.flow_of_call c (.returned _) hlabels (fun c' => PoolState.returnCall_pc _ c c' _) rfl
        rfl rfl (linkedCalls_snoc _ _) (dequeuedCalls_snoc _ _) (.inl rfl) (by simp)
  | @settlePosted c t hpc hdone =>
      -- a wait that ends by a post finds the task completed
      rw [h.waited c t hpc] at hdone
      cases hdone
  | @settleError c t hpc hdone =>
      rw [hok t hpc] at hdone
      cases hdone
  | @settleTimeout c t hpc hdone =>
      exact ⟨F, Q, h.settleTimeout hlabels hpc, .refl rfl rfl⟩
  | @waitForever c t e hpc htime hends =>
      exact ⟨F, Q, h.waitForever hlabels, .refl rfl rfl⟩
  | @waitTimed c t e hpc htime hends =>
      exact ⟨F, Q, h.waitTimed hlabels hpc hends, .refl rfl rfl⟩
  | @silent w x p hw hs =>
      refine h.flow_of_thread p hw ?_ hlabels rfl rfl rfl rfl rfl rfl
      cases hs with
      | again hx _ | sleep hx _ | awake hx _ | nothing hx _ | noResult hx _ | result hx _
      | load hx => rw [hx]; rfl
      | exit hx _ =>
          rcases hx with hx | ⟨e, hx⟩ <;> rw [hx] <;> rfl
  | @dequeue w x t hw hx hlen hfirst =>
      have hidle : x.pc.holds = [] := by
        rcases hx with hx | ⟨e, hx⟩ <;> rw [hx] <;> rfl
      obtain ⟨Q', h'⟩ := h.dequeue hlabels hw hidle hfirst
      exact ⟨F, Q', h'⟩
  | @start w x t hw hx hcb =>
      exact h.flow_of_thread (.callback t _) hw (by rw [hx]; rfl) hlabels rfl rfl rfl rfl
        (linkedCalls_snoc _ _) (dequeuedCalls_snoc _ _)
  | @store w x t v c hw hx =>
      exact h.flow_of_thread (.finish t) hw (by rw [hx]; rfl) hlabels rfl rfl rfl rfl
        (linkedCalls_snoc _ _) (dequeuedCalls_snoc _ _)
  | @callbackReturn w x t c v hw hx =>
      exact h.flow_of_thread (.testResult t v) hw (by rw [hx]; rfl) hlabels rfl rfl rfl rfl
        (linkedCalls_snoc _ _) (dequeuedCalls_snoc _ _)
  | @giveBack w x t hw hx htimed =>
      refine ⟨t :: F, Q, h.giveBack hlabels hw hx htimed, fun t' ht' => .inl ?_, fun _ => .inl⟩
      rcases ht' with hm | hm | hm
      · exact .inl (List.mem_cons_of_mem t hm)
      · exact .inr (.inl hm)
      · rcases (mem_held_finish hw hx).2 hm with rfl | hm
        · exact .inl (by simp)
        · exact .inr (.inr hm)
  | @complete w x t hw hx htimed =>
      refine ⟨F, Q, h.complete rfl hlabels hw hx, ?_, fun _ => .inl⟩
      intro t' ht'
      rcases ht' with hm | hm | hm
      · exact .inl (.inl hm)
      · exact .inl (.inr (.inl hm))
      · rcases (mem_held_finish hw hx).2 hm with rfl | hm
        · exact .inr ⟨w, x, rfl, hw, hx, htimed⟩
        · exact .inl (.inr (.inr hm))
  | @wake w x e hw hx hends =>
      exact h.flow_of_thread (.woken e) hw (by rw [hx]; rfl) hlabels rfl rfl rfl rfl rfl rfl
  | @stop w x hw =>
      have hheld : (s.setThread w { x with running := false }).held = s.held :=
        PoolState.held_setThread hw rfl
      exact ⟨F, Q, h.of_worker hlabels rfl rfl rfl hheld rfl rfl, .refl hheld rfl⟩
  | stopPost => exact ⟨F, Q, h.of_worker hlabels rfl rfl rfl rfl rfl rfl, .refl rfl rfl⟩

theorem step (h : PoolInv s F Q) {a : Action κ δ} (hok : NoLateError s a)
    (ht : Transition s a s') : ∃ F' Q', PoolInv s' F' Q' :=
  let ⟨F', Q', h', _⟩ := h.flow hok ht
  ⟨F', Q', h'⟩

end PoolInv

/-- The lists stay intact in every run in which no enqueuer gives a record
back too early. -/
theorem poolInv_reaches {ok : PoolState κ δ → Action κ δ → Prop} {s₀ : PoolState κ δ}
    (hok : ∀ s a, ok s a → NoLateError s a) (h₀ : Initial s₀) (h : Reaches step ok s₀ s) :
    ∃ F Q, PoolInv s F Q :=
  h.invariant (I := fun s => ∃ F Q, PoolInv s F Q) ⟨[], [], .initial h₀⟩
    fun s a _ ⟨_, _, hi⟩ ha hs => hi.step (hok s a ha) (step_transition hs)

/-- One call with a timeout; its task completes and its wait ends by a post. -/
def completedRun : List (Action Unit Unit) :=
  [.enqueue 0 { callback := some (), callbackResult := true, timeout := 5 } true, .post 0,
    .worker 0, .worker 0, .worker 0, .callbackReturn 0 7, .worker 0, .worker 0, .worker 0,
    .worker 0, .wait 0 .posted, .settle 0]

end CWebServer.WorkerThreadPool
