import CWebServer.WorkerThreadPool.Invariant

/-!
# WorkerThreadPool — Places

Where each record is, in every run that keeps the lists intact: on the free
list, in the queue, in the hands of a worker, or nowhere, and then its
`completed` flag was set.
-/

namespace CWebServer.WorkerThreadPool

open CWebServer.Lib CWebServer.Runs

variable {κ δ : Type} {s s' : PoolState κ δ} {F Q : List Addr}

/-! ## The marks of completion -/

/-- Only the worker that finishes a task marks it as completed. -/
theorem Transition.completes {a : Action κ δ} (ht : Transition s a s') {t : Addr}
    (hd : (s'.heap t).completed = true) : (s.heap t).completed = true ∨ Completes s a t := by
  -- a write to one record that leaves its mark alone
  have hset : ∀ {t₀ : Addr} {y : WorkerThreadPoolTask κ δ},
      y.completed = (s.heap t₀).completed →
        (Function.update s.heap t₀ y t).completed = true →
      (s.heap t).completed = true ∨ Completes s a t := by
    intro t₀ y hy hd
    rw [apply_update_of_eq WorkerThreadPoolTask.completed hy] at hd
    exact .inl hd
  cases ht with
  | @link c a i t₀ s₁ s₂ hidle hcb hlen hacq happ =>
      obtain ⟨hothers, hself, -⟩ := link_heap hacq happ
      change (s₂.heap t).completed = true at hd
      by_cases htt : t = t₀
      · have hfill : (s₂.heap t₀).completed = false := by
          have := congrArg WorkerThreadPoolTask.completed hself
          simpa [WorkerThreadPoolTask.body] using this
        rw [htt, hfill] at hd
        cases hd
      · rw [(WorkerThreadPoolTask.body_eq (hothers t htt)).2.2.2.2.2.1] at hd
        exact .inl hd
  | @complete w x t₀ hw hx htimed =>
      by_cases htt : t = t₀
      · exact .inr ⟨w, x, rfl, hw, htt ▸ hx, htt ▸ htimed⟩
      · change (Function.update s.heap t₀ _ t).completed = true at hd
        rw [Function.update_of_ne htt] at hd
        exact .inl hd
  | waitForever | waitTimed | settlePosted | settleTimeout | settleError | giveBack =>
      exact hset (by rfl) hd
  | reject | postReturn | postWait | settleCompleted | silent | dequeue | start | store | wake
  | callbackReturn | stop | stopPost => exact .inl hd

/-- Only the call that fills a record again takes the mark off. -/
theorem PoolInv.completed_stays (h : PoolInv s F Q) {a : Action κ δ} (ht : Transition s a s')
    {t : Addr} (hlt : t < s.allocated) (hF : t ∉ F) (hd : (s.heap t).completed = true) :
    (s'.heap t).completed = true := by
  have hset : ∀ {t₀ : Addr} {y : WorkerThreadPoolTask κ δ},
      y.completed = (s.heap t₀).completed →
        (Function.update s.heap t₀ y t).completed = true := by
    intro t₀ y hy
    rwa [apply_update_of_eq WorkerThreadPoolTask.completed hy]
  cases ht with
  | @link c a i t₀ s₁ s₂ hidle hcb hlen hacq happ =>
      obtain ⟨hothers, -, -⟩ := link_heap hacq happ
      have hlists : ListInv (s.beginCall c a) F Q := h.lists.congr (fun _ => rfl) rfl rfl
      obtain ⟨F', hfresh⟩ := PoolState.acquireTask_spec hlists hacq
      have hne : t ≠ t₀ := by
        rintro rfl
        rcases hfresh.source with ⟨rfl, -⟩ | ⟨rfl, -⟩
        · exact Nat.lt_irrefl _ hlt
        · exact hF (by simp)
      show (s₂.heap t).completed = true
      rw [(WorkerThreadPoolTask.body_eq (hothers t hne)).2.2.2.2.2.1]
      exact hd
  | @complete w x t₀ hw hx htimed =>
      show (Function.update s.heap t₀ _ t).completed = true
      by_cases htt : t = t₀
      · rw [htt, Function.update_self]
      · rwa [Function.update_of_ne htt]
  | waitForever | waitTimed | settlePosted | settleTimeout | settleError | giveBack =>
      exact hset rfl
  | reject | postReturn | postWait | settleCompleted | silent | dequeue | start | store | wake
  | callbackReturn | stop | stopPost => exact hd

/-- A step leads to the free list only from there or, for a task that has
timed out, from the worker's hands. -/
theorem PoolInv.free_origin (h : PoolInv s F Q) {F' Q' : List Addr} (h' : PoolInv s' F' Q')
    {a : Action κ δ} (hok : NoLateError s a) (ht : Transition s a s') {t : Addr} (hm : t ∈ F') :
    t ∈ F ∨ t ∈ s.held ∧ (s.heap t).timedout = true := by
  have hchain := h'.lists.free
  -- a step that leaves the links and the head of the free list alone
  have hsame : s'.taskPoolFirst = s.taskPoolFirst →
      (∀ t, (s'.heap t).next = (s.heap t).next) → t ∈ F := by
    intro hfirst hnext
    have hold := h.lists.free.congr fun t _ => hnext t
    rw [← hfirst] at hold
    rwa [← hchain.unique hold]
  have hset : ∀ {t₀ : Addr} {y : WorkerThreadPoolTask κ δ}, y.next = (s.heap t₀).next →
      ∀ t, (Function.update s.heap t₀ y t).next = (s.heap t).next :=
    fun hy => apply_update_of_eq WorkerThreadPoolTask.next hy
  cases ht with
  | @link c a i t₀ s₁ s₂ hidle hcb hlen hacq happ =>
      have hlists : ListInv (s.beginCall c a) F Q := h.lists.congr (fun _ => rfl) rfl rfl
      obtain ⟨F₁, hfresh⟩ := PoolState.acquireTask_spec hlists hacq
      rw [hchain.unique (h.link_lists hlen hfresh happ).free] at hm
      rcases hfresh.source with ⟨-, rfl, -⟩ | ⟨rfl, -⟩
      · exact .inl hm
      · exact .inl (List.mem_cons_of_mem t₀ hm)
  | @settlePosted c t₀ hpc hd =>
      rw [h.waited c t₀ hpc] at hd
      cases hd
  | @settleError c t₀ hpc hd =>
      rw [hok t₀ hpc] at hd
      cases hd
  | @giveBack w x t₀ hw hx htimed =>
      rw [hchain.unique (PoolState.pushTaskPool_held h.lists hw hx).free] at hm
      rcases List.mem_cons.mp hm with rfl | hm
      · exact .inr ⟨PoolState.mem_held hw (by simp [hx, WorkerPc.holds]), htimed⟩
      · exact .inl hm
  | waitForever | waitTimed | settleTimeout | complete => exact .inl (hsame rfl (hset rfl))
  | reject | postReturn | postWait | settleCompleted | silent | dequeue | start | store | wake
  | callbackReturn | stop | stopPost => exact .inl (hsame rfl fun _ => rfl)

theorem Completes.completed {a : Action κ δ} {t : Addr} (h : Completes s a t)
    (ht : Transition s a s') : (s'.heap t).completed = true := by
  obtain ⟨w, x, rfl, hw, hx, htimed⟩ := h
  have hsame : ∀ {y : WorkerThreadPoolContext}, s.threads[w]? = some y → y.pc = .finish t := by
    intro y hy
    rw [hw] at hy
    cases hy
    exact hx
  cases ht with
  | silent hy hs => cases hs <;> simp_all
  | dequeue hy hpc => simp [hsame hy] at hpc
  | start hy hpc | store hy hpc => simp [hsame hy] at hpc
  | giveBack hy hpc htimed' =>
      rw [hsame hy] at hpc
      cases hpc
      rw [htimed] at htimed'
      cases htimed'
  | @complete _ y t₀ hy hpc =>
      rw [hsame hy] at hpc
      cases hpc
      show (Function.update s.heap t _ t).completed = true
      rw [Function.update_self]

/-! ## The places -/

/-- Each record is on a list or with a worker, or its task has completed. -/
structure Places (s : PoolState κ δ) (F Q : List Addr) : Prop where
  pool : PoolInv s F Q
  placed : ∀ t < s.allocated, t ∈ F ∨ t ∈ Q ∨ t ∈ s.held ∨ (s.heap t).completed = true
  free : ∀ t ∈ F, (s.heap t).completed = false

theorem Completes.mem_held {a : Action κ δ} {t : Addr} (h : Completes s a t) :
    t ∈ s.held ∧ (s.heap t).timedout = false := by
  obtain ⟨w, x, -, hw, hx, htimed⟩ := h
  exact ⟨PoolState.mem_held hw (by simp [hx, WorkerPc.holds]), htimed⟩

theorem Places.initial (h : PoolInv s [] []) (hnew : s.allocated = 0) : Places s [] [] where
  pool := h
  placed t hlt := by
    rw [hnew] at hlt
    cases hlt
  free t ht := by cases ht

/-- **A step** keeps the places. -/
theorem Places.step (h : Places s F Q) {a : Action κ δ} (hok : NoLateError s a)
    (ht : Transition s a s') : ∃ F' Q', Places s' F' Q' := by
  obtain ⟨F', Q', hpool, hflow⟩ := h.pool.flow hok ht
  refine ⟨F', Q', hpool, ?_, ?_⟩
  · intro t hlt
    rcases hflow.new t hlt with hold | hQ
    · -- a record off the lists stays marked
      have hmarked : (s'.heap t).completed = true →
          t ∈ F' ∨ t ∈ Q' ∨ t ∈ s'.held ∨ (s'.heap t).completed = true :=
        fun hd => .inr (.inr (.inr hd))
      have hlisted : t ∈ F ∨ t ∈ Q ∨ t ∈ s.held →
          t ∈ F' ∨ t ∈ Q' ∨ t ∈ s'.held ∨ (s'.heap t).completed = true := by
        intro hm
        rcases hflow.kept t hm with hF | hdone
        · exact hF.imp_right (Or.imp_right .inl)
        · exact hmarked (hdone.completed ht)
      rcases h.placed t hold with hF | hQ | hH | hd
      · exact hlisted (.inl hF)
      · exact hlisted (.inr (.inl hQ))
      · exact hlisted (.inr (.inr hH))
      · by_cases hF : t ∈ F
        · exact hlisted (.inl hF)
        · exact hmarked (h.pool.completed_stays ht hold hF hd)
    · exact .inr (.inl hQ)
  · intro t hm
    have hne : (s'.heap t).completed ≠ true := by
      intro hd
      rcases h.pool.free_origin hpool hok ht hm with hF | ⟨hH, htimed⟩
      · rcases ht.completes hd with hold | hdone
        · rw [h.free t hF] at hold
          cases hold
        · exact (h.pool.lists.free_disjoint hF).2 hdone.mem_held.1
      · rcases ht.completes hd with hold | hdone
        · rw [(h.pool.live t (.inr hH)).1] at hold
          cases hold
        · rw [hdone.mem_held.2] at htimed
          cases htimed
    simpa using hne

end CWebServer.WorkerThreadPool
