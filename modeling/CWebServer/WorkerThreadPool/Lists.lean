import CWebServer.Lib.Chain
import CWebServer.Lib.Slots
import CWebServer.WorkerThreadPool.Model

/-!
# WorkerThreadPool — Lists

The free list and the pending queue. `ListInv s F Q` says that the two chains
are `F` and `Q`, that the counters agree with them, and that every record is
in one place at most: on the free list, in the queue, or with one worker.
Each list operation of the model gets one lemma here; nothing later unfolds
the operations.
-/

namespace CWebServer.WorkerThreadPool

open CWebServer.Lib

variable {κ δ : Type}

/-- The record that a worker works on. -/
def WorkerPc.holds : WorkerPc → List Addr
  | .dequeued t | .callback t _ | .testResult t _ | .loadResult t _
  | .storeResult t _ _ | .finish t => [t]
  | .loop | .checkPending | .waiting | .woken _ | .relock _ | .exited => []

/-- The record that an enqueue call has not let go of. -/
def EnqueuePc.holds : EnqueuePc → Option Addr
  | .linked t | .waiting t | .waited t _ => some t
  | .idle | .returned _ => none

/-- Everything in the hands of the workers. -/
def PoolState.held (s : PoolState κ δ) : List Addr :=
  s.threads.flatMap fun x => x.pc.holds

/-- A record without its link. -/
def WorkerThreadPoolTask.body (x : WorkerThreadPoolTask κ δ) : WorkerThreadPoolTask κ δ :=
  { x with next := none }

theorem WorkerThreadPoolTask.body_eq {x y : WorkerThreadPoolTask κ δ} (h : x.body = y.body) :
    x.callback = y.callback ∧ x.data = y.data ∧ x.result = y.result
      ∧ x.semaphore = y.semaphore ∧ x.timedout = y.timedout ∧ x.completed = y.completed
      ∧ x.call = y.call := by
  simpa [body] using h

/-- A write to one record that leaves the field `g` as it was. -/
theorem PoolState.setTask_field (s : PoolState κ δ) {φ : Type}
    (g : WorkerThreadPoolTask κ δ → φ) {t : Addr} {x : WorkerThreadPoolTask κ δ}
    (h : g x = g (s.heap t)) (t' : Addr) :
    g ((s.setTask t x).heap t') = g (s.heap t') :=
  apply_update_of_eq g h t'

/-- The fields that the lists consist of, besides the links. -/
def PoolState.listFields (s : PoolState κ δ) :=
  (s.maxQueueSize, s.taskPoolFirst, s.taskPoolLen, s.taskPendingFirst,
    s.taskPendingLast, s.taskPendingLen, s.allocated)

structure ListInv (s : PoolState κ δ) (F Q : List Addr) : Prop where
  free : Chain (fun t => (s.heap t).next) s.taskPoolFirst F
  freeLen : s.taskPoolLen = F.length
  pending : Chain (fun t => (s.heap t).next) s.taskPendingFirst Q
  pendingLast : s.taskPendingLast = Q.getLast?
  pendingLen : s.taskPendingLen = Q.length
  pendingMax : Q.length ≤ s.maxQueueSize
  once : ∀ t, F.count t + Q.count t + s.held.count t ≤ 1
  bound : ∀ t, t ∈ F ∨ t ∈ Q ∨ t ∈ s.held → t < s.allocated

namespace ListInv

variable {s s' : PoolState κ δ} {F Q : List Addr}

/-- Steps that touch no list and no worker's record. -/
theorem congr (h : ListInv s F Q) (hnext : ∀ t, (s'.heap t).next = (s.heap t).next)
    (hfields : s'.listFields = s.listFields) (hheld : s'.held = s.held) :
    ListInv s' F Q := by
  have hfun : (fun t => (s'.heap t).next) = fun t => (s.heap t).next := funext hnext
  simp only [PoolState.listFields, Prod.mk.injEq] at hfields
  obtain ⟨hmax, hpf, hpl, hqf, hql, hqn, halloc⟩ := hfields
  constructor
  · rw [hfun, hpf]; exact h.free
  · rw [hpl]; exact h.freeLen
  · rw [hfun, hqf]; exact h.pending
  · rw [hql]; exact h.pendingLast
  · rw [hqn]; exact h.pendingLen
  · rw [hmax]; exact h.pendingMax
  · intro t; rw [hheld]; exact h.once t
  · intro t; rw [hheld, halloc]; exact h.bound t

theorem free_nodup (h : ListInv s F Q) : F.Nodup :=
  List.nodup_iff_count_le_one.mpr fun t => by have := h.once t; omega

theorem pending_nodup (h : ListInv s F Q) : Q.Nodup :=
  List.nodup_iff_count_le_one.mpr fun t => by have := h.once t; omega

theorem free_disjoint (h : ListInv s F Q) {t : Addr} (ht : t ∈ F) :
    t ∉ Q ∧ t ∉ s.held := by
  have hpos := List.count_pos_iff.mpr ht
  have := h.once t
  exact ⟨List.count_eq_zero.mp (by omega), List.count_eq_zero.mp (by omega)⟩

theorem pending_disjoint (h : ListInv s F Q) {t : Addr} (ht : t ∈ Q) :
    t ∉ F ∧ t ∉ s.held := by
  have hpos := List.count_pos_iff.mpr ht
  have := h.once t
  exact ⟨List.count_eq_zero.mp (by omega), List.count_eq_zero.mp (by omega)⟩

theorem held_disjoint (h : ListInv s F Q) {t : Addr} (ht : t ∈ s.held) :
    t ∉ F ∧ t ∉ Q := by
  have hpos := List.count_pos_iff.mpr ht
  have := h.once t
  exact ⟨List.count_eq_zero.mp (by omega), List.count_eq_zero.mp (by omega)⟩

end ListInv

namespace PoolState

variable {s s' : PoolState κ δ} {F Q : List Addr}

/-- A worker's step from `x` to `y` exchanges what `x` held for what `y`
holds. -/
theorem count_held_setThread {w : Nat} {x : WorkerThreadPoolContext}
    (hw : s.threads[w]? = some x) (y : WorkerThreadPoolContext) (t : Addr) :
    (s.setThread w y).held.count t + x.pc.holds.count t
      = s.held.count t + y.pc.holds.count t :=
  count_flatMap_set hw y _ t

theorem held_setThread {w : Nat} {x y : WorkerThreadPoolContext}
    (hw : s.threads[w]? = some x) (hxy : y.pc.holds = x.pc.holds) :
    (s.setThread w y).held = s.held :=
  flatMap_set_of_eq hw (f := fun z => z.pc.holds) hxy

theorem mem_held {w : Nat} {x : WorkerThreadPoolContext} {t : Addr}
    (hw : s.threads[w]? = some x) (ht : t ∈ x.pc.holds) : t ∈ s.held :=
  mem_flatMap_of_getElem? hw ht

/-! ## Taking a record to fill -/

/-- What `acquireTask` hands out: a record that nothing else refers to. -/
structure Fresh (s s' : PoolState κ δ) (F F' Q : List Addr) (t : Addr) : Prop where
  lists : ListInv s' F' Q
  notFree : t ∉ F'
  notPending : t ∉ Q
  notHeld : t ∉ s.held
  unlinked : (s'.heap t).next = none
  source : (t = s.allocated ∧ F' = F ∧ s'.allocated = s.allocated + 1 ∧ s'.heap t = {})
    ∨ (F = t :: F' ∧ s'.allocated = s.allocated ∧ (s'.heap t).body = (s.heap t).body)
  others : ∀ t', t' ≠ t → s'.heap t' = s.heap t'
  rest : { s' with
      heap := s.heap, allocated := s.allocated
      taskPoolFirst := s.taskPoolFirst, taskPoolLen := s.taskPoolLen } = s

theorem Fresh.lt {F' : List Addr} {t : Addr} (h : Fresh s s' F F' Q t)
    (hl : ListInv s F Q) : t < s'.allocated := by
  rcases h.source with ⟨rfl, -, ha, -⟩ | ⟨hF, ha, -⟩
  · rw [ha]; exact Nat.lt_succ_self _
  · rw [ha]; exact hl.bound t (.inl (by simp [hF]))

theorem acquireTask_spec (hl : ListInv s F Q) {semInit : Bool} {t : Addr}
    (h : s.acquireTask semInit = .task t s') : ∃ F', Fresh s s' F F' Q t := by
  unfold acquireTask at h
  split at h
  · split at h
    · -- a new record: nothing allocated so far has its address
      cases h
      have hirr := fun hm => Nat.lt_irrefl _ (hl.bound s.allocated hm)
      have hF : s.allocated ∉ F := fun hm => hirr (.inl hm)
      have hQ : s.allocated ∉ Q := fun hm => hirr (.inr (.inl hm))
      have hupd : (fun t => (Function.update s.heap s.allocated {} t).next)
          = Function.update (fun t => (s.heap t).next) s.allocated none := by
        funext t
        by_cases ht : t = s.allocated
        · subst ht; simp
        · simp [ht]
      refine ⟨F, ⟨⟨?_, hl.freeLen, ?_, hl.pendingLast, hl.pendingLen, hl.pendingMax, hl.once,
          fun t ht => Nat.lt_succ_of_lt (hl.bound t ht)⟩,
        hF, hQ, fun hm => hirr (.inr (.inr hm)), by simp, .inl ⟨rfl, rfl, rfl, by simp⟩,
        fun t' ht' => Function.update_of_ne ht' _ _, rfl⟩⟩
      · rw [hupd]; exact hl.free.update_of_notMem hF
      · rw [hupd]; exact hl.pending.update_of_notMem hQ
    · cases h
  · rename_i hlen
    cases hfirst : s.taskPoolFirst with
    | none => simp [hfirst] at h
    | some t₀ =>
        simp only [hfirst] at h
        cases h
        obtain ⟨F', rfl, hchain⟩ := (hfirst ▸ hl.free).pop
        have hnd := hl.free_nodup
        have hdis := hl.free_disjoint (t := t) (by simp)
        have hF' : t ∉ F' := (List.nodup_cons.mp hnd).1
        have hupd : (fun t' => (Function.update s.heap t { s.heap t with next := none } t').next)
            = Function.update (fun t => (s.heap t).next) t none := by
          funext t'
          by_cases ht : t' = t
          · subst ht; simp
          · simp [ht]
        refine ⟨F', ⟨⟨?_, ?_, ?_, hl.pendingLast, hl.pendingLen, hl.pendingMax, ?_, ?_⟩,
          hF', hdis.1, hdis.2, by simp, .inr ⟨rfl, rfl, by simp [WorkerThreadPoolTask.body]⟩,
          fun t' ht' => Function.update_of_ne ht' _ _, ?_⟩⟩
        · rw [hupd]; exact hchain.update_of_notMem hF'
        · have := hl.freeLen
          simp only [List.length_cons] at this
          simp only
          omega
        · rw [hupd]; exact hl.pending.update_of_notMem hdis.1
        · intro t'
          show F'.count t' + Q.count t' + s.held.count t' ≤ 1
          have := hl.once t'
          rw [List.count_cons] at this
          omega
        · intro t' ht'
          exact hl.bound t' (ht'.imp_left (List.mem_cons_of_mem t))
        · cases s
          simp_all

/-! ## Linking and unlinking -/

/-- Sticking a fresh record on the end of the queue cannot fault. -/
theorem appendPending_spec (hl : ListInv s F Q) {t : Addr} (hF : t ∉ F) (hQ : t ∉ Q)
    (hH : t ∉ s.held) (halloc : t < s.allocated) (hnext : (s.heap t).next = none)
    (hmax : Q.length < s.maxQueueSize) :
    ∃ s', s.appendPending t = some s' ∧ ListInv s' F (Q ++ [t])
      ∧ (∀ t', (s'.heap t').body = (s.heap t').body)
      ∧ { s' with
          heap := s.heap, taskPendingFirst := s.taskPendingFirst
          taskPendingLast := s.taskPendingLast, taskPendingLen := s.taskPendingLen } = s := by
  have honce : ∀ t', F.count t' + (Q ++ [t]).count t' + s.held.count t' ≤ 1 := by
    intro t'
    have := hl.once t'
    rw [List.count_append, List.count_singleton]
    by_cases ht : t = t'
    · subst ht
      have h1 := List.count_eq_zero.mpr hF
      have h2 := List.count_eq_zero.mpr hQ
      have h3 := List.count_eq_zero.mpr hH
      simp only [beq_self_eq_true, if_true]
      omega
    · simpa [ht] using this
  have hbound : ∀ t', t' ∈ F ∨ t' ∈ Q ++ [t] ∨ t' ∈ s.held → t' < s.allocated := by
    intro t' ht'
    rw [List.mem_append, List.mem_singleton] at ht'
    rcases ht' with h | (h | rfl) | h
    · exact hl.bound t' (.inl h)
    · exact hl.bound t' (.inr (.inl h))
    · exact halloc
    · exact hl.bound t' (.inr (.inr h))
  have hlen : (Q ++ [t]).length = Q.length + 1 := by simp
  have hpl := hl.pendingLen
  unfold appendPending
  rcases List.eq_nil_or_concat Q with rfl | ⟨Q₀, l, rfl⟩
  · -- the empty queue: the record becomes first and last
    rw [if_neg (by rw [hpl]; simp)]
    refine ⟨_, rfl, ⟨hl.free, hl.freeLen, ⟨rfl, hnext⟩, rfl, by simp [hpl], hmax,
      honce, hbound⟩, fun _ => rfl, ?_⟩
    cases s
    rfl
  · rw [List.concat_eq_append] at *
    have hlast : s.taskPendingLast = some l := by rw [hl.pendingLast]; simp
    rw [if_pos (by rw [hpl]; simp)]
    simp only [hlast]
    have hnd := hl.pending_nodup
    have hlQ : l ∉ Q₀ := by
      intro hm
      exact (List.nodup_append.mp hnd).2.2 l hm l (by simp) rfl
    have hlF : l ∉ F := (hl.pending_disjoint (t := l) (by simp)).1
    have hupd : (fun t' => (Function.update s.heap l { s.heap l with next := some t } t').next)
        = Function.update (fun t => (s.heap t).next) l (some t) := by
      funext t'
      by_cases ht : t' = l
      · subst ht; simp
      · simp [ht]
    refine ⟨_, rfl, ⟨?_, hl.freeLen, ?_, by simp, by simp [hpl], ?_, honce, hbound⟩, ?_, ?_⟩
    · rw [hupd]; exact hl.free.update_of_notMem hlF
    · rw [hupd, List.append_assoc]; exact hl.pending.snoc hlQ hQ hnext
    · rw [hlen]; exact hmax
    · intro t'
      by_cases ht : t' = l
      · subst ht; simp [WorkerThreadPoolTask.body]
      · simp [ht]
    · cases s
      simp_all

/-- The state after a worker `w` has taken the record `t`. -/
def afterDequeue (s : PoolState κ δ) (w : Nat) (x : WorkerThreadPoolContext) (t : Addr) :
    PoolState κ δ :=
  { s with
    taskPendingFirst := (s.heap t).next
    taskPendingLast := if (s.heap t).next.isNone then none else s.taskPendingLast
    taskPendingLen := s.taskPendingLen - 1
    threads := s.threads.set w { x with pc := .dequeued t }
    history := s.history ++ [.dequeued (s.heap t).call] }

theorem dequeueTask_eq_some {w : Nat} {x : WorkerThreadPoolContext}
    (h : s.dequeueTask w x = some s') :
    ∃ t, s.taskPendingFirst = some t ∧ s' = s.afterDequeue w x t := by
  unfold dequeueTask takePending at h
  cases hfirst : s.taskPendingFirst with
  | none => simp [hfirst] at h
  | some t =>
      simp only [hfirst, Option.map_some, Option.some.injEq] at h
      exact ⟨t, rfl, h.symm⟩

/-- A worker that finds the queue non-empty takes its first record. -/
theorem afterDequeue_spec (hl : ListInv s F Q) {w : Nat} {x : WorkerThreadPoolContext}
    {t : Addr} (hw : s.threads[w]? = some x) (hfirst : s.taskPendingFirst = some t) :
    ∃ Q', Q = t :: Q' ∧ ListInv (s.afterDequeue w x t) F Q' := by
  obtain ⟨Q', rfl, hchain⟩ := (hfirst ▸ hl.pending).pop
  have hpl := hl.pendingLen
  have hpm := hl.pendingMax
  simp only [List.length_cons] at hpl hpm
  have hcount := s.count_held_setThread hw { x with pc := .dequeued t }
  refine ⟨Q', rfl, hl.free, hl.freeLen, hchain, ?_, ?_, by simp only [afterDequeue]; omega,
    ?_, ?_⟩
  · have hhead := hchain.head
    simp only [afterDequeue, hhead, hl.pendingLast]
    cases Q' <;> simp
  · simp only [afterDequeue]
    omega
  · intro t'
    show F.count t' + Q'.count t' + (s.setThread w { x with pc := .dequeued t }).held.count t' ≤ 1
    have h1 := hl.once t'
    have h2 := hcount t'
    simp only [WorkerPc.holds, List.count_cons, List.count_nil] at h1 h2
    omega
  · intro t' ht'
    change t' ∈ F ∨ t' ∈ Q'
      ∨ t' ∈ (s.setThread w { x with pc := .dequeued t }).held at ht'
    refine hl.bound t' (ht'.imp_right ?_)
    intro h
    by_cases htt : t' = t
    · subst htt; exact .inl (by simp)
    · apply h.imp (List.mem_cons_of_mem t)
      intro hm
      have h1 := List.count_pos_iff.mpr hm
      have h2 := hcount t'
      simp only [WorkerPc.holds, List.count_cons, List.count_nil, beq_iff_eq,
        Ne.symm htt, if_false] at h2
      exact List.count_pos_iff.mp (by omega)

/-- A worker puts the record it holds back on the free list. -/
theorem pushTaskPool_held (hl : ListInv s F Q) {w : Nat} {x : WorkerThreadPoolContext}
    {t : Addr} (hw : s.threads[w]? = some x) (hx : x.pc = .finish t) :
    ListInv ((s.pushTaskPool t).setThread w { x with pc := .loop }) (t :: F) Q := by
  have hheld : t ∈ s.held := mem_held hw (by simp [hx, WorkerPc.holds])
  obtain ⟨htF, htQ⟩ := hl.held_disjoint hheld
  have hcount := s.count_held_setThread hw { x with pc := .loop }
  simp only [hx, WorkerPc.holds, List.count_nil, List.count_singleton] at hcount
  have hupd : (fun t' => (Function.update s.heap t
        { s.heap t with next := s.taskPoolFirst } t').next)
      = Function.update (fun t => (s.heap t).next) t s.taskPoolFirst := by
    funext t'
    by_cases ht : t' = t
    · subst ht; simp
    · simp [ht]
  have hfl := hl.freeLen
  refine ⟨?_, by simp [pushTaskPool, setThread, hfl], ?_, hl.pendingLast, hl.pendingLen,
    hl.pendingMax, ?_, ?_⟩
  · simp only [pushTaskPool, setThread]
    rw [hupd]
    exact hl.free.push htF
  · simp only [pushTaskPool, setThread]
    rw [hupd]
    exact hl.pending.update_of_notMem htQ
  · intro t'
    show (t :: F).count t' + Q.count t'
      + (s.setThread w { x with pc := .loop }).held.count t' ≤ 1
    have h1 := hl.once t'
    have h2 := hcount t'
    rw [List.count_cons]
    omega
  · intro t' ht'
    change t' ∈ t :: F ∨ t' ∈ Q ∨ t' ∈ (s.setThread w { x with pc := .loop }).held at ht'
    rw [List.mem_cons] at ht'
    rcases ht' with (rfl | h) | h | h
    · exact hl.bound t' (.inr (.inr hheld))
    · exact hl.bound t' (.inl h)
    · exact hl.bound t' (.inr (.inl h))
    · have h1 := List.count_pos_iff.mpr h
      have h2 := hcount t'
      exact hl.bound t' (.inr (.inr (List.count_pos_iff.mp (by omega))))

end PoolState

end CWebServer.WorkerThreadPool
