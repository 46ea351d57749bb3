import CWebServer.WorkerThreadPool.Invariant

/-!
# WorkerThreadPool — Results

What a call that returns `WORKER_THREAD_POOL_SUCCESS` after waiting may rely
on: its own callback has returned, and the location it passed holds the
value. The invariant follows one record from the callback to the semaphore
that its call waits on.
-/

namespace CWebServer.WorkerThreadPool

open CWebServer.Lib CWebServer.Runs

variable {κ δ : Type} {s s' : PoolState κ δ} {F Q : List Addr}

/-- A wait for ever does not fail before its task has completed, and neither
does a timed wait that is then taken for an error. -/
def NoEarlyWake (s : PoolState κ δ) : Action κ δ → Prop
  | .wait c e => ∀ t, (s.calls c).pc = .waiting t → (s.calls c).args.timeout = -1 →
      e = .error → (s.heap t).completed = true
  | a => NoLateError s a

instance (s : PoolState κ δ) (a : Action κ δ) : Decidable (NoEarlyWake s a) :=
  match a with
  | .wait c e =>
      match h : (s.calls c).pc with
      | .waiting t =>
          if hd : (s.calls c).args.timeout = -1 → e = .error → (s.heap t).completed = true then
            isTrue fun t' ht' => by
              rw [h] at ht'
              cases ht'
              exact hd
          else isFalse fun hn => hd (hn t h)
      | .idle | .linked _ | .waited _ _ | .returned _ => isTrue fun t' ht' => by simp [h] at ht'
  | .settle c => inferInstanceAs (Decidable (NoLateError s (.settle c)))
  | .enqueue .. | .post _ | .worker _ | .wake .. | .callbackReturn .. | .stop _
  | .stopPost => isTrue trivial

theorem NoEarlyWake.noLateError {a : Action κ δ} (h : NoEarlyWake s a) : NoLateError s a := by
  cases a with
  | wait c e => exact trivial
  | _ => exact h

/-- The callback of call `c` has returned `v`, and the location that the call
passed, if any, holds `v`. -/
structure Answered (h : List Event) (a : EnqueueArgs κ δ) (c : CallId) (v : Int) : Prop where
  completed : .completed c v ∈ h
  stored : a.callbackResult = true → storedValue h c = some v

/-- The arguments of the call that filled the record `t`. -/
def PoolState.argsOf (s : PoolState κ δ) (t : Addr) : EnqueueArgs κ δ :=
  (s.calls (s.heap t).call).args

/-- How far the worker has come with the record it holds. -/
def WorkerOk (s : PoolState κ δ) : WorkerPc → Prop
  | .callback t c => c = (s.heap t).call
  | .testResult t v | .loadResult t v => .completed (s.heap t).call v ∈ s.history
  | .storeResult t v l =>
      .completed (s.heap t).call v ∈ s.history
        ∧ (∀ c, l = some c → c = (s.heap t).call)
        ∧ ((s.heap t).timedout = false → (s.argsOf t).callbackResult = true →
          l = some (s.heap t).call)
  | .finish t =>
      (s.heap t).timedout = false → ∃ v, Answered s.history (s.argsOf t) (s.heap t).call v
  | .loop | .checkPending | .waiting | .woken _ | .relock _ | .dequeued _ | .exited => True

/-- A success after a wait comes after the callback. -/
def SuccessAfterCallback (s : PoolState κ δ) (pre : List Event) (e : Event) : Prop :=
  ∀ c, e = .returned c workerThreadPoolSuccess → (s.calls c).args.timeout ≠ 0 →
    ∃ v, Answered pre (s.calls c).args c v

structure ResultInv (s : PoolState κ δ) : Prop where
  pool : ∃ F Q, PoolInv s F Q
  workers : ∀ (w : Nat) (x : WorkerThreadPoolContext), s.threads[w]? = some x → WorkerOk s x.pc
  done : ∀ t < s.allocated, (s.heap t).completed = true →
    ∃ v, Answered s.history (s.argsOf t) (s.heap t).call v
  past : Past (SuccessAfterCallback s) s.history

/-! ## What a step keeps -/

/-- A step that does not fill the record `t` and stores nothing for it. -/
structure Keeps (s s' : PoolState κ δ) (t : Addr) : Prop where
  call : (s'.heap t).call = (s.heap t).call
  args : s'.argsOf t = s.argsOf t
  timedout : (s'.heap t).timedout = false → (s.heap t).timedout = false
  history : s.history <+: s'.history
  stored : storedValue s'.history (s.heap t).call = storedValue s.history (s.heap t).call

theorem Keeps.answered {t : Addr} (hk : Keeps s s' t)
    (h : ∃ v, Answered s.history (s.argsOf t) (s.heap t).call v) :
    ∃ v, Answered s'.history (s'.argsOf t) (s'.heap t).call v := by
  obtain ⟨v, hc, hst⟩ := h
  refine ⟨v, ?_, ?_⟩
  · rw [hk.call]
    exact hk.history.subset hc
  · rw [hk.call, hk.args, hk.stored]
    exact hst

theorem WorkerOk.keeps {p : WorkerPc} (h : WorkerOk s p) (hk : ∀ t ∈ p.holds, Keeps s s' t) :
    WorkerOk s' p := by
  cases p with
  | callback t c =>
      have hk := hk t (by simp [WorkerPc.holds])
      exact h.trans hk.call.symm
  | testResult t v | loadResult t v =>
      have hk := hk t (by simp [WorkerPc.holds])
      simp only [WorkerOk, hk.call] at h ⊢
      exact hk.history.subset h
  | storeResult t v l =>
      have hk := hk t (by simp [WorkerPc.holds])
      obtain ⟨hc, hl, hst⟩ := h
      refine ⟨?_, ?_, ?_⟩
      · rw [hk.call]; exact hk.history.subset hc
      · rw [hk.call]; exact hl
      · rw [hk.call, hk.args]
        exact fun htimed => hst (hk.timedout htimed)
  | finish t =>
      have hk := hk t (by simp [WorkerPc.holds])
      exact fun htimed => hk.answered (h (hk.timedout htimed))
  | _ => trivial

/-- Every record that is filled keeps its label through a step that fills
none and stores nothing. -/
theorem keeps_of_heap (hi : LabelInv s) {a : Action κ δ} (ht : Transition s a s') {t : Addr}
    (hlt : t < s.allocated) (hcall : (s'.heap t).call = (s.heap t).call)
    (htimed : (s'.heap t).timedout = false → (s.heap t).timedout = false)
    (hstored : storedValue s'.history (s.heap t).call
      = storedValue s.history (s.heap t).call) : Keeps s s' t := by
  refine ⟨hcall, ?_, htimed, ht.history_prefix, hstored⟩
  rw [PoolState.argsOf, PoolState.argsOf, hcall]
  exact ht.args (hi.calls.known _ (hi.labelled t hlt))

theorem ResultInv.of_frame (h : ResultInv s) {a : Action κ δ} (ht : Transition s a s')
    (hpool : ∃ F Q, PoolInv s' F Q)
    (hworkers : ∀ (w : Nat) (x : WorkerThreadPoolContext), s'.threads[w]? = some x →
      WorkerOk s' x.pc
        ∨ s.threads[w]? = some x ∧ ∀ t ∈ x.pc.holds, t < s.allocated → Keeps s s' t)
    (hdone : ∀ t < s'.allocated, (s'.heap t).completed = true →
      (∃ v, Answered s'.history (s'.argsOf t) (s'.heap t).call v)
        ∨ t < s.allocated ∧ (s.heap t).completed = true ∧ Keeps s s' t)
    (hnew : ∀ c, s'.history = s.history ++ [.returned c workerThreadPoolSuccess] →
      (s.calls c).pc ≠ .idle ∧ ((s.calls c).args.timeout ≠ 0 →
        ∃ v, Answered s.history (s.calls c).args c v)) : ResultInv s' := by
  obtain ⟨F, Q, hi⟩ := h.pool
  refine ⟨hpool, ?_, ?_, ?_⟩
  · intro w x hw
    rcases hworkers w x hw with hok | ⟨hold, hk⟩
    · exact hok
    · refine (h.workers w x hold).keeps fun t ht' => hk t ht' ?_
      exact hi.lists.bound t (.inr (.inr (PoolState.mem_held hold ht')))
  · intro t hlt hd
    rcases hdone t hlt hd with hans | ⟨hlt', hd', hk⟩
    · exact hans
    · exact hk.answered (h.done t hlt' hd')
  · -- the calls that have returned keep their arguments
    have hpast : Past (SuccessAfterCallback s') s.history := by
      refine h.past.imp ?_
      intro pre e he hp c hc htime
      subst hc
      have hpc := hi.labels.calls.reported c _ he
      rw [ht.args (by simp [hpc])] at htime ⊢
      exact hp c rfl htime
    rcases ht.history with hh | ⟨e, hh⟩ <;> rw [hh]
    · exact hpast
    · apply hpast.snoc
      intro c hc htime
      subst hc
      obtain ⟨hidle, hans⟩ := hnew c hh
      rw [ht.args hidle] at htime ⊢
      exact hans htime

/-- A wait touches nothing of a record but its semaphore. -/
theorem semaphore_frame (s : PoolState κ δ) (t t' : Addr) (n : Nat) :
    ((s.setTask t { s.heap t with semaphore := n }).heap t').call = (s.heap t').call
      ∧ ((s.setTask t { s.heap t with semaphore := n }).heap t').completed
        = (s.heap t').completed
      ∧ (((s.setTask t { s.heap t with semaphore := n }).heap t').timedout = false →
        (s.heap t').timedout = false) := by
  refine ⟨s.setTask_field WorkerThreadPoolTask.call (by rfl) t',
    s.setTask_field WorkerThreadPoolTask.completed (by rfl) t', ?_⟩
  intro hf
  rw [s.setTask_field WorkerThreadPoolTask.timedout (by rfl) t'] at hf
  exact hf

/-- A call that returns has been made, and after a wait its task has
completed. -/
theorem ResultInv.answered (h : ResultInv s) (hi : PoolInv s F Q) {c : CallId} {t : Addr}
    (hc : (s.calls c).pc.holds = some t) (hd : (s.heap t).completed = true) :
    (s.calls c).pc ≠ .idle ∧ ((s.calls c).args.timeout ≠ 0 →
      ∃ v, Answered s.history (s.calls c).args c v) := by
  obtain ⟨hlt, -, hcall, -, -⟩ := hi.active c t hc
  constructor
  · intro hidle
    rw [hidle] at hc
    cases hc
  · intro _
    have hans := h.done t hlt hd
    rw [PoolState.argsOf, hcall] at hans
    exact hans

/-- A step of a call; the heap may lose tokens. -/
theorem ResultInv.of_call (h : ResultInv s) {a : Action κ δ} (ht : Transition s a s')
    (hpool : ∃ F Q, PoolInv s' F Q) (hth : s'.threads = s.threads)
    (halloc : s'.allocated = s.allocated)
    (hheap : ∀ t, (s'.heap t).call = (s.heap t).call
      ∧ (s'.heap t).completed = (s.heap t).completed
      ∧ ((s'.heap t).timedout = false → (s.heap t).timedout = false))
    (hst : ∀ c, storedValue s'.history c = storedValue s.history c)
    (hnew : ∀ c, s'.history = s.history ++ [.returned c workerThreadPoolSuccess] →
      (s.calls c).pc ≠ .idle ∧ ((s.calls c).args.timeout ≠ 0 →
        ∃ v, Answered s.history (s.calls c).args c v)) : ResultInv s' := by
  obtain ⟨F, Q, hi⟩ := h.pool
  have hk : ∀ t, t < s.allocated → Keeps s s' t := by
    intro t hlt
    obtain ⟨hcall, -, htimed⟩ := hheap t
    exact keeps_of_heap hi.labels ht hlt hcall htimed (hst _)
  refine h.of_frame ht hpool ?_ ?_ hnew
  · intro w x hw
    exact .inr ⟨hth ▸ hw, fun t _ hlt => hk t hlt⟩
  · intro t hlt hd
    rw [halloc] at hlt
    exact .inr ⟨hlt, (hheap t).2.1 ▸ hd, hk t hlt⟩

/-- A step of thread `w` to `p`. The other threads hold other records. -/
theorem ResultInv.of_thread (h : ResultInv s) {a : Action κ δ} {w : Nat}
    {x : WorkerThreadPoolContext} (p : WorkerPc) (ht : Transition s a s')
    (hpool : ∃ F Q, PoolInv s' F Q) (hw : s.threads[w]? = some x)
    (hth : s'.threads = s.threads.set w { x with pc := p })
    (halloc : s'.allocated = s.allocated)
    (hheap : ∀ t, (s'.heap t).call = (s.heap t).call
      ∧ ((s'.heap t).timedout = false → (s.heap t).timedout = false))
    (hother : ∀ t, t < s.allocated → t ∉ x.pc.holds →
      (s'.heap t).completed = (s.heap t).completed
      ∧ storedValue s'.history (s.heap t).call = storedValue s.history (s.heap t).call)
    (hp : WorkerOk s' p)
    (hhold : ∀ t ∈ x.pc.holds, (s'.heap t).completed = true →
      ∃ v, Answered s'.history (s'.argsOf t) (s'.heap t).call v)
    (hquiet : ∀ c e, s'.history ≠ s.history ++ [.returned c e]) : ResultInv s' := by
  obtain ⟨F, Q, hi⟩ := h.pool
  have hk : ∀ t, t < s.allocated → t ∉ x.pc.holds → Keeps s s' t := by
    intro t hlt hne
    obtain ⟨hcall, htimed⟩ := hheap t
    exact keeps_of_heap hi.labels ht hlt hcall htimed (hother t hlt hne).2
  apply h.of_frame ht hpool
  · intro w' x' hw'
    rw [hth, List.getElem?_set] at hw'
    split at hw'
    · split at hw'
      · cases hw'
        exact .inl hp
      · cases hw'
    · rename_i hne
      refine .inr ⟨hw', fun t htx hlt => hk t hlt ?_⟩
      intro htx'
      -- a record in the hands of both would be counted twice
      have hone := hi.lists.once t
      have htwo : _ ≤ s.held.count t := count_add_count_le hw hw' hne (fun y => y.pc.holds) t
      have h₁ := List.count_pos_iff.mpr htx
      have h₂ := List.count_pos_iff.mpr htx'
      omega
  · intro t hlt hd
    rw [halloc] at hlt
    by_cases htx : t ∈ x.pc.holds
    · exact .inl (hhold t htx hd)
    · exact .inr ⟨hlt, (hother t hlt htx).1 ▸ hd, hk t hlt htx⟩
  · intro c hh
    exact absurd hh (hquiet c _)

/-- A step of thread `w` to `p` that touches no record. -/
theorem ResultInv.of_quiet (h : ResultInv s) {a : Action κ δ} {w : Nat}
    {x : WorkerThreadPoolContext} (p : WorkerPc) (ht : Transition s a s')
    (hpool : ∃ F Q, PoolInv s' F Q) (hw : s.threads[w]? = some x)
    (hth : s'.threads = s.threads.set w { x with pc := p })
    (halloc : s'.allocated = s.allocated) (hheap : s'.heap = s.heap)
    (hst : ∀ c, storedValue s'.history c = storedValue s.history c) (hp : WorkerOk s' p)
    (hquiet : ∀ c e, s'.history ≠ s.history ++ [.returned c e]) : ResultInv s' := by
  obtain ⟨F, Q, hi⟩ := h.pool
  refine h.of_thread p ht hpool hw hth halloc ?_ ?_ hp ?_ hquiet
  · intro t
    rw [hheap]
    exact ⟨rfl, id⟩
  · intro t _ _
    rw [hheap]
    exact ⟨rfl, hst _⟩
  · intro t htx hd
    have hlive := (hi.live t (.inr (PoolState.mem_held hw htx))).1
    rw [hheap, hlive] at hd
    cases hd

/-! ## The steps -/

/-- The record that is linked is new to its call. -/
theorem ResultInv.link (h : ResultInv s) {c : CallId} {a : EnqueueArgs κ δ} {i : Bool} {t : Addr}
    {s₁ s₂ : PoolState κ δ}
    (ht : Transition s (.enqueue c a i) ((s₂.setCall c (.linked t)).record (.linked c)))
    (hpool : ∃ F Q, PoolInv ((s₂.setCall c (.linked t)).record (.linked c)) F Q)
    (hacq : (s.beginCall c a).acquireTask i = .task t s₁)
    (happ : (s₁.fillTask t c a).appendPending t = some s₂) :
    ResultInv ((s₂.setCall c (.linked t)).record (.linked c)) := by
  obtain ⟨F, Q, hi⟩ := h.pool
  obtain ⟨hcalls, hhist, hth, -, -⟩ := link_frame hacq happ
  obtain ⟨hothers, hself, halloc⟩ := link_heap hacq happ
  have hlists₀ : ListInv (s.beginCall c a) F Q := hi.lists.congr (fun _ => rfl) rfl rfl
  obtain ⟨F', hfresh⟩ := PoolState.acquireTask_spec hlists₀ hacq
  have hk : ∀ t', t' ≠ t → t' < s.allocated →
      Keeps s ((s₂.setCall c (.linked t)).record (.linked c)) t' := by
    intro t' hne hlt
    obtain ⟨-, -, -, -, htimed, -, hcall'⟩ := WorkerThreadPoolTask.body_eq (hothers t' hne)
    apply keeps_of_heap hi.labels ht hlt hcall' (fun hf => htimed ▸ hf)
    show storedValue (s₂.history ++ [.linked c]) _ = _
    rw [storedValue_snoc, hhist]
  apply h.of_frame ht hpool
  · intro w x hw
    have hw' : s.threads[w]? = some x := hth ▸ hw
    refine .inr ⟨hw', fun t' htx hlt => hk t' ?_ hlt⟩
    intro hne
    exact hfresh.notHeld (hne ▸ PoolState.mem_held hw' htx)
  · intro t' hlt hd
    have hne : t' ≠ t := by
      rintro rfl
      rw [PoolState.fillTask_heap_self] at hself
      obtain ⟨-, -, -, -, -, hdone', -⟩ := WorkerThreadPoolTask.body_eq hself
      cases hdone'.symm.trans hd
    have hlt₂ : t' < s₂.allocated := hlt
    have hlt' : t' < s.allocated := by
      rcases halloc with ⟨rfl, ha⟩ | ha
      · rw [ha] at hlt₂
        exact Nat.lt_of_le_of_ne (Nat.le_of_lt_succ hlt₂) hne
      · rwa [ha] at hlt₂
    obtain ⟨-, -, -, -, -, hdone', -⟩ := WorkerThreadPoolTask.body_eq (hothers t' hne)
    exact .inr ⟨hlt', hdone'.symm.trans hd, hk t' hne hlt'⟩
  · intro c' hh
    have hh : s₂.history ++ [.linked c] = s.history ++ [_] := hh
    rw [hhist] at hh
    cases List.singleton_inj.mp (List.append_cancel_left hh)

/-- The worker's steps between the callback and the store. -/
theorem ResultInv.silent (h : ResultInv s) {w : Nat} {x : WorkerThreadPoolContext} {p : WorkerPc}
    (ht : Transition s (.worker w) (s.setThread w { x with pc := p }))
    (hpool : ∃ F Q, PoolInv (s.setThread w { x with pc := p }) F Q)
    (hw : s.threads[w]? = some x) (hs : Silent s x p) :
    ResultInv (s.setThread w { x with pc := p }) := by
  obtain ⟨F, Q, hi⟩ := h.pool
  have hcur := h.workers w x hw
  refine h.of_quiet p ht hpool hw rfl rfl rfl (fun _ => rfl) ?_
    (fun c e hh => by simp [PoolState.setThread] at hh)
  cases hs with
  | again | sleep | awake | nothing | exit => trivial
  | @noResult t v hx hr =>
      rw [hx] at hcur
      intro htimed
      refine ⟨v, hcur, ?_⟩
      intro hcb
      -- without a timeout, no result pointer means that none was passed
      have hheld : t ∈ s.held := PoolState.mem_held hw (by simp [hx, WorkerPc.holds])
      have hres := (hi.labels.filled t (hi.lists.bound t (.inr (.inr hheld)))).result
      have htimed' : (s.heap t).timedout = false := htimed
      have hcb' : (s.calls (s.heap t).call).args.callbackResult = true := hcb
      rw [hr, htimed', hcb'] at hres
      cases hres
  | result hx hr =>
      rw [hx] at hcur
      exact hcur
  | @load t v hx =>
      rw [hx] at hcur
      have hheld : t ∈ s.held := PoolState.mem_held hw (by simp [hx, WorkerPc.holds])
      have hres := (hi.labels.filled t (hi.lists.bound t (.inr (.inr hheld)))).result
      refine ⟨hcur, ?_, ?_⟩
      · intro c hc
        rw [hres] at hc
        split at hc <;> cases hc
        rfl
      · intro htimed hcb
        have htimed' : (s.heap t).timedout = false := htimed
        have hcb' : (s.calls (s.heap t).call).args.callbackResult = true := hcb
        rw [hres, htimed', hcb']
        rfl

theorem ResultInv.store (h : ResultInv s) {w : Nat} {x : WorkerThreadPoolContext} {t : Addr}
    {v : Int} {c : CallId}
    (ht : Transition s (.worker w)
      ((s.setThread w { x with pc := .finish t }).record (.stored c v)))
    (hpool : ∃ F Q, PoolInv ((s.setThread w { x with pc := .finish t }).record (.stored c v)) F Q)
    (hw : s.threads[w]? = some x) (hx : x.pc = .storeResult t v (some c)) :
    ResultInv ((s.setThread w { x with pc := .finish t }).record (.stored c v)) := by
  obtain ⟨F, Q, hi⟩ := h.pool
  have hcur := h.workers w x hw
  rw [hx] at hcur
  obtain ⟨hcomp, hloc, -⟩ := hcur
  obtain rfl := hloc c rfl
  have hheld : t ∈ s.held := PoolState.mem_held hw (by simp [hx, WorkerPc.holds])
  have hlt := hi.lists.bound t (.inr (.inr hheld))
  refine h.of_thread (.finish t) ht hpool hw rfl rfl (fun _ => ⟨rfl, id⟩) ?_ ?_ ?_
    (fun c e hh => by simp [PoolState.record, PoolState.setThread] at hh)
  · -- another record belongs to another call
    intro t' hlt' hne
    refine ⟨rfl, (storedValue_snoc _ _ _).trans (if_neg fun heq => hne ?_)⟩
    rw [hx, ← hi.labels.inj t hlt t' hlt' heq]
    simp [WorkerPc.holds]
  · intro _
    refine ⟨v, List.mem_append_left _ hcomp, ?_⟩
    intro _
    exact (storedValue_snoc _ _ _).trans (if_pos rfl)
  · intro t' htx hd
    have hlive := (hi.live t' (.inr (PoolState.mem_held hw htx))).1
    cases hlive.symm.trans hd

theorem ResultInv.giveBack (h : ResultInv s) {w : Nat} {x : WorkerThreadPoolContext} {t : Addr}
    (ht : Transition s (.worker w) ((s.pushTaskPool t).setThread w { x with pc := .loop }))
    (hpool : ∃ F Q, PoolInv ((s.pushTaskPool t).setThread w { x with pc := .loop }) F Q)
    (hw : s.threads[w]? = some x) :
    ResultInv ((s.pushTaskPool t).setThread w { x with pc := .loop }) := by
  obtain ⟨F, Q, hi⟩ := h.pool
  have hheap : ∀ t', (Function.update s.heap t
      { s.heap t with next := s.taskPoolFirst } t').body = (s.heap t').body :=
    s.setTask_field WorkerThreadPoolTask.body rfl
  refine h.of_thread .loop ht hpool hw rfl rfl ?_ ?_ trivial ?_
    (fun c e hh => by simp [PoolState.pushTaskPool, PoolState.setThread] at hh)
  · intro t'
    obtain ⟨-, -, -, -, htime, -, hc⟩ := WorkerThreadPoolTask.body_eq (hheap t')
    exact ⟨hc, fun hf => htime ▸ hf⟩
  · intro t' _ _
    obtain ⟨-, -, -, -, -, hd, -⟩ := WorkerThreadPoolTask.body_eq (hheap t')
    exact ⟨hd, rfl⟩
  · intro t' htx hd
    obtain ⟨-, -, -, -, -, hd', -⟩ := WorkerThreadPoolTask.body_eq (hheap t')
    have hlive := (hi.live t' (.inr (PoolState.mem_held hw htx))).1
    cases (hd'.trans hlive).symm.trans hd

/-- Marking a record changes no other, and no label. -/
theorem complete_heap (s : PoolState κ δ) (t t' : Addr) :
    ((s.setTask t { s.heap t with
        completed := true
        semaphore := (s.heap t).semaphore + 1 }).heap t').call = (s.heap t').call
      ∧ ((s.setTask t { s.heap t with
        completed := true
        semaphore := (s.heap t).semaphore + 1 }).heap t').timedout = (s.heap t').timedout
      ∧ (t' ≠ t → ((s.setTask t { s.heap t with
        completed := true
        semaphore := (s.heap t).semaphore + 1 }).heap t').completed = (s.heap t').completed) := by
  refine ⟨s.setTask_field WorkerThreadPoolTask.call (by rfl) t',
    s.setTask_field WorkerThreadPoolTask.timedout (by rfl) t', ?_⟩
  intro htt
  exact congrArg WorkerThreadPoolTask.completed (Function.update_of_ne htt _ _)

theorem ResultInv.complete (h : ResultInv s) {w : Nat} {x : WorkerThreadPoolContext} {t : Addr}
    (ht : Transition s (.worker w) ((s.setTask t { s.heap t with
      completed := true
      semaphore := (s.heap t).semaphore + 1 }).setThread w { x with pc := .loop }))
    (hpool : ∃ F Q, PoolInv ((s.setTask t { s.heap t with
      completed := true
      semaphore := (s.heap t).semaphore + 1 }).setThread w { x with pc := .loop }) F Q)
    (hw : s.threads[w]? = some x) (hx : x.pc = .finish t)
    (htimed : (s.heap t).timedout = false) :
    ResultInv ((s.setTask t { s.heap t with
      completed := true
      semaphore := (s.heap t).semaphore + 1 }).setThread w { x with pc := .loop }) := by
  have hcur := h.workers w x hw
  rw [hx] at hcur
  have hheap := complete_heap s t
  refine h.of_thread .loop ht hpool hw rfl rfl ?_ ?_ trivial ?_
    (fun c e hh => by simp [PoolState.setTask, PoolState.setThread] at hh)
  · intro t'
    obtain ⟨hcall, htime, -⟩ := hheap t'
    exact ⟨hcall, fun hf => htime.symm.trans hf⟩
  · intro t' _ hne
    refine ⟨(hheap t').2.2 fun htt => hne ?_, rfl⟩
    rw [hx, htt]
    simp [WorkerPc.holds]
  · intro t' htx _
    rw [hx] at htx
    obtain rfl : t' = t := by simpa [WorkerPc.holds] using htx
    have hcall := (hheap t').1
    show ∃ v, Answered s.history (s.calls ((s.setTask t' _).heap t').call).args
      ((s.setTask t' _).heap t').call v
    rw [hcall]
    exact hcur htimed

/-- Clearing a `running` flag moves no thread. -/
theorem ResultInv.stop (h : ResultInv s) {w : Nat} {x : WorkerThreadPoolContext}
    (ht : Transition s (.stop w) (s.setThread w { x with running := false }))
    (hpool : ∃ F Q, PoolInv (s.setThread w { x with running := false }) F Q)
    (hw : s.threads[w]? = some x) : ResultInv (s.setThread w { x with running := false }) := by
  obtain ⟨F, Q, hi⟩ := h.pool
  refine h.of_frame ht hpool ?_ ?_ (fun c hh => by simp [PoolState.setThread] at hh)
  · intro w' x' hw'
    have hw' : (s.threads.set w { x with running := false })[w']? = some x' := hw'
    rw [List.getElem?_set] at hw'
    split at hw'
    · split at hw'
      · cases hw'
        exact .inl (h.workers w x hw)
      · cases hw'
    · exact .inr ⟨hw', fun t _ hlt => keeps_of_heap hi.labels ht hlt rfl id rfl⟩
  · intro t hlt hd
    exact .inr ⟨hlt, hd, keeps_of_heap hi.labels ht hlt rfl id rfl⟩

/-- **The step lemma.** -/
theorem ResultInv.step (h : ResultInv s) {a : Action κ δ} (hok : NoEarlyWake s a)
    (ht : Transition s a s') : ResultInv s' := by
  obtain ⟨F, Q, hi⟩ := h.pool
  have hpool : ∃ F Q, PoolInv s' F Q := hi.step hok.noLateError ht
  have hht := ht
  cases ht with
  | @reject c a i e hidle he =>
      apply h.of_call hht hpool rfl rfl (fun _ => ⟨rfl, rfl, id⟩)
        (fun _ => storedValue_snoc _ _ _)
      intro c' hh
      have hev := List.singleton_inj.mp (List.append_cancel_left hh)
      rcases he with rfl | rfl <;> cases hev
  | link hidle hcb hlen hacq happ => exact h.link hht hpool hacq happ
  | @postReturn c t hpc htime =>
      apply h.of_call hht hpool rfl rfl (fun _ => ⟨rfl, rfl, id⟩)
        (fun _ => storedValue_snoc _ _ _)
      intro c' hh
      cases List.singleton_inj.mp (List.append_cancel_left hh)
      exact ⟨by simp [hpc], fun hn => absurd htime hn⟩
  | @postWait c t hpc htime =>
      exact h.of_call hht hpool rfl rfl (fun _ => ⟨rfl, rfl, id⟩) (fun _ => rfl)
        (fun c' hh => by simp [PoolState.setCall] at hh)
  | @waitForever c t e hpc htime hends =>
      apply h.of_call hht hpool rfl rfl (fun t' => semaphore_frame s t t' _)
        (fun _ => storedValue_snoc _ _ _)
      intro c' hh
      cases List.singleton_inj.mp (List.append_cancel_left hh)
      have hholds : (s.calls c).pc.holds = some t := by rw [hpc]; rfl
      apply h.answered hi hholds
      cases e with
      | posted => exact hi.completed_of_token hholds (by simpa [waitEnds] using hends)
      | timedOut => cases hends
      | error => exact hok t hpc htime rfl
  | @waitTimed c t e hpc htime hends =>
      exact h.of_call hht hpool rfl rfl (fun t' => semaphore_frame s t t' _) (fun _ => rfl)
        (fun c' hh => by simp [PoolState.setCall, PoolState.setTask] at hh)
  | @settleCompleted c t e hpc hd =>
      apply h.of_call hht hpool rfl rfl (fun _ => ⟨rfl, rfl, id⟩)
        (fun _ => storedValue_snoc _ _ _)
      intro c' hh
      cases List.singleton_inj.mp (List.append_cancel_left hh)
      exact h.answered hi (by rw [hpc]; rfl) hd
  | @settlePosted c t hpc hd =>
      rw [hi.waited c t hpc] at hd
      cases hd
  | @settleError c t hpc hd =>
      rw [hok.noLateError t hpc] at hd
      cases hd
  | @settleTimeout c t hpc hd =>
      refine h.of_call hht hpool rfl rfl ?_ (fun _ => storedValue_snoc _ _ _) ?_
      · intro t'
        show (Function.update s.heap t _ t').call = _
          ∧ (Function.update s.heap t _ t').completed = _
          ∧ ((Function.update s.heap t _ t').timedout = false → _)
        by_cases htt : t' = t
        · subst htt
          simp
        · simp [htt]
      · intro c' hh
        cases List.singleton_inj.mp (List.append_cancel_left hh)
  | silent hw hs => exact h.silent hht hpool hw hs
  | @dequeue w x t hw hx hlen hfirst =>
      exact h.of_quiet (.dequeued t) hht hpool hw rfl rfl rfl (fun _ => storedValue_snoc _ _ _)
        trivial (fun c e hh => by simp [PoolState.afterDequeue] at hh)
  | @start w x t hw hx hcb =>
      exact h.of_quiet (.callback t _) hht hpool hw rfl rfl rfl (fun _ => storedValue_snoc _ _ _)
        rfl (fun c e hh => by simp [PoolState.record, PoolState.setThread] at hh)
  | @callbackReturn w x t c v hw hx =>
      have hcur := h.workers w x hw
      rw [hx] at hcur
      refine h.of_quiet (.testResult t v) hht hpool hw rfl rfl rfl (fun _ => storedValue_snoc _ _ _)
        ?_ (fun c e hh => by simp [PoolState.record, PoolState.setThread] at hh)
      obtain rfl : c = (s.heap t).call := hcur
      exact List.mem_append_right _ (List.mem_singleton_self _)
  | store hw hx => exact h.store hht hpool hw hx
  | giveBack hw hx htimed => exact h.giveBack hht hpool hw
  | complete hw hx htimed => exact h.complete hht hpool hw hx htimed
  | @wake w x e hw hx hends =>
      exact h.of_quiet (.woken e) hht hpool hw rfl rfl rfl (fun _ => rfl) trivial
        (fun c e hh => by simp [PoolState.setThread] at hh)
  | stop hw => exact h.stop hht hpool hw
  | stopPost =>
      exact h.of_call hht hpool rfl rfl (fun _ => ⟨rfl, rfl, id⟩) (fun _ => rfl)
        (fun c' hh => by simp at hh)

theorem resultInv_reaches {s₀ : PoolState κ δ} (h₀ : Initial s₀)
    (h : Reaches step NoEarlyWake s₀ s) : ResultInv s := by
  refine h.invariant ?_ fun _ _ _ hi hok hs => hi.step hok (step_transition hs)
  have hpool : ∃ F Q, PoolInv s₀ F Q := ⟨[], [], .initial h₀⟩
  obtain ⟨m, n, rfl⟩ := h₀.eq
  refine ⟨hpool, ?_, by simp, .nil⟩
  intro w x hw
  rw [List.eq_of_mem_replicate (List.mem_of_getElem? hw)]
  exact trivial

/-- **Success comes after the callback**: in every run in which no wait fails
before its task has completed, a call with a timeout other than 0 that
returns `WORKER_THREAD_POOL_SUCCESS` does so after its own callback has
returned, and the location it passed holds the callback's value. -/
theorem success_after_callback {s₀ : PoolState κ δ} (h₀ : Initial s₀)
    (h : Reaches step NoEarlyWake s₀ s) : Past (SuccessAfterCallback s) s.history :=
  (resultInv_reaches h₀ h).past

theorem success_after_callback_completedRun :
    ∃ s : PoolState Unit Unit, .returned 0 workerThreadPoolSuccess ∈ s.history
      ∧ Past (SuccessAfterCallback s) s.history :=
  let hrun : (run step NoEarlyWake completedRun { maxQueueSize := 1, threads := [{}] }).isSome
    = true := rfl
  let hmem : Event.returned 0 0 ∈ [.linked 0, .dequeued 0, .started 0, .completed 0 7,
    .stored 0 7, .returned 0 0] := by decide
  ⟨_, hmem, success_after_callback ⟨1, 1, rfl⟩ (reaches_get hrun)⟩

/-- A wait for ever, interrupted while the task is still queued. -/
def interruptedForeverRun : List (Action Unit Unit) :=
  [.enqueue 0 { callback := some (), timeout := -1 } true, .post 0, .wait 0 .error]

theorem success_before_callback :
    ¬ ∀ s₀ s : PoolState Unit Unit, Initial s₀ → Reaches step Always s₀ s →
      Past (SuccessAfterCallback s) s.history := by
  intro hall
  have hrun : (run step Always interruptedForeverRun
      { maxQueueSize := 1, threads := [{}] }).isSome = true := rfl
  obtain ⟨v, hans⟩ := hall _ _ ⟨1, 1, rfl⟩ (reaches_get hrun) [.linked 0]
    (.returned 0 workerThreadPoolSuccess) [] rfl 0 rfl (show (-1 : UInt64) ≠ 0 by decide)
  exact absurd hans.completed (by simp)

end CWebServer.WorkerThreadPool
