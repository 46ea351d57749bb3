import CWebServer.WorkerThreadPool.Shutdown

/-!
# WorkerThreadPool — Termination

`worker_thread_pool_dealloc` comes to an end. Once it has cleared the flags,
each worker is a bounded number of its own steps from its exit, wherever it
stands, and so is the owner from its return; no thread is ever blocked but by
a callback that does not return, and none has to wait for a timeout, because
one token per thread has been posted.
-/

namespace CWebServer.WorkerThreadPool

open CWebServer.Lib CWebServer.Runs

variable {κ δ : Type} {s s' : OwnedPool κ δ}

/-- A worker's steps until it exits, when its flag is cleared. -/
def WorkerPc.stepsToExit : WorkerPc → Nat
  | .exited => 0
  | .loop | .woken _ => 1
  | .waiting | .finish _ => 2
  | .storeResult .. => 3
  | .loadResult .. => 4
  | .testResult .. => 5
  | .callback .. => 6
  | .dequeued _ => 7
  | .checkPending | .relock _ => 8

theorem WorkerPc.stepsToExit_le (p : WorkerPc) : p.stepsToExit ≤ 8 := by
  cases p <;> simp [stepsToExit]

theorem Moves.stepsToExit {p : PoolState κ δ} {x : WorkerThreadPoolContext} {q : WorkerPc}
    (h : Moves p x q) (hstop : x.running = false) : q.stepsToExit + 1 ≤ x.pc.stepsToExit := by
  cases h with
  | silent hs =>
      cases hs with
      | again hx hr | awake hx hr => rw [hstop] at hr; cases hr
      | exit hx => rcases hx with hx | ⟨e, hx⟩ <;> simp [hx, WorkerPc.stepsToExit]
      | sleep hx | nothing hx | noResult hx | result hx | load hx =>
          simp [hx, WorkerPc.stepsToExit]
  | dequeue hx => rcases hx with hx | ⟨e, hx⟩ <;> simp [hx, WorkerPc.stepsToExit]
  | wake hx | start hx | callbackReturn hx | store hx | finish hx =>
      simp [hx, WorkerPc.stepsToExit]

/-- All flags are cleared. -/
@[simp] def OwnerPc.finishing : OwnerPc → Bool
  | .postThread _ | .joinThread _ | .freeThreads | .destroySemaphore | .destroyMutex
  | .freeTaskPool _ | .freePending _ | .deallocated => true
  | .initMutex | .initSemaphore | .createThread _ | .initialised | .stopThread _ => false

/-- The owner's steps that are left; `n` is the number of threads, `m` that of
the records not freed yet. -/
def OwnerPc.stepsLeft (n m : Nat) : OwnerPc → Nat
  | .postThread i => (n - i) + n + m + 7
  | .joinThread i => (n - i) + m + 6
  | .freeThreads => m + 5
  | .destroySemaphore => m + 4
  | .destroyMutex => m + 3
  | .freeTaskPool _ => m + 2
  | .freePending _ => m + 1
  | .initMutex | .initSemaphore | .createThread _ | .initialised | .stopThread _
  | .deallocated => 0

def PoolState.stepsToExit (s : PoolState κ δ) : Nat :=
  (s.threads.map fun x => x.pc.stepsToExit).sum

def OwnedPool.stepsLeft (s : OwnedPool κ δ) : Nat :=
  s.owner.stepsLeft s.numThreads (s.pool.allocated - s.freed.length) + s.pool.stepsToExit

/-- Orderly runs in which no tested pointer is cleared. -/
def Tidy (s : OwnedPool κ δ) (a : OwnedAction κ δ) : Prop :=
  Orderly s a ∧
    match a with
    | .pool a => NoClearBehindTest s.pool a
    | .owner _ => True

instance (s : OwnedPool κ δ) (a : OwnedAction κ δ) : Decidable (Tidy s a) :=
  match a with
  | .pool a => inferInstanceAs (Decidable (_ ∧ NoClearBehindTest s.pool a))
  | .owner _ => inferInstanceAs (Decidable (_ ∧ True))

structure TidyInv (s : OwnedPool κ δ) : Prop where
  owned : OwnedInv s
  pointers : PointerInv s.pool
  callbacks : CallbackInv s.pool

theorem nodup_length_le {l : List Nat} {n : Nat} (hnd : l.Nodup) (h : ∀ t ∈ l, t < n) :
    l.length ≤ n := by
  have hsub : l ⊆ List.range n := fun t ht => List.mem_range.mpr (h t ht)
  simpa using (List.subperm_of_subset hnd hsub).length_le

/-- There are at least as many records as have been freed, and one more while
the next is about to be. -/
theorem OwnedInv.freed_lt (h : OwnedInv s) {t : Addr}
    (hs : s.owner = .freeTaskPool (some t) ∨ s.owner = .freePending (some t)) :
    s.freed.length < s.pool.allocated := by
  obtain ⟨F, Q, hr⟩ := h.records
  have hsplit : ∃ l rest, Kept s.pool F Q ∧ F ++ Q = (s.freed ++ t :: rest) ++ l := by
    rcases hs with hs | hs
    · simp only [OwnedPool.Records, hs] at hr
      obtain ⟨hkept, -, rest, hF, hchain⟩ := hr
      obtain ⟨rest', rfl, -⟩ := hchain.pop
      exact ⟨Q, rest', hkept, by rw [hF]⟩
    · simp only [OwnedPool.Records, hs] at hr
      obtain ⟨hkept, rest, hF, hchain⟩ := hr
      obtain ⟨rest', rfl, -⟩ := hchain.pop
      exact ⟨[], rest', hkept, by rw [hF, List.append_nil]⟩
  obtain ⟨l, rest, hkept, heq⟩ := hsplit
  have hle := nodup_length_le hkept.nodup fun t ht => ((hkept.kept t).mp ht).1
  rw [heq] at hle
  simp at hle
  omega

/-- **A step** with all flags cleared brings the end nearer. -/
theorem OwnedInv.stepsLeft (h : OwnedInv s) {a : OwnedAction κ δ} (hok : Orderly s a)
    (hs : ownedStep s a = some s') (hfinishing : s.owner.finishing = true) :
    s'.owner.finishing = true ∧ s'.numThreads = s.numThreads
      ∧ s'.stepsLeft + 1 ≤ s.stepsLeft := by
  rcases h.cases hok hs with ⟨ok, rfl, hu⟩ | ⟨b, p, rfl, hp, hstop, hpost, rfl⟩
  · cases howner : s.owner with
    | initMutex | initSemaphore | createThread | initialised | stopThread =>
        rw [howner] at hfinishing
        cases hfinishing
    | postThread i =>
        simp only [OwnedPool.ownerStep, howner] at hu
        split at hu <;> cases hu
        · refine ⟨rfl, rfl, ?_⟩
          simp only [OwnedPool.stepsLeft, OwnerPc.stepsLeft, howner]
          omega
        · refine ⟨rfl, rfl, ?_⟩
          simp only [OwnedPool.stepsLeft, OwnerPc.stepsLeft, PoolState.stepsToExit, howner]
          omega
    | joinThread i =>
        simp only [OwnedPool.ownerStep, howner] at hu
        split at hu
        · cases hu
          refine ⟨rfl, rfl, ?_⟩
          simp only [OwnedPool.stepsLeft, OwnerPc.stepsLeft, howner]
          omega
        · split at hu
          · cases hu
            refine ⟨rfl, rfl, ?_⟩
            simp only [OwnedPool.stepsLeft, OwnerPc.stepsLeft, howner]
            omega
          · cases hu
    | freeThreads | destroySemaphore | destroyMutex =>
        simp only [OwnedPool.ownerStep, howner, Option.some.injEq] at hu
        subst hu
        refine ⟨rfl, rfl, ?_⟩
        simp only [OwnedPool.stepsLeft, OwnerPc.stepsLeft, howner]
        omega
    | freeTaskPool q | freePending q =>
        cases q with
        | none =>
            simp only [OwnedPool.ownerStep, howner, Option.some.injEq] at hu
            subst hu
            refine ⟨rfl, rfl, ?_⟩
            simp only [OwnedPool.stepsLeft, OwnerPc.stepsLeft, PoolState.stepsToExit, howner]
            omega
        | some t =>
            have hlt := h.freed_lt (t := t) (by simp [howner])
            simp only [OwnedPool.ownerStep, howner, Option.some.injEq] at hu
            subst hu
            refine ⟨rfl, rfl, ?_⟩
            simp only [OwnedPool.stepsLeft, OwnerPc.stepsLeft, howner, List.length_append,
              List.length_singleton]
            omega
    | deallocated => simp [OwnedPool.ownerStep, howner] at hu
  · refine ⟨hfinishing, rfl, ?_⟩
    have hs : s.owner ≠ .initialised := fun he => by rw [he] at hfinishing; cases hfinishing
    obtain ⟨w, hw⟩ := worker_of_step (step_transition hp) (h.calls hs)
      (fun c d i he => hs (by subst he; exact hok.1)) hstop hpost
    obtain ⟨hjoined, hthreads⟩ := h.hasThreads_of_worker (step_transition hp) hw
    obtain ⟨x, q, hmoved⟩ := (step_transition hp).moves hw
    have hcleared : x.running = false := by
      refine h.stopped w x hmoved.worker ?_
      cases ho : s.owner <;> simp_all
    have hexit := hmoved.move.stepsToExit hcleared
    have hsum : _ + x.pc.stepsToExit = _ + q.stepsToExit :=
      sum_map_set_add hmoved.worker { x with pc := q } fun x => x.pc.stepsToExit
    simp only [OwnedPool.stepsLeft, PoolState.stepsToExit, hmoved.threads, hmoved.allocated]
    omega

/-- As long as there are workers, the lists are intact. -/
theorem OwnedInv.poolInv (h : OwnedInv s) (hthreads : s.owner.hasThreads = true) :
    ∃ F Q, PoolInv s.pool F Q := by
  have hfreeing : s.owner.freeing = false := by cases hs : s.owner <;> simp_all
  obtain ⟨F, Q, hr⟩ := h.records
  exact ⟨F, Q, ((OwnedPool.records_of_not_freeing hfreeing).mp hr).2.pool⟩

/-- The owner writes to no record, and moves no thread. -/
theorem OwnedPool.ownerStep_pool {ok : Bool} (hs : s.ownerStep ok = some s') :
    s'.pool.heap = s.pool.heap ∧ s'.pool.allocated = s.pool.allocated
      ∧ ∀ x ∈ s'.pool.threads, x.pc = .loop ∨ ∃ y ∈ s.pool.threads, y.pc = x.pc := by
  cases howner : s.owner with
  | initMutex | initSemaphore =>
      simp only [ownerStep, howner] at hs
      split at hs <;> cases hs <;> exact ⟨rfl, rfl, fun x hx => .inr ⟨x, hx, rfl⟩⟩
  | createThread i =>
      simp only [ownerStep, howner] at hs
      split at hs
      · cases hs
        exact ⟨rfl, rfl, fun x hx => .inr ⟨x, hx, rfl⟩⟩
      · split at hs <;> cases hs
        · refine ⟨rfl, rfl, ?_⟩
          intro x hx
          rcases List.mem_append.mp hx with hx | hx
          · exact .inr ⟨x, hx, rfl⟩
          · rw [List.mem_singleton.mp hx]
            exact .inl rfl
        · exact ⟨rfl, rfl, fun x hx => .inr ⟨x, hx, rfl⟩⟩
  | stopThread i =>
      simp only [ownerStep, howner] at hs
      split at hs <;> cases hs
      · exact ⟨rfl, rfl, fun x hx => .inr ⟨x, hx, rfl⟩⟩
      · refine ⟨rfl, rfl, ?_⟩
        intro x hx
        obtain ⟨w, hw⟩ := List.mem_iff_getElem?.mp hx
        rw [List.getElem?_modify] at hw
        obtain ⟨y, hy, rfl⟩ := Option.map_eq_some_iff.mp hw
        exact .inr ⟨y, List.mem_of_getElem? hy, by split <;> rfl⟩
  | postThread i =>
      simp only [ownerStep, howner] at hs
      split at hs <;> cases hs <;> exact ⟨rfl, rfl, fun x hx => .inr ⟨x, hx, rfl⟩⟩
  | joinThread i =>
      simp only [ownerStep, howner] at hs
      split at hs
      · cases hs
        exact ⟨rfl, rfl, fun x hx => .inr ⟨x, hx, rfl⟩⟩
      · split at hs <;> cases hs
        exact ⟨rfl, rfl, fun x hx => .inr ⟨x, hx, rfl⟩⟩
  | initialised | freeThreads | destroySemaphore | destroyMutex =>
      simp only [ownerStep, howner, Option.some.injEq] at hs
      subst hs
      exact ⟨rfl, rfl, fun x hx => .inr ⟨x, hx, rfl⟩⟩
  | freeTaskPool q | freePending q =>
      cases q <;> simp only [ownerStep, howner, Option.some.injEq] at hs <;> subst hs <;>
        exact ⟨rfl, rfl, fun x hx => .inr ⟨x, hx, rfl⟩⟩
  | deallocated => simp [ownerStep, howner] at hs

theorem TidyInv.step (h : TidyInv s) {a : OwnedAction κ δ} (hok : Tidy s a)
    (hs : ownedStep s a = some s') : TidyInv s' := by
  refine ⟨h.owned.step hok.1 hs, ?_, ?_⟩
  · rcases h.owned.cases hok.1 hs with ⟨ok, rfl, hu⟩ | ⟨b, p, rfl, hp, hstop, hpost, rfl⟩
    · obtain ⟨hheap, -, hthreads⟩ := OwnedPool.ownerStep_pool hu
      exact h.pointers.congr hthreads fun _ _ t _ => by rw [hheap]
    · obtain ⟨hthreads, -⟩ := h.owned.poolStep hok.1 (step_transition hp) hstop hpost
      obtain ⟨F, Q, hpool⟩ := h.owned.poolInv hthreads
      exact h.pointers.step hpool hok.2 (step_transition hp)
  · rcases h.owned.cases hok.1 hs with ⟨ok, rfl, hu⟩ | ⟨b, p, rfl, hp, hstop, hpost, rfl⟩
    · obtain ⟨hheap, halloc, -⟩ := OwnedPool.ownerStep_pool hu
      intro t hlt
      rw [hheap]
      exact h.callbacks t (halloc ▸ hlt)
    · exact (step_transition hp).callbackInv h.callbacks

theorem tidyInv_reaches {s₀ : OwnedPool κ δ} (h₀ : OwnedInitial s₀)
    (h : Reaches ownedStep Tidy s₀ s) : TidyInv s := by
  refine h.invariant ⟨ownedInv_initial h₀, ?_, ?_⟩ fun _ _ _ hi hok hs => hi.step hok hs
  · obtain ⟨m, n, rfl⟩ := h₀.eq
    constructor <;> simp
  · obtain ⟨m, n, rfl⟩ := h₀.eq
    intro t hlt
    cases hlt

theorem OwnedInv.stepsLeft_deallocated (h : OwnedInv s) (hs : s.owner = .deallocated) :
    s.stepsLeft = 0 := by
  have hexit : s.pool.stepsToExit = 0 := by
    apply List.sum_eq_zero
    intro n hn
    obtain ⟨x, hx, rfl⟩ := List.mem_map.mp hn
    obtain ⟨w, hw⟩ := List.mem_iff_getElem?.mp hx
    rw [h.joined w (by simp [hs]) x hw]
    rfl
  rw [OwnedPool.stepsLeft, hs, hexit]
  rfl

theorem approaches_dealloc :
    Approaches (ownedStep : OwnedPool κ δ → OwnedAction κ δ → _) Tidy
      (fun s => OwnedInv s ∧ s.owner.finishing = true) (fun s => s.owner = .deallocated)
      (fun _ => true) OwnedPool.stepsLeft where
  keeps hi hok hs := ⟨hi.1.step hok.1 hs, (hi.1.stepsLeft hok.1 hs hi.2).1⟩
  stays hi hg hok hs := by
    -- there is no step left
    have hnone := OwnedInv.stepsLeft_deallocated hi.1 hg
    have hlt := (hi.1.stepsLeft hok.1 hs hi.2).2.2
    omega
  lowers hi hok hs := .inr (hi.1.stepsLeft hok.1 hs hi.2).2.2

/-! ## Nobody is blocked -/

/-- A worker's wait, if this is the end of one, ends by a post. -/
def Prompt : OwnedAction κ δ → Prop
  | .pool (.wake _ e) => e = .posted
  | _ => True

theorem ownedStep_owner_isSome (h : s.misused = none) (hs : (s.ownerStep true).isSome = true) :
    (ownedStep s (.owner true)).isSome = true := by
  simp [ownedStep, h, hs]

theorem ownedStep_pool_isSome (h : s.misused = none) {a : Action κ δ} {w : Nat}
    (ha : a.worker? = some w) (hs : (WorkerThreadPool.step s.pool a).isSome = true) :
    (ownedStep s (.pool a)).isSome = true := by
  cases a <;> simp_all [ownedStep, Action.worker?]

/-- A worker's step is tidy. -/
theorem tidy_worker (s : OwnedPool κ δ) {a : Action κ δ} {w : Nat} (ha : a.worker? = some w) :
    Tidy s (.pool a) := by
  cases a with
  | worker | wake | callbackReturn => exact ⟨⟨trivial, trivial⟩, trivial⟩
  | enqueue | post | wait | settle | stop | stopPost => cases ha

/-- A worker that has been told to stop, and for which a token has been
posted, has a step that needs no timeout. -/
theorem TidyInv.worker_moves (h : TidyInv s) {i w : Nat} (hs : s.owner = .joinThread i)
    {x : WorkerThreadPoolContext} (hw : s.pool.threads[w]? = some x) (hx : x.pc ≠ .exited) :
    ∃ a : Action κ δ, a.worker? = some w ∧ Prompt (.pool a)
      ∧ (WorkerThreadPool.step s.pool a).isSome = true := by
  by_cases hwait : x.pc = .waiting
  · have hsleeps : 0 < s.pool.sleepers := by
      apply List.countP_pos_iff.mpr
      exact ⟨x, List.mem_of_getElem? hw, by rw [hwait]; rfl⟩
    have htokens := h.owned.posted i hs
    have hpos : 0 < s.pool.tasksSemaphore := by omega
    exact ⟨.wake w .posted, rfl, rfl,
      by simp [WorkerThreadPool.step, hw, PoolState.workerWake, hwait, waitEnds, hpos]⟩
  · obtain ⟨F, Q, hpool⟩ := h.owned.poolInv (by rw [hs]; rfl)
    have hnull := h.pointers.storing x (List.mem_of_getElem? hw)
    obtain ⟨a, ha, hsome⟩ := canMove_of_poolInv hpool h.callbacks hw hx hnull
    refine ⟨a, ha, ?_, hsome⟩
    cases a with
    | wake w' e =>
        cases ha
        simp [WorkerThreadPool.step, hw, PoolState.workerWake] at hsome
    | _ => trivial

theorem TidyInv.moves (h : TidyInv s) (hfinishing : s.owner.finishing = true)
    (hrunning : s.owner ≠ .deallocated) :
    ∃ a, Prompt a ∧ Tidy s a ∧ (ownedStep s a).isSome = true := by
  have howner : (s.ownerStep true).isSome = true →
      ∃ a, Prompt a ∧ Tidy s a ∧ (ownedStep s a).isSome = true := by
    intro hsome
    refine ⟨.owner true, trivial, ⟨⟨?_, trivial⟩, trivial⟩,
      ownedStep_owner_isSome h.owned.sound hsome⟩
    intro he
    rw [he] at hfinishing
    cases hfinishing
  cases hs : s.owner with
  | initMutex | initSemaphore | createThread | initialised | stopThread =>
      rw [hs] at hfinishing
      cases hfinishing
  | postThread i =>
      apply howner
      simp only [OwnedPool.ownerStep, hs]
      split <;> rfl
  | joinThread i =>
      by_cases hi : s.numThreads ≤ i
      · exact howner (by simp [OwnedPool.ownerStep, hs, hi])
      · by_cases hj : s.joinable i = true
        · exact howner (by simp [OwnedPool.ownerStep, hs, hi, hj])
        · cases hw : s.pool.threads[i]? with
          | none => simp [OwnedPool.joinable, hw] at hj
          | some x =>
              have hx : x.pc ≠ .exited := by simpa [OwnedPool.joinable, hw] using hj
              obtain ⟨a, ha, hprompt, hsome⟩ := h.worker_moves hs hw hx
              exact ⟨.pool a, hprompt, tidy_worker s ha,
                ownedStep_pool_isSome h.owned.sound ha hsome⟩
  | freeThreads | destroySemaphore | destroyMutex =>
      exact howner (by simp [OwnedPool.ownerStep, hs])
  | freeTaskPool q | freePending q =>
      apply howner
      cases q <;> simp [OwnedPool.ownerStep, hs]
  | deallocated => exact absurd hs hrunning

theorem OwnedPool.stepsLeft_le (s : OwnedPool κ δ) (h : s.pool.threads.length ≤ s.numThreads) :
    s.stepsLeft ≤ 10 * s.numThreads + s.pool.allocated + 7 := by
  have hsum : s.pool.stepsToExit ≤ 8 * s.pool.threads.length :=
    sum_map_le fun x _ => x.pc.stepsToExit_le
  have howner : s.owner.stepsLeft s.numThreads (s.pool.allocated - s.freed.length)
      ≤ 2 * s.numThreads + s.pool.allocated + 7 := by
    cases s.owner <;> simp only [OwnerPc.stepsLeft] <;> omega
  rw [stepsLeft]
  omega

/-- **`worker_thread_pool_dealloc` ends.** When all flags are cleared, the
threads take at most ten steps for each of them, one for each record and seven
more; and until the pool is deallocated there is always a step that needs no
timeout. The runs are those of `pool_never_misused`, in which no call times out
behind a worker's test of its pointer either (`NoClearBehindTest`). -/
theorem dealloc_terminates {s₀ s t : OwnedPool κ δ} (h₀ : OwnedInitial s₀)
    (h : Reaches ownedStep Tidy s₀ s) (hfinishing : s.owner.finishing = true)
    {as : List (OwnedAction κ δ)} (hrun : run ownedStep Tidy as s = some t)
    (hrunning : t.owner ≠ .deallocated) :
    as.length ≤ 10 * s.numThreads + s.pool.allocated + 7
      ∧ ∃ a, Prompt a ∧ Tidy t a ∧ (ownedStep t a).isSome = true := by
  have hs := tidyInv_reaches h₀ h
  have ht := tidyInv_reaches h₀ (h.trans (run_reaches hrun))
  have hcount := approaches_dealloc.countP_add_rank_le hrun ⟨hs.owned, hfinishing⟩ hrunning
  have hbound := s.stepsLeft_le hs.owned.count
  constructor
  · simp only [List.countP_true] at hcount
    omega
  · have hft := approaches_dealloc.run_keeps hrun ⟨hs.owned, hfinishing⟩
    exact ht.moves hft.2 hrunning

theorem stoppedRun_isSome : (run ownedStep Tidy stoppedRun ownedOne).isSome = true := by
  decide +kernel

/-- The worker's flag is cleared, and a task is still queued. -/
def stoppedState : OwnedPool Unit Unit :=
  (run ownedStep Tidy stoppedRun ownedOne).get stoppedRun_isSome

theorem joinRun_isSome :
    (run ownedStep Tidy [.owner true, .owner true] stoppedState).isSome = true := by
  decide +kernel

theorem dealloc_terminates_stoppedRun :
    2 ≤ 10 * stoppedState.numThreads + stoppedState.pool.allocated + 7
      ∧ ∃ a, Prompt a ∧ Tidy ((run ownedStep Tidy _ stoppedState).get joinRun_isSome) a
        ∧ (ownedStep ((run ownedStep Tidy _ stoppedState).get joinRun_isSome) a).isSome = true :=
  dealloc_terminates ⟨1, 1, rfl⟩ (reaches_get stoppedRun_isSome)
    (show stoppedState.owner.finishing = true by decide +kernel)
    (Option.some_get joinRun_isSome).symm (by decide +kernel)

end CWebServer.WorkerThreadPool
