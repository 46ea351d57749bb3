import CWebServer.HttpServer.Transitions
import CWebServer.WorkerThreadPool.Handover

/-!
# HttpServer — Owners

Where the records are that are not on the task pool: with the acceptor, in
the thread pool's queue, or with a worker. The list `owners` has them all. A
step of the thread pool moves a record from the acceptor to the queue, and
from there to a worker, and neither copies nor drops one.
-/

namespace CWebServer.HttpServer

open CWebServer.Lib CWebServer.Runs CWebServer.WorkerThreadPool

/-- How far the connection that holds a record has got. -/
inductive Stage
  | fresh (socket : Fd)   -- the record is not filled in
  | opened                -- nothing is answered
  | responded             -- an answer is begun
  | closed                -- the descriptor is closed
deriving DecidableEq, Repr

structure Holding where
  conn : ConnId
  data : DataAddr
  stage : Stage
deriving DecidableEq, Repr

def FinalizePc.stage : FinalizePc → Option Stage
  | .write => some .opened
  | .writing | .shutdown | .dealloc => some .responded
  | .lock | .close => some .closed
  | .done => none

def FinalizePc.holding (pc : FinalizePc) (c : ConnId) (t : DataAddr) : List Holding :=
  pc.stage.toList.map fun stage => ⟨c, t, stage⟩

def Handler.holding (h : Handler) : List Holding :=
  match h.pc with
  | .parse | .handle => [⟨h.conn, h.data, .opened⟩]
  | .finalize pc => pc.holding h.conn h.data

namespace ServerState

/-- What the acceptor holds. In the enqueue it has given the record away if
the task was queued. -/
def acceptorHolding (s : ServerState) : List Holding :=
  match s.acceptor with
  | .taken c fd t => [⟨c, t, .fresh fd⟩]
  | .filled c t => [⟨c, t, .opened⟩]
  | .enqueue c t => if c ∈ linkedCalls s.pool.history then [] else [⟨c, t, .opened⟩]
  | .finalize c t pc => pc.holding c t
  | .idle | .accepted .. | .lockFailed .. => []

/-- The record that the call `c` has passed to the pool. -/
def jobHolding (s : ServerState) (c : ConnId) : List Holding :=
  (s.pool.calls c).args.data.toList.map fun t => ⟨c, t, .opened⟩

def queueHolding (s : ServerState) : List Holding :=
  (pendingCalls s.pool.history).flatMap s.jobHolding

def workerHolding (s : ServerState) (w : Nat) : List Holding :=
  match s.pool.phase w with
  | .idle => []
  | .taken c => s.jobHolding c
  | .running _ =>
      match s.handlers w with
      | some h => h.holding
      | none => []

/-- What the queue and the workers hold. -/
def poolHolding (s : ServerState) : List Holding :=
  s.queueHolding ++ (List.range s.pool.threads.length).flatMap s.workerHolding

/-- Everything in the hands of a connection, once for each thread or queue
that has it. -/
def owners (s : ServerState) : List Holding :=
  s.acceptorHolding ++ s.poolHolding

/-- The connection that the acceptor has accepted and not given a record. -/
def bare (s : ServerState) : List ConnId :=
  match s.acceptor with
  | .accepted c _ | .lockFailed c _ => [c]
  | _ => []

end ServerState

variable {s s' : ServerState} {L : List DataAddr}

/-! ## One thread's part of the owners -/

/-- The acceptor's moves leave the rest alone. -/
theorem poolHolding_eq (hpool : s'.pool = s.pool) (hhand : s'.handlers = s.handlers) :
    s'.poolHolding = s.poolHolding := by
  have hjob : s'.jobHolding = s.jobHolding := by
    funext c
    simp only [ServerState.jobHolding, hpool]
  have hworker : s'.workerHolding = s.workerHolding := by
    funext w
    simp only [ServerState.workerHolding, hpool, hhand, hjob]
  simp only [ServerState.poolHolding, ServerState.queueHolding, hpool, hjob, hworker]

/-- The part of worker `w`. -/
theorem owners_worker {w : Nat} (hw : w < s.pool.threads.length) :
    ∃ R, s.owners.Perm (s.workerHolding w ++ R)
      ∧ ∀ s' : ServerState, s'.pool = s.pool → s'.acceptor = s.acceptor →
        (∀ w', w' ≠ w → s'.handlers w' = s.handlers w') →
        s'.owners.Perm (s'.workerHolding w ++ R) := by
  obtain ⟨R, hR⟩ := flatMap_perm_of_mem List.nodup_range (List.mem_range.mpr hw) s.workerHolding
  have hmove : ∀ X Y Z : List Holding, (X ++ (Y ++ (Z ++ R))).Perm (Z ++ (X ++ (Y ++ R))) := by
    intro X Y Z
    refine .trans (.append_left X (List.perm_append_comm_assoc Y Z R)) ?_
    exact List.perm_append_comm_assoc X Z (Y ++ R)
  have hsplit : ∀ s' : ServerState, s'.pool = s.pool → s'.acceptor = s.acceptor →
      (∀ w', w' ≠ w → s'.handlers w' = s.handlers w') →
      s'.owners.Perm (s'.workerHolding w ++ (s.acceptorHolding ++ (s.queueHolding ++ R))) := by
    intro s' hpool hacc hhand
    have hjob : s'.jobHolding = s.jobHolding := by
      funext c
      simp only [ServerState.jobHolding, hpool]
    have hworkers := hR s'.workerHolding fun w' _ hne => by
      simp only [ServerState.workerHolding, hpool, hhand w' hne, hjob]
    have hacceptor : s'.acceptorHolding = s.acceptorHolding := by
      simp only [ServerState.acceptorHolding, hacc, hpool]
    have hqueue : s'.queueHolding = s.queueHolding := by
      simp only [ServerState.queueHolding, hpool, hjob]
    rw [ServerState.owners, ServerState.poolHolding, hacceptor, hqueue, hpool]
    exact ((hworkers.append_left _).append_left _).trans (hmove _ _ _)
  exact ⟨_, hsplit s rfl rfl fun _ _ => rfl, hsplit⟩

/-- A worker with a handler is one of the pool's threads. -/
theorem running_lt {w : Nat} {c : ConnId} (h : s.pool.phase w = .running c) :
    w < s.pool.threads.length := by
  simp only [PoolState.phase] at h
  cases hw : s.pool.threads[w]? with
  | none => simp [hw] at h
  | some x => exact (List.getElem?_eq_some_iff.mp hw).1

/-! ## The pool's steps -/

theorem threads_length {κ δ : Type} {s s' : PoolState κ δ} {a : WorkerThreadPool.Action κ δ}
    (ht : WorkerThreadPool.Transition s a s') : s'.threads.length = s.threads.length := by
  cases ht with
  | link hidle hcb hmax hacq happ =>
      obtain ⟨-, -, hth, -, -⟩ := link_frame hacq happ
      exact congrArg List.length hth
  | reject | postReturn | postWait | waitForever | waitTimed | settleCompleted | settlePosted
  | settleTimeout | settleError | stopPost => rfl
  | silent | dequeue | start | store | giveBack | complete | wake | callbackReturn | stop =>
      exact List.length_set

/-- Only an enqueue links anything. -/
theorem linkedCalls_eq {κ δ : Type} {s s' : PoolState κ δ} {a : WorkerThreadPool.Action κ δ}
    (ht : WorkerThreadPool.Transition s a s') (ha : ∀ c x i, a ≠ .enqueue c x i) :
    linkedCalls s'.history = linkedCalls s.history := by
  cases ht with
  | reject | link => exact absurd rfl (ha _ _ _)
  | postWait | waitTimed | silent | giveBack | complete | wake | stop | stopPost => rfl
  | postReturn | waitForever | settleCompleted | settlePosted | settleTimeout | settleError
  | dequeue | start | store | callbackReturn => exact linkedCalls_snoc _ _

/-- A pending call has been linked. -/
theorem pendingCalls_linked {h : List Event} {c : CallId} (hc : c ∈ pendingCalls h) :
    c ∈ linkedCalls h :=
  List.mem_of_mem_drop hc

/-- A job in a worker's hands has been linked. -/
theorem taken_linked {κ δ : Type} {s : PoolState κ δ} (h : OutcomeInv s) {w : Nat} {c : CallId}
    (hc : s.phase w = .taken c) : c ∈ linkedCalls s.history := by
  obtain ⟨F, Q, hpool⟩ := h.pool
  simp only [PoolState.phase] at hc
  cases hw : s.threads[w]? with
  | none => simp [hw] at hc
  | some x =>
      simp only [hw] at hc
      cases hx : x.pc with
      | dequeued t =>
          rw [hx] at hc
          cases hc
          have hheld : t ∈ s.held := PoolState.mem_held hw (by simp [hx, WorkerPc.holds])
          exact hpool.labels.labelled t (hpool.lists.bound t (.inr (.inr hheld)))
      | _ => simp [hx, WorkerPc.phase] at hc

/-- The record that a linked call has passed stays the same. -/
theorem jobHolding_eq (h : OutcomeInv s.pool) {a : WorkerThreadPool.Action Unit DataAddr}
    (ht : WorkerThreadPool.Transition s.pool a s'.pool) {c : ConnId}
    (hc : c ∈ linkedCalls s.pool.history) : s'.jobHolding c = s.jobHolding c := by
  obtain ⟨F, Q, hpool⟩ := h.pool
  simp only [ServerState.jobHolding, ht.args (hpool.labels.calls.known c hc)]

/-- A worker whose phase and handler stay holds the same. -/
theorem workerHolding_eq (h : OutcomeInv s.pool) {a : WorkerThreadPool.Action Unit DataAddr}
    (ht : WorkerThreadPool.Transition s.pool a s'.pool) {w : Nat}
    (hphase : s'.pool.phase w = s.pool.phase w) (hhand : s'.handlers w = s.handlers w) :
    s'.workerHolding w = s.workerHolding w := by
  simp only [ServerState.workerHolding, hphase, hhand]
  cases hw : s.pool.phase w with
  | taken c => exact jobHolding_eq h ht (taken_linked h hw)
  | idle | running c => rfl

/-- Every worker holds what it held, and the queue is the same. -/
theorem owners_of_same (h : OutcomeInv s.pool) {a : WorkerThreadPool.Action Unit DataAddr}
    (ht : WorkerThreadPool.Transition s.pool a s'.pool)
    (hacceptor : s'.acceptorHolding = s.acceptorHolding)
    (hpending : pendingCalls s'.pool.history = pendingCalls s.pool.history)
    (hw : ∀ w, s'.workerHolding w = s.workerHolding w) : s'.owners.Perm s.owners := by
  have hjobs : (pendingCalls s.pool.history).flatMap s'.jobHolding
      = (pendingCalls s.pool.history).flatMap s.jobHolding := by
    apply List.flatMap_congr
    intro c hc
    exact jobHolding_eq h ht (pendingCalls_linked hc)
  rw [ServerState.owners, ServerState.owners, ServerState.poolHolding, ServerState.poolHolding,
    ServerState.queueHolding, ServerState.queueHolding, hacceptor, hpending, hjobs,
    threads_length ht, funext hw]

/-- The job at the head of the queue goes to worker `w`. -/
theorem owners_of_take (h : OutcomeInv s.pool) {a : WorkerThreadPool.Action Unit DataAddr}
    (ht : WorkerThreadPool.Transition s.pool a s'.pool)
    (hacceptor : s'.acceptorHolding = s.acceptorHolding) {w : Nat} {c : CallId}
    {rest : List CallId} (hpending : pendingCalls s.pool.history = c :: rest)
    (hpending' : pendingCalls s'.pool.history = rest) (hidle : s.pool.phase w = .idle)
    (htaken : s'.pool.phase w = .taken c)
    (hother : ∀ w', w' ≠ w → s'.workerHolding w' = s.workerHolding w') :
    s'.owners.Perm s.owners := by
  have hlt : w < s.pool.threads.length := by
    rw [← threads_length ht]
    simp only [PoolState.phase] at htaken
    cases hw : s'.pool.threads[w]? with
    | none => simp [hw] at htaken
    | some x => exact (List.getElem?_eq_some_iff.mp hw).1
  have hlinkedC : c ∈ linkedCalls s.pool.history :=
    pendingCalls_linked (by rw [hpending]; exact List.mem_cons_self)
  obtain ⟨R, hR⟩ := flatMap_perm_of_mem List.nodup_range (List.mem_range.mpr hlt)
    s.workerHolding
  have hbefore := hR s.workerHolding fun _ _ _ => rfl
  have hafter := hR s'.workerHolding fun w' _ hne => hother w' hne
  have hnone : s.workerHolding w = [] := by
    simp only [ServerState.workerHolding, hidle]
  have hjob : s'.workerHolding w = s.jobHolding c := by
    simp only [ServerState.workerHolding, htaken]
    exact jobHolding_eq h ht hlinkedC
  rw [hnone, List.nil_append] at hbefore
  rw [hjob] at hafter
  have hrest : rest.flatMap s'.jobHolding = rest.flatMap s.jobHolding := by
    apply List.flatMap_congr
    intro c' hc'
    apply jobHolding_eq h ht
    apply pendingCalls_linked
    rw [hpending]
    exact List.mem_cons_of_mem c hc'
  rw [ServerState.owners, ServerState.owners, ServerState.poolHolding, ServerState.poolHolding,
    ServerState.queueHolding, ServerState.queueHolding, hacceptor, hpending, hpending', hrest,
    List.flatMap_cons, threads_length ht, List.append_assoc]
  apply List.Perm.append_left
  refine (hafter.append_left _).trans ?_
  refine (List.perm_append_comm_assoc _ _ _).trans ?_
  exact (hbefore.symm.append_left _).append_left _

/-- **A step of the pool** other than an enqueue moves a record from the queue
to a worker, or leaves the records alone. The handlers change where a job is
started or finished only. -/
theorem owners_pool (h : OutcomeInv s.pool) {a : WorkerThreadPool.Action Unit DataAddr}
    (ht : WorkerThreadPool.Transition s.pool a s'.pool) (ha : ∀ c x i, a ≠ .enqueue c x i)
    (hacc : s'.acceptor = s.acceptor)
    (hstart : ∀ w c, a = .worker w → s.pool.phase w = .taken c →
      s'.pool.phase w = .running c → s'.workerHolding w = s.jobHolding c)
    (hfinish : ∀ w v c, a = .callbackReturn w v → s.pool.phase w = .running c →
      s.workerHolding w = [])
    (hhand : ∀ w, s'.pool.phase w = s.pool.phase w → s'.handlers w = s.handlers w) :
    s'.owners.Perm s.owners := by
  obtain ⟨F, Q, hpool⟩ := h.pool
  have hlinked := linkedCalls_eq ht ha
  have hacceptor : s'.acceptorHolding = s.acceptorHolding := by
    simp only [ServerState.acceptorHolding, hacc, hlinked]
  -- a worker that is neither given a job nor rid of one
  have hother : ∀ w, s'.pool.phase w = s.pool.phase w →
    s'.workerHolding w = s.workerHolding w := by
    intro w hw
    exact workerHolding_eq h ht hw (hhand w hw)
  have hhandover := hpool.handover ht
  generalize hj : s.pool.jobs = j at hhandover
  generalize hj' : s'.pool.jobs = j' at hhandover
  cases hhandover with
  | quiet =>
      rw [← hj] at hj'
      obtain ⟨hpending, hphase⟩ := Jobs.mk.inj hj'
      apply owners_of_same h ht hacceptor hpending
      intro w
      exact hother w (congrFun hphase w)
  | accept => exact absurd rfl (ha _ _ _)
  | @take c rest phase w hidle =>
      obtain ⟨hpending, hphase⟩ := Jobs.mk.inj hj
      obtain ⟨hpending', hphase'⟩ := Jobs.mk.inj hj'
      apply owners_of_take h ht hacceptor hpending hpending'
      · rw [hphase]
        exact hidle
      · rw [hphase', Function.update_self]
      · intro w' hne
        apply hother w'
        rw [hphase', hphase, Function.update_of_ne hne]
  | @start j w c hp =>
      rw [← hj] at hj' hp
      obtain ⟨hpending, hphase⟩ := Jobs.mk.inj hj'
      apply owners_of_same h ht hacceptor hpending
      intro w'
      by_cases hww : w' = w
      · subst hww
        have hrun : s'.pool.phase w' = .running c := by rw [hphase, Function.update_self]
        have hp' : s.pool.phase w' = .taken c := hp
        rw [hstart w' c rfl hp hrun]
        simp only [ServerState.workerHolding, hp']
      · apply hother w'
        rw [hphase, Function.update_of_ne hww]
        rfl
  | @finish j w v c hp =>
      rw [← hj] at hj' hp
      obtain ⟨hpending, hphase⟩ := Jobs.mk.inj hj'
      apply owners_of_same h ht hacceptor hpending
      intro w'
      by_cases hww : w' = w
      · subst hww
        have hidle : s'.pool.phase w' = .idle := by rw [hphase, Function.update_self]
        rw [hfinish w' v c rfl hp]
        simp only [ServerState.workerHolding, hidle]
      · apply hother w'
        rw [hphase, Function.update_of_ne hww]
        rfl

/-- **The enqueue** moves the acceptor's record to the queue, or is refused
and leaves it with the acceptor. -/
theorem owners_enqueue (h : OutcomeInv s.pool) {c : ConnId} {t : DataAddr} {i : Bool}
    {pool : PoolState Unit DataAddr} (hacc : s.acceptor = .filled c t)
    (ht : WorkerThreadPool.Transition s.pool (.enqueue c (s.enqueueArgs t) i) pool) :
    { s with pool := pool, acceptor := .enqueue c t }.owners.Perm s.owners := by
  obtain ⟨F, Q, hpool⟩ := h.pool
  let s' : ServerState := { s with pool := pool, acceptor := .enqueue c t }
  have hthreads : pool.threads.length = s.pool.threads.length := threads_length ht
  have ht' : WorkerThreadPool.Transition s.pool (.enqueue c (s.enqueueArgs t) i) s'.pool := ht
  have hjobs : ∀ l : List CallId, (∀ c ∈ l, c ∈ linkedCalls s.pool.history) →
      l.flatMap s'.jobHolding = l.flatMap s.jobHolding := fun l hl =>
    List.flatMap_congr fun c hc => jobHolding_eq h ht' (hl c hc)
  have hbefore : s.acceptorHolding = [⟨c, t, .opened⟩] := by
    simp only [ServerState.acceptorHolding, hacc]
  -- no thread of the pool moves
  have hworkers : pool.threads = s.pool.threads → s'.workerHolding = s.workerHolding := by
    intro hth
    funext w
    exact workerHolding_eq h ht'
      (congrFun (phase_congr hth fun t' ht' => ht.held_label hpool.lists ht') w) rfl
  have hidle : c ∉ linkedCalls s.pool.history := by
    intro hc
    apply hpool.labels.calls.known c hc
    cases ht with
    | reject hidle he => exact hidle
    | link hidle hcb hmax hacq happ => exact hidle
  cases ht with
  | @reject c a i e hcall he =>
      have hafter : s'.acceptorHolding = [⟨c, t, .opened⟩] := by
        show (if c ∈ linkedCalls (s.pool.history ++ [.returned c e]) then [] else _) = _
        rw [linkedCalls_snoc, if_neg hidle]
      have hpending : pendingCalls s'.pool.history = pendingCalls s.pool.history :=
        pendingCalls_congr (linkedCalls_snoc _ _) (dequeuedCalls_snoc _ _)
      show s'.owners.Perm s.owners
      rw [ServerState.owners, ServerState.owners, ServerState.poolHolding, ServerState.poolHolding,
        ServerState.queueHolding, ServerState.queueHolding, hbefore, hafter, hpending,
        hjobs _ fun c hc => pendingCalls_linked hc, hworkers rfl]
      exact .refl _
  | @link c a i p s₁ s₂ hcall hcb hmax hacq happ =>
      obtain ⟨hcs, hhist, hth, -, -⟩ := link_frame hacq happ
      have hafter : s'.acceptorHolding = [] := by
        show (if c ∈ linkedCalls (s₂.history ++ [.linked c]) then [] else _) = _
        rw [hhist, linkedCalls_snoc, if_pos (by simp)]
      have hpending : pendingCalls s'.pool.history = pendingCalls s.pool.history ++ [c] := by
        show pendingCalls (s₂.history ++ [.linked c]) = _
        rw [hhist, pendingCalls_snoc _ _ hpool.dequeued_le_linked]
      have hjob : s'.jobHolding c = [⟨c, t, .opened⟩] := by
        show ((s₂.setCall c (.linked p)).calls c).args.data.toList.map _ = _
        rw [hcs, Function.update_self]
        rfl
      show s'.owners.Perm s.owners
      rw [ServerState.owners, ServerState.owners, ServerState.poolHolding, ServerState.poolHolding,
        ServerState.queueHolding, ServerState.queueHolding, hbefore, hafter, hpending,
        List.flatMap_append,
        hjobs _ fun c hc => pendingCalls_linked hc, hworkers hth, List.flatMap_singleton, hjob,
        List.nil_append, List.append_assoc]
      have hn : s'.pool.threads.length = s.pool.threads.length := hthreads
      rw [hn]
      exact List.perm_append_comm_assoc _ _ _

end CWebServer.HttpServer
