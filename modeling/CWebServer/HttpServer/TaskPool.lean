import CWebServer.HttpServer.Ownership

/-!
# HttpServer — TaskPool

Each record is on the task pool, or one connection holds it in one place: with
the acceptor, queued, or with a worker. This fails where an enqueue gives up a
task that a worker has still to finish, since `http_server_socket_accept` then
puts the record back on the pool, and where a thread cannot lock the pool to
put its record back.
-/

namespace CWebServer.HttpServer

open CWebServer.Lib CWebServer.Runs CWebServer.WorkerThreadPool

/-- Where a connection in flight can keep its record. -/
inductive Place
  | acceptor
  | queued (p : Addr)
  | worker (w : Nat)
deriving DecidableEq, Repr

/-- The connection `c` keeps the record `t` in this place. In the enqueue the
record is the acceptor's until the task is linked. -/
def Held (s : ServerState) (t : DataAddr) (c : ConnId) : Place → Prop
  | .acceptor => s.acceptor.holds = some (c, t)
      ∨ s.acceptor = .enqueue c t ∧ c ∉ linkedCalls s.pool.history
  | .queued p =>
      (∃ Q, Chain (fun p => (s.pool.heap p).next) s.pool.taskPendingFirst Q ∧ p ∈ Q)
        ∧ (s.pool.heap p).call = c ∧ (s.pool.heap p).data = some t
  | .worker w =>
      (∃ x p, s.pool.threads[w]? = some x ∧ x.pc = .dequeued p
        ∧ (s.pool.heap p).call = c ∧ (s.pool.heap p).data = some t)
      ∨ ∃ h, s.handlers w = some h ∧ h.owns = true ∧ h.conn = c ∧ h.data = t

/-- The chain from `task_pool` is `L`, and each record is on it once or held
by one connection in one place. -/
structure RecordsOwned (s : ServerState) (L : List DataAddr) : Prop where
  chain : Chain (fun t => (s.records t).next) s.taskPool L
  nodup : L.Nodup
  len : s.taskPoolLen = L.length
  allocated : ∀ t ∈ L, t < s.allocated
  owned : ∀ t < s.allocated,
    (t ∈ L ∧ ∀ c place, ¬ Held s t c place)
      ∨ (t ∉ L ∧ ∃! q : ConnId × Place, Held s t q.1 q.2)

namespace ServerState

/-- The owners, each with its place. `Q` is the pending queue. -/
def placed (s : ServerState) (Q : List Addr) : List (Place × Holding) :=
  s.acceptorHolding.map (Prod.mk .acceptor)
    ++ (Q.flatMap (fun p => (s.jobHolding (s.pool.heap p).call).map (Prod.mk (.queued p)))
    ++ (List.range s.pool.threads.length).flatMap
      fun w => (s.workerHolding w).map (Prod.mk (.worker w)))

end ServerState

variable {s s' : ServerState} {L : List DataAddr} {F Q : List Addr}

/-- Without the places it is `owners`. -/
theorem placed_snd (h : PoolInv s.pool F Q) : (s.placed Q).map Prod.snd = s.owners := by
  have hmap : ∀ (place : Place) (l : List Holding),
      (l.map (Prod.mk place)).map Prod.snd = l := by
    intro place l
    rw [List.map_map]
    exact List.map_id l
  simp only [ServerState.placed, ServerState.owners, ServerState.poolHolding,
    ServerState.queueHolding, h.pendingCalls_eq, List.map_append, List.map_flatMap,
    List.flatMap_map, hmap]

/-- The record of a task in the queue or in a worker's hands is that of its
call. -/
theorem mem_jobHolding (h : PoolInv s.pool F Q) {p : Addr} (hp : p < s.pool.allocated)
    {c : ConnId} {t : DataAddr} {stage : Stage} :
    ⟨c, t, stage⟩ ∈ s.jobHolding (s.pool.heap p).call
      ↔ (s.pool.heap p).call = c ∧ (s.pool.heap p).data = some t ∧ stage = .opened := by
  rw [ServerState.jobHolding, ← (h.labels.filled p hp).data]
  cases (s.pool.heap p).data with
  | none => simp
  | some t' =>
      simp only [Option.toList_some, List.map_cons, List.map_nil, List.mem_singleton,
        Holding.mk.injEq, Option.some.injEq]
      exact and_congr eq_comm (and_congr eq_comm Iff.rfl)

theorem mem_finalizeHolding {pc : FinalizePc} {c c' : ConnId} {t t' : DataAddr} :
    (∃ stage, ⟨c, t, stage⟩ ∈ pc.holding c' t')
      ↔ pc.owns = true ∧ c' = c ∧ t' = t := by
  cases pc <;> simp [FinalizePc.holding, FinalizePc.stage, FinalizePc.owns, eq_comm]

theorem mem_handlerHolding {h : Handler} {c : ConnId} {t : DataAddr} :
    (∃ stage, ⟨c, t, stage⟩ ∈ h.holding)
      ↔ h.owns = true ∧ h.conn = c ∧ h.data = t := by
  obtain ⟨c', t', pc⟩ := h
  cases pc with
  | parse | handle => simp [Handler.holding, Handler.owns, eq_comm]
  | finalize pc => exact mem_finalizeHolding

theorem mem_acceptorHolding {c : ConnId} {t : DataAddr} :
    (∃ stage, ⟨c, t, stage⟩ ∈ s.acceptorHolding) ↔ Held s t c .acceptor := by
  simp only [ServerState.acceptorHolding, Held]
  cases hacc : s.acceptor with
  | idle | accepted | lockFailed => simp [AcceptPc.holds]
  | taken c' fd t' => simp [AcceptPc.holds, eq_comm]
  | filled c' t' => simp [AcceptPc.holds, eq_comm]
  | enqueue c' t' =>
      simp only [AcceptPc.holds, AcceptPc.enqueue.injEq, reduceCtorEq, false_or]
      by_cases hc : c' ∈ linkedCalls s.pool.history
      · rw [if_pos hc]
        apply iff_of_false (by simp)
        rintro ⟨⟨rfl, -⟩, hn⟩
        exact hn hc
      · rw [if_neg hc]
        constructor
        · rintro ⟨stage, hm⟩
          obtain ⟨rfl, rfl, -⟩ := Holding.mk.inj (List.mem_singleton.mp hm)
          exact ⟨⟨rfl, rfl⟩, hc⟩
        · rintro ⟨⟨rfl, rfl⟩, -⟩
          exact ⟨.opened, List.mem_singleton.mpr rfl⟩
  | finalize c' t' pc =>
      simp only [reduceCtorEq, false_and, or_false]
      rw [mem_finalizeHolding]
      simp only [AcceptPc.holds]
      cases pc.owns <;> simp

theorem mem_workerHolding (h : OwnInv s L) {w : Nat} {c : ConnId} {t : DataAddr} :
    (∃ stage, ⟨c, t, stage⟩ ∈ s.workerHolding w) ↔ Held s t c (.worker w) := by
  obtain ⟨F, Q, hinv⟩ := h.pool.pool
  simp only [ServerState.workerHolding, Held]
  -- a worker with a handler runs its callback
  have hhandler : (∀ c, s.pool.phase w ≠ .running c) → s.handlers w = none := by
    intro hphase
    cases hh : s.handlers w with
    | none => rfl
    | some x => exact absurd (h.handlers w x hh).1 (hphase x.conn)
  cases hw : s.pool.threads[w]? with
  | none =>
      have hidle : s.pool.phase w = .idle := by simp only [PoolState.phase, hw]
      rw [hidle, hhandler (by simp [hidle])]
      simp
  | some x =>
      have hphase := PoolState.phase_eq hw
      cases hx : x.pc with
      | dequeued p =>
          have htaken : s.pool.phase w = .taken (s.pool.heap p).call := by rw [hphase, hx]; rfl
          have hheld : p ∈ s.pool.held := PoolState.mem_held hw (by simp [hx, WorkerPc.holds])
          have hlt := hinv.lists.bound p (.inr (.inr hheld))
          rw [htaken, hhandler (by simp [htaken])]
          simp [mem_jobHolding hinv hlt, hx]
      | callback p c' =>
          have hrun : s.pool.phase w = .running c' := by rw [hphase, hx]; rfl
          rw [hrun]
          cases hh : s.handlers w with
          | none => simp [hx]
          | some y =>
              simp only [mem_handlerHolding]
              simp [hx]
      | _ =>
          have hidle : s.pool.phase w = .idle := by rw [hphase, hx]; rfl
          rw [hidle, hhandler (by simp [hidle])]
          simp [hx]

/-- **The list has every holding and its place.** -/
theorem mem_placed (h : OwnInv s L) (hinv : PoolInv s.pool F Q) {c : ConnId} {t : DataAddr}
    {place : Place} : (∃ stage, (place, ⟨c, t, stage⟩) ∈ s.placed Q)
      ↔ Held s t c place := by
  have hmem : ∀ {place place' : Place} {x : Holding} {l : List Holding},
      (place, x) ∈ l.map (Prod.mk place') ↔ place' = place ∧ x ∈ l := by
    intro place place' x l
    simp [and_comm]
  simp only [ServerState.placed, List.mem_append, List.mem_flatMap, hmem, List.mem_range]
  cases place with
  | acceptor =>
      rw [← mem_acceptorHolding]
      simp
  | queued p =>
      have hbound : p ∈ Q → p < s.pool.allocated :=
        fun hp => hinv.lists.bound p (.inr (.inl hp))
      have hchain :
          (∃ Q, Chain (fun p => (s.pool.heap p).next) s.pool.taskPendingFirst Q ∧ p ∈ Q)
            ↔ p ∈ Q := by
        constructor
        · rintro ⟨Q', hQ', hp⟩
          rwa [hQ'.unique hinv.lists.pending] at hp
        · exact fun hp => ⟨Q, hinv.lists.pending, hp⟩
      simp only [Held, hchain]
      constructor
      · rintro ⟨stage, hm⟩
        simp only [reduceCtorEq, false_and, and_false, exists_false, false_or, or_false,
          Place.queued.injEq] at hm
        obtain ⟨p', hp', rfl, hx⟩ := hm
        obtain ⟨hc, ht, -⟩ := (mem_jobHolding hinv (hbound hp')).mp hx
        exact ⟨hp', hc, ht⟩
      · rintro ⟨hp, hc, ht⟩
        have hmem := (mem_jobHolding hinv (hbound hp)).mpr ⟨hc, ht, rfl⟩
        exact ⟨.opened, .inr (.inl ⟨p, hp, rfl, hmem⟩)⟩
  | worker w =>
      rw [← mem_workerHolding h]
      constructor
      · rintro ⟨stage, hm⟩
        simp only [reduceCtorEq, false_and, and_false, exists_false, false_or,
          Place.worker.injEq] at hm
        obtain ⟨w', -, rfl, hx⟩ := hm
        exact ⟨stage, hx⟩
      · rintro ⟨stage, hx⟩
        refine ⟨stage, .inr (.inr ⟨w, ?_, rfl, hx⟩)⟩
        -- a worker that is none of the threads has nothing
        by_contra hlt
        have hidle : s.pool.phase w = .idle := by
          simp only [PoolState.phase, List.getElem?_eq_none (Nat.le_of_not_lt hlt)]
        simp only [ServerState.workerHolding, hidle, List.not_mem_nil] at hx

theorem OwnInv.recordsOwned (h : OwnInv s L) : RecordsOwned s L := by
  obtain ⟨F, Q, hinv⟩ := h.pool.pool
  have hle : ∀ t, L.count t + (s.owners.map (·.data)).count t ≤ 1 := by
    intro t
    rw [h.once t]
    split <;> omega
  have hplaced : ((s.placed Q).map fun x => x.2.data).Nodup := by
    rw [List.nodup_iff_count_le_one]
    intro t
    have hsnd : (s.placed Q).map (fun x => x.2.data) = s.owners.map (·.data) := by
      rw [← placed_snd hinv, List.map_map]
      rfl
    rw [hsnd]
    have := hle t
    omega
  have hcount : ∀ t, (∃ c place, Held s t c place) ↔ t ∈ s.owners.map (·.data) := by
    intro t
    rw [← placed_snd hinv, List.map_map, List.mem_map]
    constructor
    · rintro ⟨c, place, hheld⟩
      obtain ⟨stage, hm⟩ := (mem_placed h hinv).mpr hheld
      exact ⟨_, hm, rfl⟩
    · rintro ⟨⟨place, c, t', stage⟩, hm, rfl⟩
      exact ⟨c, place, (mem_placed h hinv).mp ⟨stage, hm⟩⟩
  refine ⟨h.chain, ?_, h.len, ?_, ?_⟩
  · rw [List.nodup_iff_count_le_one]
    intro t
    have := hle t
    omega
  · intro t ht
    have hone := h.once t
    have hpos := List.count_pos_iff.mpr ht
    by_contra hlt
    rw [if_neg hlt] at hone
    omega
  · intro t ht
    have hone := h.once t
    rw [if_pos ht] at hone
    by_cases hL : t ∈ L
    · have hpos := List.count_pos_iff.mpr hL
      refine .inl ⟨hL, ?_⟩
      intro c place hheld
      have := List.count_pos_iff.mpr ((hcount t).mp ⟨c, place, hheld⟩)
      omega
    · have hzero := List.count_eq_zero.mpr hL
      obtain ⟨c, place, hheld⟩ := (hcount t).mpr (List.count_pos_iff.mp (by omega))
      refine .inr ⟨hL, ⟨c, place⟩, hheld, ?_⟩
      rintro ⟨c', place'⟩ hheld'
      obtain ⟨stage, hm⟩ := (mem_placed h hinv).mpr hheld
      obtain ⟨stage', hm'⟩ := (mem_placed h hinv).mpr hheld'
      have heq := List.inj_on_of_nodup_map hplaced hm' hm rfl
      cases heq
      rfl

/-- **No record is shared or lost** in a run in which no call gives up a task
that is not complete and the task pool can always be locked to put a record
back. -/
theorem records_owned {s₀ : ServerState} (h₀ : Initial s₀) (h : Reaches step Clean s₀ s) :
    ∃ L, RecordsOwned s L := by
  obtain ⟨L, hinv⟩ := ownInv_reaches h₀ h
  exact ⟨L, hinv.recordsOwned⟩

/-- A connection is accepted, queued, and answered by the one worker. -/
def cleanRun : List Action :=
  [.accept 3, .lock true, .acceptor, .enqueue true, .pool (.post 0), .pool (.worker 0),
    .pool (.worker 0), .startTask 0, .read 0, .parsed 0 true, .handled 0 true 200,
    .finalize (.worker 0) true, .finalize (.worker 0) true, .finalize (.worker 0) false,
    .finalize (.worker 0) true, .finalize (.worker 0) true, .finalize (.worker 0) true,
    .taskReturn 0, .pool (.worker 0), .pool (.worker 0), .pool (.wait 0 .posted),
    .pool (.settle 0), .acceptor]

/-- A server with one worker and room for one task. -/
def smallServer : ServerState := { timeout := 5, pool := { maxQueueSize := 1, threads := [{}] } }

theorem smallServer_initial : Initial smallServer :=
  ⟨1, 1, 5, { maxQueueSize := 1, threads := [{}] }, rfl, rfl⟩

theorem records_owned_cleanRun :
    ∃ s, Reaches step Clean smallServer s ∧ s.taskPool = some 0
      ∧ ∃ L, RecordsOwned s L := by
  let hrun : (run step Clean cleanRun smallServer).isSome := by decide
  exact ⟨_, reaches_get hrun, by decide, records_owned smallServer_initial (reaches_get hrun)⟩

/-- The enqueue times out while the task is queued. The acceptor answers 503
and puts the record on the task pool. -/
def timedOutRun : List Action :=
  [.accept 3, .lock true, .acceptor, .enqueue true, .pool (.post 0), .pool (.wait 0 .timedOut),
    .pool (.settle 0), .acceptor, .finalize .acceptor true, .finalize .acceptor false,
    .finalize .acceptor true, .finalize .acceptor true, .finalize .acceptor true, .acceptor]

/-- **After a timeout the record is on the pool and in the queue.** -/
theorem not_records_owned :
    ¬ ∀ s₀ s, Initial s₀ → Reaches step Always s₀ s → ∃ L, RecordsOwned s L := by
  intro hall
  have hrun : (run step Always timedOutRun smallServer).isSome := by decide
  obtain ⟨L, hchain, -, -, -, howned⟩ := hall _ _ smallServer_initial (reaches_get hrun)
  let s := (run step Always timedOutRun smallServer).get hrun
  have hpool : s.taskPool = some 0 := rfl
  have hqueued : Held s 0 0 (.queued 0) :=
    ⟨⟨[0], ⟨rfl, rfl⟩, List.mem_singleton.mpr rfl⟩, rfl, rfl⟩
  obtain ⟨L', rfl, -⟩ := (hpool ▸ hchain).pop
  rcases howned 0 Nat.one_pos with ⟨-, hfree⟩ | ⟨hout, -⟩
  · exact hfree 0 (.queued 0) hqueued
  · exact hout List.mem_cons_self

end CWebServer.HttpServer
