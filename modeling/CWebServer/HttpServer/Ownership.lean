import CWebServer.HttpServer.Owners

/-!
# HttpServer — Ownership

The invariant of the records. Each is on the task pool or in the hands of one
connection, as long as no call gives up a task that is not complete and no
thread fails to lock the task pool when it wants to put a record back.
-/

namespace CWebServer.HttpServer

open CWebServer.Lib CWebServer.Runs CWebServer.WorkerThreadPool

variable {s s' : ServerState} {L : List DataAddr}

/-! ## The invariant -/

/-- No call gives up a task that is not complete, and `task_pool_mutex` is
locked whenever a record is put back. -/
def Clean (s : ServerState) : Action → Prop
  | .pool a => NoEarlySettle s.pool a
  | .finalize p ok => ∀ c t, s.finalizing p = some (c, t, .lock) → ok = true
  | _ => True

instance (s : ServerState) (a : Action) : Decidable (Clean s a) :=
  match a with
  | .pool a => inferInstanceAs (Decidable (NoEarlySettle s.pool a))
  | .finalize p ok =>
      if hok : ok = true then isTrue fun _ _ _ => hok
      else
        match hp : s.finalizing p with
        | some (c, t, .lock) => isFalse fun h => hok (h c t hp)
        | some (_, _, .write) | some (_, _, .writing) | some (_, _, .shutdown)
        | some (_, _, .dealloc) | some (_, _, .close) | some (_, _, .done) | none =>
            isTrue fun c t h => by simp [hp] at h
  | .accept _ | .lock _ | .acceptor | .enqueue _ | .startTask _ | .read _ | .parsed .. | .handled ..
  | .taskReturn _ => isTrue trivial

structure OwnInv (s : ServerState) (L : List DataAddr) : Prop where
  pool : OutcomeInv s.pool
  chain : Chain (fun t => (s.records t).next) s.taskPool L
  len : s.taskPoolLen = L.length
  once : ∀ t, L.count t + (s.owners.map (·.data)).count t = if t < s.allocated then 1 else 0
  conns : ∀ c, s.bare.count c + (s.owners.map (·.conn)).count c
    ≤ if c < s.connections then 1 else 0
  acceptor : ∀ c t, s.acceptor ≠ .finalize c t .close
  handlers : ∀ w h, s.handlers w = some h →
    s.pool.phase w = .running h.conn ∧ h.pc ≠ .finalize .close

/-- A write to one record that leaves the field `g` as it was. -/
theorem setRecord_field {φ : Type} (g : HttpServerTaskData → φ) {t : DataAddr}
    {x : HttpServerTaskData} (hx : g x = g (s.records t)) (t' : DataAddr) :
    g ((s.setRecord t x).records t') = g (s.records t') :=
  apply_update_of_eq g hx t'

namespace OwnInv

/-- A record on the pool is with nobody. -/
theorem notMem_of_owner (h : OwnInv s L) {e : Holding} {R : List Holding}
    (hperm : s.owners.Perm (e :: R)) : e.data ∉ L ∧ e.data < s.allocated := by
  have hone := h.once e.data
  have hcount := (hperm.map (·.data)).count_eq e.data
  rw [List.map_cons, List.count_cons_self] at hcount
  rw [hcount] at hone
  split at hone
  · rename_i hlt
    exact ⟨List.count_eq_zero.mp (by omega), hlt⟩
  · omega

/-- No two holdings share a record or a connection. -/
theorem apart (h : OwnInv s L) {e : Holding} {R : List Holding}
    (hperm : s.owners.Perm (e :: R)) {e' : Holding} (he' : e' ∈ R) :
    e'.data ≠ e.data ∧ e'.conn ≠ e.conn := by
  have hdata := (hperm.map (·.data)).count_eq e.data
  have hconn := (hperm.map (·.conn)).count_eq e.conn
  have hone := h.once e.data
  have hcount := h.conns e.conn
  rw [List.map_cons, List.count_cons_self] at hdata hconn
  constructor
  · intro heq
    have hpos : 0 < (R.map (·.data)).count e.data :=
      List.count_pos_iff.mpr (List.mem_map.mpr ⟨e', he', heq⟩)
    split at hone <;> omega
  · intro heq
    have hpos : 0 < (R.map (·.conn)).count e.conn :=
      List.count_pos_iff.mpr (List.mem_map.mpr ⟨e', he', heq⟩)
    split at hcount <;> omega

/-- A connection that holds a record has been accepted. -/
theorem conn_lt (h : OwnInv s L) {e : Holding} (he : e ∈ s.owners) : e.conn < s.connections := by
  have hmem : e.conn ∈ s.owners.map (·.conn) := List.mem_map.mpr ⟨e, he, rfl⟩
  have hpos := List.count_pos_iff.mpr hmem
  have hcount := h.conns e.conn
  by_contra hlt
  rw [if_neg hlt] at hcount
  omega

/-- The bare connection has been accepted and holds no record. -/
theorem bare_apart (h : OwnInv s L) {c : ConnId} (hc : c ∈ s.bare) :
    c < s.connections ∧ ∀ e ∈ s.owners, e.conn ≠ c := by
  have hpos := List.count_pos_iff.mpr hc
  have hcount := h.conns c
  constructor
  · by_contra hlt
    rw [if_neg hlt] at hcount
    omega
  · intro e he heq
    have hpos' : 0 < (s.owners.map (·.conn)).count c :=
      List.count_pos_iff.mpr (List.mem_map.mpr ⟨e, he, heq⟩)
    split at hcount <;> omega

/-- A step that leaves every record with its connection. -/
theorem keep (h : OwnInv s L) (hpool : OutcomeInv s'.pool)
    (hdata : (s'.owners.map (·.data)).Perm (s.owners.map (·.data)))
    (hconn : (s'.owners.map (·.conn)).Perm (s.owners.map (·.conn)))
    (hnext : ∀ t, (s'.records t).next = (s.records t).next)
    (hfields : (s'.taskPool, s'.taskPoolLen, s'.allocated, s'.connections)
      = (s.taskPool, s.taskPoolLen, s.allocated, s.connections))
    (hbare : ∀ c, s'.bare.count c ≤ s.bare.count c)
    (hacc : ∀ c t, s'.acceptor ≠ .finalize c t .close)
    (hhand : ∀ w h, s'.handlers w = some h →
      s'.pool.phase w = .running h.conn ∧ h.pc ≠ .finalize .close) : OwnInv s' L := by
  simp only [Prod.mk.injEq] at hfields
  obtain ⟨htp, hlen, halloc, hconns⟩ := hfields
  refine ⟨hpool, ?_, hlen.trans h.len, ?_, ?_, hacc, hhand⟩
  · rw [htp]
    exact h.chain.congr fun t _ => hnext t
  · intro t
    rw [hdata.count_eq, halloc]
    exact h.once t
  · intro c
    rw [hconn.count_eq, hconns]
    have := h.conns c
    have := hbare c
    omega

theorem finalizing_acceptor {c : ConnId} {t : DataAddr} {pc : FinalizePc}
    (hp : s.finalizing .acceptor = some (c, t, pc)) : s.acceptor = .finalize c t pc := by
  simp only [ServerState.finalizing] at hp
  split at hp
  · rename_i heq
    cases hp
    exact heq
  · cases hp

theorem finalizing_worker {w : Nat} {c : ConnId} {t : DataAddr} {pc : FinalizePc}
    (hp : s.finalizing (.worker w) = some (c, t, pc)) :
    s.handlers w = some ⟨c, t, .finalize pc⟩ := by
  simp only [ServerState.finalizing] at hp
  split at hp
  · rename_i heq
    cases hp
    exact heq
  · cases hp

/-- The part of a worker with a handler. -/
theorem owners_handler (h : OwnInv s L) {w : Nat} {x : Handler} (hw : s.handlers w = some x) :
    ∃ R, s.owners.Perm (x.holding ++ R)
      ∧ ∀ (s₁ : ServerState) (y : Handler), s₁.pool = s.pool →
        s₁.acceptor = s.acceptor → s₁.handlers = s.handlers →
        (s₁.setHandler w (some y)).owners.Perm (y.holding ++ R) := by
  have hphase := (h.handlers w x hw).1
  obtain ⟨R, hbefore, hafter⟩ := owners_worker (running_lt hphase)
  have hholding : s.workerHolding w = x.holding := by
    simp only [ServerState.workerHolding, hphase, hw]
  refine ⟨R, hholding ▸ hbefore, ?_⟩
  intro s₁ y hpool hacc hhand
  have hafter := hafter (s₁.setHandler w (some y)) hpool hacc fun w' hne => by
    simp only [ServerState.setHandler, hhand, Function.update_of_ne hne]
  have hholding' : (s₁.setHandler w (some y)).workerHolding w = y.holding := by
    simp only [ServerState.workerHolding, ServerState.setHandler, hpool, hphase,
      Function.update_self]
  rwa [hholding'] at hafter

/-- The part of a thread that finalizes. -/
theorem owners_finalizing (h : OwnInv s L) {p : Party} {c : ConnId} {t : DataAddr}
    {pc : FinalizePc} (hp : s.finalizing p = some (c, t, pc)) :
    ∃ R, s.owners.Perm (pc.holding c t ++ R)
      ∧ ∀ (s₁ : ServerState) (pc' : FinalizePc), s₁.pool = s.pool →
        s₁.acceptor = s.acceptor → s₁.handlers = s.handlers →
        (s₁.setFinalize p c t pc').owners.Perm (pc'.holding c t ++ R) := by
  cases p with
  | acceptor =>
      have hacc := finalizing_acceptor hp
      refine ⟨s.poolHolding, ?_, ?_⟩
      · simp only [ServerState.owners, ServerState.acceptorHolding, hacc]
        exact .refl _
      · intro s₁ pc' hpool _ hhand
        have hrest : (s₁.setFinalize .acceptor c t pc').poolHolding = s.poolHolding :=
          poolHolding_eq hpool hhand
        rw [ServerState.owners, hrest]
        exact .refl _
  | worker w =>
      obtain ⟨R, hbefore, hafter⟩ := h.owners_handler (finalizing_worker hp)
      exact ⟨R, hbefore, fun s₁ pc' hpool hacc hhand =>
        hafter s₁ ⟨c, t, .finalize pc'⟩ hpool hacc hhand⟩

/-- Where the threads stand after a step of a handler. -/
theorem handlers_setHandler (h : OwnInv s L) {w : Nat} {x : Handler} (hw : s.handlers w = some x)
    (s₁ : ServerState) (y : Handler) (hpool : s₁.pool = s.pool)
    (hhand : s₁.handlers = s.handlers) (hconn : y.conn = x.conn) (hpc : y.pc ≠ .finalize .close)
    (w' : Nat) (z : Handler) (hz : (s₁.setHandler w (some y)).handlers w' = some z) :
    (s₁.setHandler w (some y)).pool.phase w' = .running z.conn ∧ z.pc ≠ .finalize .close := by
  simp only [ServerState.setHandler, hhand, hpool] at hz ⊢
  by_cases hww : w' = w
  · subst hww
    rw [Function.update_self, Option.some.injEq] at hz
    subst hz
    exact ⟨hconn ▸ (h.handlers w' x hw).1, hpc⟩
  · rw [Function.update_of_ne hww] at hz
    exact h.handlers w' z hz

/-- A finalization step other than the push. -/
theorem finalize_keep (h : OwnInv s L) {p : Party} {c : ConnId} {t : DataAddr}
    {pc pc' : FinalizePc} (hp : s.finalizing p = some (c, t, pc)) {s₁ : ServerState}
    (hpool : s₁.pool = s.pool) (hacc : s₁.acceptor = s.acceptor)
    (hhand : s₁.handlers = s.handlers) (hrec : s₁.records = s.records)
    (hfields : (s₁.taskPool, s₁.taskPoolLen, s₁.allocated, s₁.connections)
      = (s.taskPool, s.taskPoolLen, s.allocated, s.connections))
    (howns : pc.owns = true) (howns' : pc'.owns = true) (hclose : pc' ≠ .close) :
    OwnInv (s₁.setFinalize p c t pc') L := by
  obtain ⟨R, hbefore, hafter⟩ := h.owners_finalizing hp
  have hafter := hafter s₁ pc' hpool hacc hhand
  -- the holding's stage may change, its connection and its record do not
  have hone : ∀ pc : FinalizePc, pc.owns = true →
    ∃ stage, pc.holding c t = [⟨c, t, stage⟩] := by
    intro pc hpc
    cases pc <;> first | exact ⟨_, rfl⟩ | cases hpc
  obtain ⟨stage, hst⟩ := hone pc howns
  obtain ⟨stage', hst'⟩ := hone pc' howns'
  rw [hst] at hbefore
  rw [hst'] at hafter
  have hdata := (hafter.map (·.data)).trans (hbefore.map (·.data)).symm
  have hconn := (hafter.map (·.conn)).trans (hbefore.map (·.conn)).symm
  cases p with
  | acceptor =>
      have hs := finalizing_acceptor hp
      refine h.keep (hpool ▸ h.pool) hdata hconn (fun t => congrArg (fun f => (f t).next) hrec)
        hfields ?_ ?_ ?_
      · intro c
        exact Nat.zero_le _
      · intro c t heq
        exact hclose (AcceptPc.finalize.inj heq).2.2
      · intro w x hx
        show s₁.pool.phase w = _ ∧ _
        rw [hpool]
        exact h.handlers w x (hhand ▸ hx)
  | worker w =>
      have hs := finalizing_worker hp
      refine h.keep (hpool ▸ h.pool) hdata hconn (fun t => congrArg (fun f => (f t).next) hrec)
        hfields ?_ ?_ ?_
      · intro c
        exact Nat.le_of_eq (congrArg (List.count c ·) (by
          simp only [ServerState.bare, ServerState.setFinalize, ServerState.setHandler, hacc]))
      · intro c t
        show s₁.acceptor ≠ _
        rw [hacc]
        exact h.acceptor c t
      · intro w' x hx
        exact h.handlers_setHandler hs s₁ ⟨c, t, .finalize pc'⟩ hpool hhand rfl
          (by simpa using hclose) w' x hx

/-- The push takes the record from its connection. -/
theorem finalize_push (h : OwnInv s L) {p : Party} {c : ConnId} {t : DataAddr}
    (hp : s.finalizing p = some (c, t, .lock)) :
    OwnInv ((s.pushTaskPool t).setFinalize p c t .done) (t :: L) := by
  obtain ⟨R, hbefore, hafter⟩ := h.owners_finalizing hp
  have hafter := hafter (s.pushTaskPool t) .done rfl rfl rfl
  obtain ⟨hfree, -⟩ := h.notMem_of_owner (e := ⟨c, t, .closed⟩) hbefore
  have hchain : Chain (fun t' => ((s.pushTaskPool t).records t').next) (some t) (t :: L) := by
    have := h.chain.push hfree
    apply this.congr
    intro t' _
    by_cases htt : t' = t
    · subst htt
      simp [ServerState.pushTaskPool]
    · simp [ServerState.pushTaskPool, htt]
  have hdata : ∀ t', (t :: L).count t' + (((s.pushTaskPool t).setFinalize p c t
      .done).owners.map (·.data)).count t' = if t' < s.allocated then 1 else 0 := by
    intro t'
    rw [(hafter.map (·.data)).count_eq, ← h.once t', (hbefore.map (·.data)).count_eq]
    simp only [FinalizePc.holding, FinalizePc.stage, Option.toList_none, Option.toList_some,
      List.map_nil, List.map_cons, List.nil_append, List.singleton_append, List.count_cons]
    omega
  have hconn : ∀ c', (((s.pushTaskPool t).setFinalize p c t .done).owners.map (·.conn)).count c'
      ≤ (s.owners.map (·.conn)).count c' := by
    intro c'
    rw [(hafter.map (·.conn)).count_eq, (hbefore.map (·.conn)).count_eq]
    simp only [FinalizePc.holding, FinalizePc.stage, Option.toList_none, List.map_nil,
      List.nil_append, List.map_append, List.count_append]
    exact Nat.le_add_left _ _
  have hlen := congrArg (· + 1) h.len
  cases p with
  | acceptor =>
      refine ⟨h.pool, hchain, hlen, hdata, ?_, ?_, h.handlers⟩
      · intro c'
        exact Nat.le_trans (Nat.add_le_add (Nat.zero_le _) (hconn c')) (h.conns c')
      · intro c' t' heq
        cases heq
  | worker w =>
      refine ⟨h.pool, hchain, hlen, hdata, ?_, h.acceptor, ?_⟩
      · intro c'
        exact Nat.le_trans (Nat.add_le_add_left (hconn c') _) (h.conns c')
      · intro w' x hx
        exact h.handlers_setHandler (finalizing_worker hp) (s.pushTaskPool t)
          ⟨c, t, .finalize .done⟩ rfl rfl rfl (by simp) w' x hx

/-- A handler goes on with the connection it has. -/
theorem perm_handler (h : OwnInv s L) {w : Nat} {x y : Handler} (hw : s.handlers w = some x)
    (status : Nat) (hholding : y.holding = x.holding) :
    ((s.setRecord x.data { s.records x.data with statusCode := status }).setHandler w
      (some y)).owners.Perm s.owners := by
  obtain ⟨R, hbefore, hafter⟩ := h.owners_handler hw
  have hafter := hafter (s.setRecord x.data { s.records x.data with statusCode := status }) y
    rfl rfl rfl
  rw [hholding] at hafter
  exact hafter.trans hbefore.symm

/-- A handler goes on and writes to the response only. -/
theorem handler_step (h : OwnInv s L) {w : Nat} {x y : Handler} (hw : s.handlers w = some x)
    {status : Nat} (hconn : y.conn = x.conn) (hholding : y.holding = x.holding)
    (hpc : y.pc ≠ .finalize .close) :
    OwnInv ((s.setRecord x.data { s.records x.data with statusCode := status }).setHandler w
      (some y)) L := by
  have hperm := h.perm_handler hw status hholding
  refine h.keep h.pool (hperm.map _) (hperm.map _) ?_ rfl (fun _ => Nat.le_refl _)
    h.acceptor fun w' z hz => h.handlers_setHandler hw _ y rfl rfl hconn hpc w' z hz
  intro t'
  show (Function.update s.records x.data _ t').next = _
  by_cases htt : t' = x.data
  · subst htt
    simp
  · simp [htt]

/-- A running job goes on until its callback returns. -/
theorem running_keep {j j' : Jobs} {a : WorkerThreadPool.Action Unit DataAddr} {w : Nat}
    {c : CallId} (hs : Handover j a j') (hw : j.phase w = .running c)
    (ha : ∀ v, a ≠ .callbackReturn w v) : j'.phase w = .running c := by
  cases hs with
  | quiet => exact hw
  | accept => exact hw
  | @take c' rest phase w' hidle =>
      have hne : w ≠ w' := fun he => by
        have hw : phase w = .running c := hw
        rw [he, hidle] at hw
        cases hw
      exact (Function.update_of_ne hne _ _).trans hw
  | @start j w' c' htaken =>
      have hne : w ≠ w' := fun he => by
        rw [he, htaken] at hw
        cases hw
      exact (Function.update_of_ne hne _ _).trans hw
  | @finish j w' v c' hrun =>
      have hne : w ≠ w' := fun he => ha v (by rw [he])
      exact (Function.update_of_ne hne _ _).trans hw

/-- A worker that has taken a job starts it. -/
theorem start_phase {pool pool' : PoolState Unit DataAddr} {w : Nat} {x : WorkerThreadPoolContext}
    {p : Addr} (hw : pool.threads[w]? = some x) (hx : x.pc = .dequeued p)
    (ht : WorkerThreadPool.Transition pool (.worker w) pool') :
    pool.phase w = .taken (pool.heap p).call ∧ pool'.phase w = .running (pool.heap p).call := by
  have hlt : w < pool.threads.length := (List.getElem?_eq_some_iff.mp hw).1
  refine ⟨by rw [PoolState.phase_eq hw, hx]; rfl, ?_⟩
  cases ht with
  | @start w y t hy hyt hcb =>
      obtain rfl := Option.some.inj (hw.symm.trans hy)
      obtain rfl := WorkerPc.dequeued.inj (hx.symm.trans hyt)
      rw [PoolState.phase_eq (x := ⟨x.running, .callback p (pool.heap p).call⟩)]
      · rfl
      · exact List.getElem?_set_self hlt
  | @silent w y q hy hs =>
      obtain rfl := Option.some.inj (hw.symm.trans hy)
      cases hs with
      | exit hyt _ =>
          rcases hyt with hyt | ⟨e, hyt⟩ <;> cases hx.symm.trans hyt
      | again hyt _ | sleep hyt _ | awake hyt _ | nothing hyt _ | noResult hyt _ | result hyt _
      | load hyt => cases hx.symm.trans hyt
  | @dequeue w y t hy hyt hlen hfirst =>
      obtain rfl := Option.some.inj (hw.symm.trans hy)
      rcases hyt with hyt | ⟨e, hyt⟩ <;> cases hx.symm.trans hyt
  | store hy hyt | giveBack hy hyt htimed | complete hy hyt htimed =>
      obtain rfl := Option.some.inj (hw.symm.trans hy)
      cases hx.symm.trans hyt

/-- A task that a worker has taken carries the record of its call. -/
theorem taken_data (h : OutcomeInv s.pool) {w : Nat} {x : WorkerThreadPoolContext} {p : Addr}
    {t : DataAddr} (hw : s.pool.threads[w]? = some x) (hx : x.pc = .dequeued p)
    (hdata : (s.pool.heap p).data = some t) :
    s.jobHolding (s.pool.heap p).call = [⟨(s.pool.heap p).call, t, .opened⟩] := by
  obtain ⟨F, Q, hpool⟩ := h.pool
  have hheld : p ∈ s.pool.held := PoolState.mem_held hw (by simp [hx, WorkerPc.holds])
  have hfilled := hpool.labels.filled p (hpool.lists.bound p (.inr (.inr hheld)))
  rw [ServerState.jobHolding, ← hfilled.data, hdata]
  rfl

/-- A callback that returns leaves its worker idle. -/
theorem return_phase {pool pool' : PoolState Unit DataAddr} {w : Nat} {v : Int}
    (ht : WorkerThreadPool.Transition pool (.callbackReturn w v) pool') :
    pool'.phase w = .idle := by
  cases ht with
  | @callbackReturn w x t c v hw hx =>
      have hlt : w < pool.threads.length := (List.getElem?_eq_some_iff.mp hw).1
      rw [PoolState.phase_eq (List.getElem?_set_self hlt)]
      rfl

/-! ## The acceptor's steps -/

/-- The acceptor gets a record. -/
theorem owners_take {c : ConnId} {fd : Fd} {t : DataAddr} (hacc : s.acceptor = .accepted c fd)
    (hpool : s'.pool = s.pool) (hhand : s'.handlers = s.handlers)
    (hacc' : s'.acceptor = .taken c fd t) : s'.owners = ⟨c, t, .fresh fd⟩ :: s.owners := by
  simp only [ServerState.owners, ServerState.acceptorHolding, hacc, hacc',
    poolHolding_eq hpool hhand]
  rfl

theorem take_conns (h : OwnInv s L) {c : ConnId} {fd : Fd} {t : DataAddr}
    (hacc : s.acceptor = .accepted c fd) (hacc' : s'.acceptor = .taken c fd t)
    (howners : s'.owners = ⟨c, t, .fresh fd⟩ :: s.owners)
    (hconns : s'.connections = s.connections) (c' : ConnId) :
    s'.bare.count c' + (s'.owners.map (·.conn)).count c'
      ≤ if c' < s'.connections then 1 else 0 := by
  have hcount := h.conns c'
  have hbefore : s.bare = [c] := by simp only [ServerState.bare, hacc]
  have hafter : s'.bare = [] := by simp only [ServerState.bare, hacc']
  rw [hbefore, List.count_singleton] at hcount
  rw [hafter, howners, hconns]
  show [].count c' + (c :: s.owners.map (·.conn)).count c' ≤ _
  rw [List.count_cons, List.count_nil]
  omega

/-- The acceptor moves and holds the same. -/
theorem acceptor_keep (h : OwnInv s L) {pc : AcceptPc} (hpc : ∀ c t, pc ≠ .finalize c t .close)
    (hholding : { s with acceptor := pc }.acceptorHolding = s.acceptorHolding)
    (hbare : ∀ c, { s with acceptor := pc }.bare.count c ≤ s.bare.count c) :
    OwnInv { s with acceptor := pc } L := by
  have howners : { s with acceptor := pc }.owners = s.owners := by
    rw [ServerState.owners, ServerState.owners, hholding]
    rfl
  exact h.keep h.pool (by rw [howners]) (by rw [howners]) (fun _ => rfl) rfl hbare hpc h.handlers

theorem lt_succ_iff_of_ne {m n : Nat} (h : m ≠ n) : m < n + 1 ↔ m < n := by omega

theorem accept_step (h : OwnInv s L) {fd : Fd} (hidle : s.acceptor = .idle) :
    OwnInv { s with
      acceptor := .accepted s.connections fd
      descriptors := Function.update s.descriptors fd (some s.connections)
      connections := s.connections + 1 } L := by
  have hholding : s.acceptorHolding = [] := by simp only [ServerState.acceptorHolding, hidle]
  have howners : s.owners = s.poolHolding := by rw [ServerState.owners, hholding, List.nil_append]
  refine ⟨h.pool, h.chain, h.len, ?_, ?_, by simp, h.handlers⟩
  · intro t
    have hone := h.once t
    rw [howners] at hone
    exact hone
  · intro c
    have hcount := h.conns c
    rw [howners] at hcount
    show [s.connections].count c + (s.poolHolding.map (·.conn)).count c
      ≤ if c < s.connections + 1 then 1 else 0
    rw [List.count_singleton]
    by_cases hc : c = s.connections
    · subst hc
      rw [if_neg (Nat.lt_irrefl _)] at hcount
      rw [if_pos (Nat.lt_succ_self _), if_pos (beq_self_eq_true _)]
      omega
    · have hlt : c < s.connections + 1 ↔ c < s.connections := lt_succ_iff_of_ne hc
      simp only [beq_iff_eq, Ne.symm hc, if_false, hlt]
      omega

theorem takePooled_step {t : DataAddr} (h : OwnInv s (t :: L)) {c : ConnId} {fd : Fd}
    (hacc : s.acceptor = .accepted c fd)
    (hchain : Chain (fun t => (s.records t).next) (s.records t).next L) :
    OwnInv { s with
      taskPool := (s.records t).next
      taskPoolLen := s.taskPoolLen - 1
      acceptor := .taken c fd t } L := by
  let s' : ServerState := { s with
    taskPool := (s.records t).next
    taskPoolLen := s.taskPoolLen - 1
    acceptor := .taken c fd t }
  have howners : s'.owners = ⟨c, t, .fresh fd⟩ :: s.owners := owners_take hacc rfl rfl rfl
  refine ⟨h.pool, hchain, ?_, ?_, take_conns h hacc rfl howners rfl, by simp, h.handlers⟩
  · show s.taskPoolLen - 1 = L.length
    rw [h.len, List.length_cons, Nat.add_sub_cancel]
  · intro t'
    have hone := h.once t'
    rw [List.count_cons] at hone
    show L.count t' + (s'.owners.map (·.data)).count t' = if t' < s.allocated then 1 else 0
    rw [howners]
    show L.count t' + (t :: s.owners.map (·.data)).count t' = _
    rw [List.count_cons]
    omega

/-- The new record was nowhere. -/
theorem allocated_free (h : OwnInv s L) :
    L.count s.allocated = 0 ∧ (s.owners.map (·.data)).count s.allocated = 0 := by
  have hnew := h.once s.allocated
  rw [if_neg (Nat.lt_irrefl _)] at hnew
  omega

theorem takeNew_step (h : OwnInv s L) {c : ConnId} {fd : Fd} (hacc : s.acceptor = .accepted c fd) :
    OwnInv { s with
      records := Function.update s.records s.allocated {}
      allocated := s.allocated + 1
      acceptor := .taken c fd s.allocated } L := by
  let s' : ServerState := { s with
    records := Function.update s.records s.allocated {}
    allocated := s.allocated + 1
    acceptor := .taken c fd s.allocated }
  have howners : s'.owners = ⟨c, s.allocated, .fresh fd⟩ :: s.owners :=
    owners_take hacc rfl rfl rfl
  obtain ⟨hfree, hunowned⟩ := h.allocated_free
  refine ⟨h.pool, ?_, h.len, ?_, take_conns h hacc rfl howners rfl, by simp, h.handlers⟩
  · apply h.chain.congr
    intro t' ht'
    have hne : t' ≠ s.allocated := fun he => List.count_eq_zero.mp hfree (he ▸ ht')
    exact congrArg HttpServerTaskData.next (Function.update_of_ne hne _ _)
  · intro t'
    show L.count t' + (s'.owners.map (·.data)).count t' = if t' < s.allocated + 1 then 1 else 0
    rw [howners]
    show L.count t' + (s.allocated :: s.owners.map (·.data)).count t' = _
    rw [List.count_cons]
    by_cases htt : t' = s.allocated
    · subst htt
      rw [hfree, hunowned, if_pos (beq_self_eq_true _), if_pos (Nat.lt_succ_self _)]
    · have hlt : t' < s.allocated + 1 ↔ t' < s.allocated := lt_succ_iff_of_ne htt
      have hone := h.once t'
      simp only [beq_iff_eq, Ne.symm htt, if_false, hlt]
      omega

/-! ## The pool's steps -/

theorem poolOnly_ne {pool : PoolState Unit DataAddr} {a : WorkerThreadPool.Action Unit DataAddr}
    (honly : poolOnly pool a = true) (w : Nat) (v : Int) : a ≠ .callbackReturn w v := by
  rintro rfl
  cases honly

/-- A step of the pool that starts and ends no callback. -/
theorem perm_pool (h : OwnInv s L) {a : WorkerThreadPool.Action Unit DataAddr}
    {pool : PoolState Unit DataAddr} (honly : poolOnly s.pool a = true)
    (hpool : WorkerThreadPool.Transition s.pool a pool) :
    { s with pool := pool }.owners.Perm s.owners := by
  have hne : ∀ c x i, a ≠ .enqueue c x i := by
    rintro c x i rfl
    cases honly
  -- a worker that has taken a job takes no step here
  have hstart : ∀ w c, a = .worker w → s.pool.phase w ≠ .taken c := by
    rintro w c rfl hphase
    simp only [PoolState.phase] at hphase
    simp only [poolOnly] at honly
    cases hw : s.pool.threads[w]? with
    | none => simp [hw] at hphase
    | some x =>
        obtain ⟨run, pc⟩ := x
        cases pc <;> simp [hw, WorkerPc.phase] at honly hphase
  exact owners_pool h.pool hpool hne rfl (fun w c ha hphase => absurd hphase (hstart w c ha))
    (fun w v c ha => absurd ha (poolOnly_ne honly w v)) fun _ _ => rfl

theorem pool_step (h : OwnInv s L) {a : WorkerThreadPool.Action Unit DataAddr}
    {pool : PoolState Unit DataAddr} (hok : NoEarlySettle s.pool a)
    (honly : poolOnly s.pool a = true)
    (hpool : WorkerThreadPool.Transition s.pool a pool) : OwnInv { s with pool := pool } L := by
  obtain ⟨F, Q, hinv⟩ := h.pool.pool
  have hperm := h.perm_pool honly hpool
  refine h.keep (h.pool.step hok hpool) (hperm.map _) (hperm.map _) (fun _ => rfl) rfl
    (fun _ => Nat.le_refl _) h.acceptor ?_
  intro w x hx
  obtain ⟨hphase, hpc⟩ := h.handlers w x hx
  exact ⟨running_keep (hinv.handover hpool) hphase (poolOnly_ne honly w), hpc⟩

theorem enqueue_step (h : OwnInv s L) {c : ConnId} {t : DataAddr} {i : Bool}
    {pool : PoolState Unit DataAddr} (hacc : s.acceptor = .filled c t)
    (hpool : WorkerThreadPool.Transition s.pool (.enqueue c (s.enqueueArgs t) i) pool) :
    OwnInv { s with pool := pool, acceptor := .enqueue c t } L := by
  obtain ⟨F, Q, hinv⟩ := h.pool.pool
  have hperm := owners_enqueue h.pool hacc hpool
  have hok : NoEarlySettle s.pool (.enqueue c (s.enqueueArgs t) i) := trivial
  refine h.keep (h.pool.step hok hpool) (hperm.map _) (hperm.map _) (fun _ => rfl) rfl
    (fun _ => Nat.zero_le _) (by simp) ?_
  intro w x hx
  obtain ⟨hphase, hpc⟩ := h.handlers w x hx
  exact ⟨running_keep (hinv.handover hpool) hphase (by simp), hpc⟩

/-- A worker calls `http_server_task` with the record of the task it has taken. -/
theorem perm_startTask (h : OwnInv s L) {w : Nat} {x : WorkerThreadPoolContext} {p : Addr}
    {t : DataAddr} {pool : PoolState Unit DataAddr} (hw : s.pool.threads[w]? = some x)
    (hx : x.pc = .dequeued p) (hdata : (s.pool.heap p).data = some t)
    (hpool : WorkerThreadPool.Transition s.pool (.worker w) pool) :
    ({ s with pool := pool }.setHandler w
      (some ⟨(s.pool.heap p).call, t, .parse⟩)).owners.Perm s.owners := by
  obtain ⟨htaken, hrun⟩ := start_phase hw hx hpool
  have hjob := taken_data h.pool hw hx hdata
  let y : Handler := ⟨(s.pool.heap p).call, t, .parse⟩
  let s' : ServerState := { s with pool := pool }.setHandler w (some y)
  have hstart : ∀ w' c, (.worker w : WorkerThreadPool.Action Unit DataAddr) = .worker w' →
      s.pool.phase w' = .taken c → s'.pool.phase w' = .running c →
      s'.workerHolding w' = s.jobHolding c := by
    intro w' c ha hphase _
    cases ha
    rw [htaken, Phase.taken.injEq] at hphase
    subst hphase
    have hhand : s'.handlers w = some y := ServerState.setHandler_self _ _ _
    have hrun : s'.pool.phase w = .running (s.pool.heap p).call := hrun
    rw [hjob]
    simp only [ServerState.workerHolding, hrun, hhand]
    rfl
  have hhand : ∀ w', s'.pool.phase w' = s.pool.phase w' → s'.handlers w' = s.handlers w' := by
    intro w' hphase
    have hne : w' ≠ w := fun he => by
      have hphase : pool.phase w' = s.pool.phase w' := hphase
      rw [he, htaken, hrun] at hphase
      cases hphase
    exact Function.update_of_ne hne _ _
  exact owners_pool h.pool hpool (by simp) rfl hstart (by simp) hhand

theorem startTask_step (h : OwnInv s L) {w : Nat} {x : WorkerThreadPoolContext} {p : Addr}
    {t : DataAddr} {pool : PoolState Unit DataAddr} (hw : s.pool.threads[w]? = some x)
    (hx : x.pc = .dequeued p) (hdata : (s.pool.heap p).data = some t)
    (hpool : WorkerThreadPool.Transition s.pool (.worker w) pool) :
    OwnInv ({ s with pool := pool }.setHandler w (some ⟨(s.pool.heap p).call, t, .parse⟩))
      L := by
  obtain ⟨F, Q, hinv⟩ := h.pool.pool
  obtain ⟨htaken, hrun⟩ := start_phase hw hx hpool
  have hok : NoEarlySettle s.pool (.worker w) := trivial
  have hperm := h.perm_startTask hw hx hdata hpool
  let y : Handler := ⟨(s.pool.heap p).call, t, .parse⟩
  refine h.keep (h.pool.step hok hpool) (hperm.map _) (hperm.map _) (fun _ => rfl) rfl
    (fun _ => Nat.le_refl _) h.acceptor ?_
  intro w' z hz
  have hz : Function.update s.handlers w (some y) w' = some z := hz
  show pool.phase w' = _ ∧ _
  by_cases hww : w' = w
  · subst hww
    rw [Function.update_self, Option.some.injEq] at hz
    subst hz
    exact ⟨hrun, by simp [y]⟩
  · rw [Function.update_of_ne hww] at hz
    obtain ⟨hphase, hpc⟩ := h.handlers w' z hz
    exact ⟨running_keep (hinv.handover hpool) hphase (by simp), hpc⟩

theorem perm_taskReturn (h : OwnInv s L) {w : Nat} {c : ConnId} {t : DataAddr}
    {pool : PoolState Unit DataAddr} (hw : s.handlers w = some ⟨c, t, .finalize .done⟩)
    (hpool : WorkerThreadPool.Transition s.pool (.callbackReturn w 0) pool) :
    ({ s with pool := pool }.setHandler w none).owners.Perm s.owners := by
  have hphase := (h.handlers w _ hw).1
  have hidle := return_phase hpool
  let s' : ServerState := { s with pool := pool }.setHandler w none
  have hfinish : ∀ w' v c',
      (.callbackReturn w 0 : WorkerThreadPool.Action Unit DataAddr) = .callbackReturn w' v →
      s.pool.phase w' = .running c' → s.workerHolding w' = [] := by
    intro w' v c' ha _
    cases ha
    simp only [ServerState.workerHolding, hphase, hw]
    rfl
  have hhand : ∀ w', s'.pool.phase w' = s.pool.phase w' → s'.handlers w' = s.handlers w' := by
    intro w' hsame
    have hne : w' ≠ w := fun he => by
      have hsame : pool.phase w' = s.pool.phase w' := hsame
      rw [he, hidle, hphase] at hsame
      cases hsame
    exact Function.update_of_ne hne _ _
  exact owners_pool h.pool hpool (by simp) rfl (by simp) hfinish hhand

theorem taskReturn_step (h : OwnInv s L) {w : Nat} {c : ConnId} {t : DataAddr}
    {pool : PoolState Unit DataAddr} (hw : s.handlers w = some ⟨c, t, .finalize .done⟩)
    (hpool : WorkerThreadPool.Transition s.pool (.callbackReturn w 0) pool) :
    OwnInv ({ s with pool := pool }.setHandler w none) L := by
  obtain ⟨F, Q, hinv⟩ := h.pool.pool
  have hok : NoEarlySettle s.pool (.callbackReturn w 0) := trivial
  have hperm := h.perm_taskReturn hw hpool
  refine h.keep (h.pool.step hok hpool) (hperm.map _) (hperm.map _) (fun _ => rfl) rfl
    (fun _ => Nat.le_refl _) h.acceptor ?_
  intro w' z hz
  have hz : Function.update s.handlers w none w' = some z := hz
  show pool.phase w' = _ ∧ _
  by_cases hww : w' = w
  · subst hww
    rw [Function.update_self] at hz
    cases hz
  · rw [Function.update_of_ne hww] at hz
    obtain ⟨hrun, hpc⟩ := h.handlers w' z hz
    refine ⟨running_keep (hinv.handover hpool) hrun ?_, hpc⟩
    intro v ha
    exact hww (WorkerThreadPool.Action.callbackReturn.inj ha).1.symm

/-- A call that was refused leaves the record with the acceptor. -/
theorem owners_refused (h : OwnInv s L) {c : ConnId} {t : DataAddr} {e : Nat} (status : Nat)
    (hacc : s.acceptor = .enqueue c t) (hret : (s.pool.calls c).pc = .returned e)
    (he : e ≠ workerThreadPoolSuccess) :
    { s.setRecord t { s.records t with statusCode := status } with
      acceptor := .finalize c t .write }.owners = s.owners := by
  have hunlinked : c ∉ linkedCalls s.pool.history := fun hc =>
    he ((h.pool.ended c e hret).mpr hc)
  simp only [ServerState.owners, ServerState.acceptorHolding, hacc, if_neg hunlinked]
  rfl

/-- A call that was not refused has given it away. -/
theorem acceptorHolding_enqueued (h : OwnInv s L) {c : ConnId} {t : DataAddr}
    (hacc : s.acceptor = .enqueue c t)
    (hret : (s.pool.calls c).pc = .returned workerThreadPoolSuccess) : s.acceptorHolding = [] := by
  have hlinked : c ∈ linkedCalls s.pool.history := (h.pool.ended c _ hret).mp rfl
  simp only [ServerState.acceptorHolding, hacc, if_pos hlinked]

/-- **The step lemma.** -/
theorem step (h : OwnInv s L) {a : Action} (hok : Clean s a) (ht : Transition s a s') :
    ∃ L', OwnInv s' L' := by
  cases ht with
  | accept hidle hfree => exact ⟨L, h.accept_step hidle⟩
  | @takePooled c fd t hacc hpool =>
      obtain ⟨L', rfl, hchain⟩ := (hpool ▸ h.chain).pop
      exact ⟨L', h.takePooled_step hacc hchain⟩
  | takeNew hacc hpool => exact ⟨L, h.takeNew_step hacc⟩
  | @lockFailed c fd hacc =>
      refine ⟨L, h.acceptor_keep (by simp) ?_ ?_⟩
      · simp only [ServerState.acceptorHolding, hacc]
      · intro c'
        simp only [ServerState.bare, hacc]
        exact Nat.le_refl _
  | @closeSocket c fd hacc =>
      have howners : { s.closeFd c fd with acceptor := .idle }.owners = s.owners := by
        simp only [ServerState.owners, ServerState.acceptorHolding, hacc]
        rfl
      exact ⟨L, h.keep h.pool (by rw [howners]) (by rw [howners]) (fun _ => rfl) rfl
        (fun _ => Nat.zero_le _) (by simp) h.handlers⟩
  | @fill c fd t hacc =>
      have hperm : ∀ β (f : Holding → β), f ⟨c, t, .fresh fd⟩ = f ⟨c, t, .opened⟩ →
          ({ s.setRecord t { s.records t with socket := fd, socketStream := ⟨fd, true⟩ } with
            acceptor := .filled c t }.owners.map f).Perm (s.owners.map f) := by
        intro β f hf
        simp only [ServerState.owners, ServerState.acceptorHolding, hacc, List.singleton_append,
          List.map_cons, hf]
        exact .refl _
      exact ⟨L, h.keep h.pool (hperm _ _ rfl) (hperm _ _ rfl)
        (setRecord_field HttpServerTaskData.next rfl) rfl (fun _ => Nat.zero_le _) (by simp)
        h.handlers⟩
  | enqueue hacc hpool => exact ⟨L, h.enqueue_step hacc hpool⟩
  | @enqueued c t hacc hret =>
      have hnone := h.acceptorHolding_enqueued hacc hret
      exact ⟨L, h.acceptor_keep (by simp) hnone.symm fun _ => Nat.zero_le _⟩
  | @refused c t e status hacc hret he =>
      have howners := h.owners_refused status hacc hret he
      exact ⟨L, h.keep h.pool (by rw [howners]) (by rw [howners])
        (setRecord_field HttpServerTaskData.next rfl) rfl (fun _ => Nat.zero_le _) (by simp)
        h.handlers⟩
  | @acceptorDone c t hacc =>
      refine ⟨L, h.acceptor_keep (by simp) ?_ fun _ => Nat.zero_le _⟩
      simp only [ServerState.acceptorHolding, hacc]
      rfl
  | pool honly hpool => exact ⟨L, h.pool_step hok honly hpool⟩
  | startTask hw hx hdata hpool => exact ⟨L, h.startTask_step hw hx hdata hpool⟩
  | read hw =>
      exact ⟨L, h.keep h.pool (.refl _) (.refl _) (fun _ => rfl) rfl (fun _ => Nat.le_refl _)
        h.acceptor h.handlers⟩
  | parsed hw | parseError hw | handled hw =>
      exact ⟨L, h.handler_step hw rfl rfl (by simp)⟩
  | @finalize p c t pc ok s₁ pc' hp hfin =>
      cases hfin with
      | respond | more | enough | shutdown | dealloc | keep =>
          exact ⟨L, h.finalize_keep hp rfl rfl rfl rfl rfl rfl rfl (by simp)⟩
      | push => exact ⟨t :: L, h.finalize_push hp⟩
      | lockFailed => cases hok c t hp
      | close =>
          cases p with
          | acceptor => exact absurd (finalizing_acceptor hp) (h.acceptor c t)
          | worker w => exact absurd rfl (h.handlers w _ (finalizing_worker hp)).2
  | taskReturn hw hpool => exact ⟨L, h.taskReturn_step hw hpool⟩

end OwnInv

/-! ## Runs -/

theorem ownInv_initial (h₀ : Initial s) : OwnInv s [] := by
  obtain ⟨n, q, timeout, pool, hpool, rfl⟩ := h₀
  have hinit : WorkerThreadPool.Initial pool := ⟨n, q, hpool⟩
  have hphase : ∀ w, pool.phase w = .idle := phase_initial hinit
  have hpending : pendingCalls pool.history = [] := by
    have hpool : PoolInv pool [] [] := .initial hinit
    exact hpool.pendingCalls_eq
  let s : ServerState := { timeout := timeout, pool := pool }
  have howners : s.owners = [] := by
    have hworkers : s.workerHolding = fun _ => [] := by
      funext w
      have hidle : s.pool.phase w = .idle := hphase w
      simp only [ServerState.workerHolding, hidle]
    have hqueue : s.queueHolding = [] := by
      show (pendingCalls pool.history).flatMap _ = []
      rw [hpending]
      rfl
    have hnone : (List.range s.pool.threads.length).flatMap (fun _ => ([] : List Holding)) = [] :=
      List.flatMap_eq_nil_iff.mpr fun _ _ => rfl
    rw [ServerState.owners, ServerState.poolHolding, hqueue, hworkers, hnone]
    rfl
  refine ⟨outcomeInv_initial hinit, Chain.nil_iff.mpr rfl, rfl, ?_, ?_,
    by simp, by simp⟩
  · intro t
    show 0 + (s.owners.map (·.data)).count t = if t < 0 then 1 else 0
    rw [howners, if_neg (Nat.not_lt_zero t)]
    rfl
  · intro c
    show 0 + (s.owners.map (·.conn)).count c ≤ _
    rw [howners]
    exact Nat.zero_le _

/-- **The run lemma.** -/
theorem ownInv_reaches {s₀ : ServerState} (h₀ : Initial s₀) (h : Reaches step Clean s₀ s) :
    ∃ L, OwnInv s L := by
  apply h.invariant (I := fun s => ∃ L, OwnInv s L) ⟨[], ownInv_initial h₀⟩
  rintro s a s' ⟨L, hinv⟩ hok hs
  exact hinv.step hok (step_transition hs)

end CWebServer.HttpServer
