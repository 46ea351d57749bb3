import CWebServer.HttpServer.Connections

/-!
# HttpServer — Conversations

In which order the calls on one connection's descriptor come. Input is read,
then one answer is written, then the connection is shut down and closed; a
connection that no thread and no queue has any more has come to this end. A
connection for which the task pool could not be locked is closed unanswered.
-/

namespace CWebServer.HttpServer

open CWebServer.Lib CWebServer.Runs CWebServer.WorkerThreadPool

/-- What has been done for the connection `c`, in order. -/
def trace (c : ConnId) (h : List Io) : List IoOp :=
  (h.filter fun e => decide (e.conn = c)).map (·.op)

/-- At most some input has been read. -/
def Unanswered (l : List IoOp) : Prop := ∃ reads, l = List.replicate reads .read

/-- An answer is begun, and maybe more of it written. -/
def Answering (l : List IoOp) : Prop :=
  ∃ reads writes, l = List.replicate reads .read ++ .respond :: List.replicate writes .write

/-- A whole conversation. -/
def Whole (l : List IoOp) : Prop := ∃ l', Answering l' ∧ l = l' ++ [.shutdown, .close]

/-- Nothing is done for the connection any more. -/
def Settled (l : List IoOp) : Prop := Whole l ∨ l = [.close]

/-- Where the conversation stands. The descriptor is closed with the stream
here, never after a lock has failed. -/
def FinalizePc.Says (l : List IoOp) : FinalizePc → Prop
  | .write => Unanswered l
  | .writing | .shutdown => Answering l
  | .dealloc => ∃ l', Answering l' ∧ l = l' ++ [.shutdown]
  | .lock => Whole l
  | .close | .done => True

def Stage.Says (l : List IoOp) : Stage → Prop
  | .fresh _ | .opened => Unanswered l
  | .responded => Answering l ∨ ∃ l', Answering l' ∧ l = l' ++ [.shutdown]
  | .closed => Whole l

/-- A thread or the queue has the connection. -/
def ServerState.InHand (s : ServerState) (c : ConnId) : Prop :=
  c ∈ s.bare ∨ ∃ e ∈ s.owners, e.conn = c

variable {s s' : ServerState} {L : List DataAddr}

theorem trace_snoc (c : ConnId) (h : List Io) (e : Io) :
    trace c (h ++ [e]) = if e.conn = c then trace c h ++ [e.op] else trace c h := by
  by_cases he : e.conn = c <;> simp [trace, List.filter_append, he]

theorem trace_self {c : ConnId} {h : List Io} {op : IoOp} {fd : Fd} {o : Option ConnId} :
    trace c (h ++ [⟨op, c, fd, o⟩]) = trace c h ++ [op] := by
  rw [trace_snoc, if_pos rfl]

theorem trace_other {c c' : ConnId} (hne : c' ≠ c) {h : List Io} {op : IoOp} {fd : Fd}
    {o : Option ConnId} : trace c' (h ++ [⟨op, c, fd, o⟩]) = trace c' h := by
  rw [trace_snoc, if_neg (Ne.symm hne)]

theorem trace_eq_nil {c : ConnId} {h : List Io} (hc : ∀ e ∈ h, e.conn ≠ c) :
    trace c h = [] := by
  rw [trace, List.filter_eq_nil_iff.mpr, List.map_nil]
  intro e he
  simpa using hc e he

theorem Unanswered.nil : Unanswered [] := ⟨0, rfl⟩

theorem Unanswered.read {l : List IoOp} (h : Unanswered l) : Unanswered (l ++ [.read]) := by
  obtain ⟨reads, rfl⟩ := h
  exact ⟨reads + 1, by rw [List.replicate_succ']⟩

theorem Unanswered.respond {l : List IoOp} (h : Unanswered l) : Answering (l ++ [.respond]) := by
  obtain ⟨reads, rfl⟩ := h
  exact ⟨reads, 0, rfl⟩

theorem Answering.write {l : List IoOp} (h : Answering l) : Answering (l ++ [.write]) := by
  obtain ⟨reads, writes, rfl⟩ := h
  exact ⟨reads, writes + 1, by rw [List.replicate_succ', List.append_assoc, List.cons_append]⟩

/-- What a place says, its stage says. -/
theorem FinalizePc.Says.stage {pc : FinalizePc} {l : List IoOp} (h : pc.Says l) {st : Stage}
    (hst : pc.stage = some st) (hclose : pc ≠ .close) : st.Says l := by
  cases pc with
  | write =>
      cases hst
      exact h
  | writing | shutdown =>
      cases hst
      exact .inl h
  | dealloc =>
      cases hst
      exact .inr h
  | lock =>
      cases hst
      exact h
  | close => exact absurd rfl hclose
  | done => cases hst

/-! ## Two threads that finalize -/

theorem holding_mem_owners {w : Nat} {x : Handler} (hrun : s.pool.phase w = .running x.conn)
    (hw : s.handlers w = some x) {e : Holding} (he : e ∈ x.holding) : e ∈ s.owners := by
  have hholding : s.workerHolding w = x.holding := by
    simp only [ServerState.workerHolding, hrun, hw]
  refine List.mem_append_right _ (List.mem_append_right _ ?_)
  exact List.mem_flatMap.mpr ⟨w, List.mem_range.mpr (running_lt hrun), hholding ▸ he⟩

theorem finalizing_setFinalize (s : ServerState) (p : Party) (c : ConnId) (t : DataAddr)
    (pc : FinalizePc) : (s.setFinalize p c t pc).finalizing p = some (c, t, pc) := by
  cases p with
  | acceptor => rfl
  | worker w =>
      simp only [ServerState.finalizing, ServerState.setFinalize, ServerState.setHandler_self]

theorem finalizing_setFinalize_of_ne {s₁ : ServerState} {p p' : Party} (hne : p' ≠ p)
    (hacc : s₁.acceptor = s.acceptor) (hhand : s₁.handlers = s.handlers) (c : ConnId)
    (t : DataAddr) (pc : FinalizePc) :
    (s₁.setFinalize p c t pc).finalizing p' = s.finalizing p' := by
  cases p with
  | acceptor =>
      cases p' with
      | acceptor => exact absurd rfl hne
      | worker w' => simp only [ServerState.finalizing, ServerState.setFinalize, hhand]
  | worker w =>
      cases p' with
      | acceptor =>
          simp only [ServerState.finalizing, ServerState.setFinalize, ServerState.setHandler, hacc]
      | worker w' =>
          have hww : w' ≠ w := fun he => hne (by rw [he])
          simp only [ServerState.finalizing, ServerState.setFinalize, ServerState.setHandler,
            Function.update_of_ne hww, hhand]

/-- A thread that finalizes has its record among the owners. -/
theorem OwnInv.finalizing_mem (h : OwnInv s L) {p : Party} {c : ConnId} {t : DataAddr}
    {pc : FinalizePc} (hp : s.finalizing p = some (c, t, pc)) {st : Stage}
    (hst : pc.stage = some st) : ⟨c, t, st⟩ ∈ s.owners := by
  obtain ⟨R, hperm, -⟩ := h.owners_finalizing hp
  rw [hperm.mem_iff, FinalizePc.holding, hst]
  exact List.mem_cons_self

/-- Where `e` is in the hands of `p`, a thread that finalizes does so for
another connection, until it has put its record back. -/
theorem OwnInv.finalizing_apart (h : OwnInv s L) {p p' : Party} {e : Holding} {R : List Holding}
    (hbefore : s.owners.Perm (e :: R)) {c c' : ConnId} {t t' : DataAddr}
    (hafter : (s.setFinalize p c t .done).owners.Perm R) {pc' : FinalizePc}
    (hp' : s.finalizing p' = some (c', t', pc')) (howns' : pc'.owns = true) (hne : p' ≠ p) :
    c' ≠ e.conn := by
  obtain ⟨stage', hst'⟩ : ∃ stage', ⟨c', t', stage'⟩ ∈ pc'.holding c' t' :=
    mem_finalizeHolding.mpr ⟨howns', rfl, rfl⟩
  have hrest : ⟨c', t', stage'⟩ ∈ (s.setFinalize p c t .done).owners := by
    cases p' with
    | acceptor =>
        cases p with
        | acceptor => exact absurd rfl hne
        | worker w =>
            have hacc : (s.setFinalize (.worker w) c t .done).acceptor = .finalize c' t' pc' :=
              finalizing_acceptor hp'
            refine List.mem_append_left _ ?_
            simp only [ServerState.acceptorHolding, hacc]
            exact hst'
    | worker w' =>
        have hhand := finalizing_worker hp'
        have hrun := (h.handlers w' _ hhand).1
        cases p with
        | acceptor =>
            exact holding_mem_owners (s := s.setFinalize .acceptor c t .done) (w := w')
              (x := ⟨c', t', .finalize pc'⟩) hrun hhand hst'
        | worker w =>
            have hww : w' ≠ w := fun he => hne (by rw [he])
            refine holding_mem_owners (s := s.setFinalize (.worker w) c t .done) (w := w')
              (x := ⟨c', t', .finalize pc'⟩) hrun ?_ hst'
            exact (Function.update_of_ne hww _ _).trans hhand
  exact (h.apart hbefore (hafter.mem_iff.mp hrest)).2

/-- The one holding of a thread that finalizes. -/
theorem FinalizePc.holding_eq {pc : FinalizePc} (howns : pc.owns = true) :
    ∃ st, pc.stage = some st ∧ ∀ c t, pc.holding c t = [⟨c, t, st⟩] := by
  cases pc with
  | done => cases howns
  | write | writing | shutdown | dealloc | lock | close => exact ⟨_, rfl, fun _ _ => rfl⟩

/-! ## The invariant -/

structure TraceInv (s : ServerState) : Prop where
  entries : ∀ e ∈ s.owners, e.stage.Says (trace e.conn s.history)
  bare : ∀ c ∈ s.bare, trace c s.history = []
  finalizing : ∀ p c t pc, s.finalizing p = some (c, t, pc) → pc.Says (trace c s.history)
  ended : ∀ c < s.connections, ¬ s.InHand c → Settled (trace c s.history)

namespace TraceInv

/-- A step without a call on a descriptor. -/
theorem keep (h : TraceInv s) (hhist : s'.history = s.history)
    (hconns : s'.connections = s.connections)
    (hentries : ∀ e ∈ s'.owners, e ∈ s.owners ∨ e.stage.Says (trace e.conn s.history))
    (hbare : ∀ c ∈ s'.bare, c ∈ s.bare)
    (hfin : ∀ p c t pc, s'.finalizing p = some (c, t, pc) →
      s.finalizing p = some (c, t, pc) ∨ pc.Says (trace c s.history))
    (hhand : ∀ c, s.InHand c → s'.InHand c) : TraceInv s' := by
  refine ⟨?_, ?_, ?_, ?_⟩
  · intro e he
    rw [hhist]
    exact (hentries e he).elim (h.entries e) id
  · intro c hc
    rw [hhist]
    exact h.bare c (hbare c hc)
  · intro p c t pc hp
    rw [hhist]
    exact (hfin p c t pc hp).elim (h.finalizing p c t pc) id
  · intro c hc hn
    rw [hhist]
    exact h.ended c (hconns ▸ hc) fun hs => hn (hhand c hs)

/-- The owners stay. -/
theorem keep_perm (h : TraceInv s) (hhist : s'.history = s.history)
    (hconns : s'.connections = s.connections) (hperm : s'.owners.Perm s.owners)
    (hbare : s'.bare = s.bare)
    (hfin : ∀ p c t pc, s'.finalizing p = some (c, t, pc) →
      s.finalizing p = some (c, t, pc) ∨ pc.Says (trace c s.history)) : TraceInv s' := by
  refine h.keep hhist hconns (fun e he => .inl (hperm.mem_iff.mp he)) (fun c hc => hbare ▸ hc)
    hfin ?_
  intro c hc
  rcases hc with hc | ⟨e, he, hec⟩
  · exact .inl (hbare ▸ hc)
  · exact .inr ⟨e, hperm.mem_iff.mpr he, hec⟩

/-- A step made for the connection `c`. -/
theorem move (h : TraceInv s) {c : ConnId}
    (htrace : ∀ c', c' ≠ c → trace c' s'.history = trace c' s.history)
    (hentries : ∀ e ∈ s'.owners,
      (e ∈ s.owners ∧ e.conn ≠ c) ∨ e.stage.Says (trace e.conn s'.history))
    (hbare : ∀ c' ∈ s'.bare, (c' ∈ s.bare ∧ c' ≠ c) ∨ trace c' s'.history = [])
    (hfin : ∀ p c' t pc, s'.finalizing p = some (c', t, pc) →
      (s.finalizing p = some (c', t, pc) ∧ c' ≠ c) ∨ pc.Says (trace c' s'.history))
    (hended : ∀ c' < s'.connections, c' ≠ c → ¬ s'.InHand c' →
      c' < s.connections ∧ ¬ s.InHand c')
    (hmoved : s'.InHand c ∨ Settled (trace c s'.history)) : TraceInv s' := by
  refine ⟨?_, ?_, ?_, ?_⟩
  · intro e he
    rcases hentries e he with ⟨hs, hne⟩ | hstands
    · rw [htrace _ hne]
      exact h.entries e hs
    · exact hstands
  · intro c' hc'
    rcases hbare c' hc' with ⟨hs, hne⟩ | hnil
    · rw [htrace _ hne]
      exact h.bare c' hs
    · exact hnil
  · intro p c' t pc hp
    rcases hfin p c' t pc hp with ⟨hs, hne⟩ | hstands
    · rw [htrace _ hne]
      exact h.finalizing p c' t pc hs
    · exact hstands
  · intro c' hlt hn
    by_cases hne : c' = c
    · subst hne
      exact hmoved.resolve_left hn
    · obtain ⟨hlt', hn'⟩ := hended c' hlt hne hn
      rw [htrace _ hne]
      exact h.ended c' hlt' hn'

/-- A thread that finalizes for a connection that is in nobody's hands but its
own, or has come to its end. -/
theorem finalizing_or_done {p : Party} {c c' : ConnId} {t : DataAddr} {pc : FinalizePc}
    (hp : s.finalizing p = some (c', t, pc)) {l : List IoOp}
    (happart : pc.owns = true → c' ≠ c) :
    (s.finalizing p = some (c', t, pc) ∧ c' ≠ c) ∨ pc.Says l := by
  cases pc with
  | done => exact .inr trivial
  | write | writing | shutdown | dealloc | lock | close => exact .inl ⟨hp, happart rfl⟩

theorem accept_step (h : TraceInv s) (hown : OwnInv s L) (hio : IoInv s) {fd : Fd}
    (hidle : s.acceptor = .idle) :
    TraceInv { s with
      acceptor := .accepted s.connections fd
      descriptors := Function.update s.descriptors fd (some s.connections)
      connections := s.connections + 1 } := by
  let s' : ServerState := { s with
    acceptor := .accepted s.connections fd
    descriptors := Function.update s.descriptors fd (some s.connections)
    connections := s.connections + 1 }
  have howners : s'.owners = s.owners := by
    simp only [ServerState.owners, ServerState.acceptorHolding, hidle, s']
    rfl
  refine h.move (c := s.connections) (fun _ _ => rfl) ?_ ?_ ?_ ?_
    (.inl (.inl (List.mem_singleton.mpr rfl)))
  · intro e he
    rw [howners] at he
    exact .inl ⟨he, Nat.ne_of_lt (hown.conn_lt he)⟩
  · intro c' hc'
    rw [List.mem_singleton.mp hc']
    exact .inr (trace_eq_nil fun e he => Nat.ne_of_lt (hio.known e he))
  · intro p c' t pc hp
    cases p with
    | acceptor => cases hp
    | worker w =>
        have hp : s.finalizing (.worker w) = some (c', t, pc) := hp
        refine finalizing_or_done hp fun howns => ?_
        obtain ⟨st, hst, -⟩ := FinalizePc.holding_eq howns
        exact Nat.ne_of_lt (hown.conn_lt (hown.finalizing_mem hp hst))
  · intro c' hlt hne hn
    refine ⟨Nat.lt_of_le_of_ne (Nat.le_of_lt_succ hlt) hne, fun hs => ?_⟩
    rcases hs with hs | ⟨e, he, hec⟩
    · simp only [ServerState.bare, hidle, List.not_mem_nil] at hs
    · exact hn (.inr ⟨e, howners ▸ he, hec⟩)

/-- The acceptor gets a record. -/
theorem take_step (h : TraceInv s) {c : ConnId} {fd : Fd} {t : DataAddr}
    (hacc : s.acceptor = .accepted c fd) (hacc' : s'.acceptor = .taken c fd t)
    (hpool : s'.pool = s.pool) (hhand : s'.handlers = s.handlers)
    (hhist : s'.history = s.history) (hconns : s'.connections = s.connections) : TraceInv s' := by
  have howners := OwnInv.owners_take hacc hpool hhand hacc'
  have hbare : s.bare = [c] := by simp only [ServerState.bare, hacc]
  refine h.keep hhist hconns ?_ ?_ ?_ ?_
  · intro e he
    rw [howners, List.mem_cons] at he
    rcases he with rfl | he
    · refine .inr ?_
      show Unanswered (trace c s.history)
      rw [h.bare c (by rw [hbare]; exact List.mem_singleton.mpr rfl)]
      exact .nil
    · exact .inl he
  · intro c' hc'
    simp only [ServerState.bare, hacc', List.not_mem_nil] at hc'
  · intro p c' t' pc hp
    cases p with
    | acceptor =>
        simp only [ServerState.finalizing, hacc'] at hp
        cases hp
    | worker w =>
        simp only [ServerState.finalizing, hhand] at hp
        exact .inl hp
  · intro c' hc'
    refine .inr ?_
    rw [howners]
    rcases hc' with hc' | ⟨e, he, hec⟩
    · rw [hbare, List.mem_singleton] at hc'
      exact ⟨_, List.mem_cons_self, hc'.symm⟩
    · exact ⟨e, List.mem_cons_of_mem _ he, hec⟩

/-- The acceptor closes a connection it has no record for. -/
theorem closeSocket_step (h : TraceInv s) (hown : OwnInv s L) {c : ConnId} {fd : Fd}
    (hacc : s.acceptor = .lockFailed c fd) :
    TraceInv { s.closeFd c fd with acceptor := .idle } := by
  have hbare : s.bare = [c] := by simp only [ServerState.bare, hacc]
  have hmem : c ∈ s.bare := by
    rw [hbare]
    exact List.mem_singleton.mpr rfl
  obtain ⟨hlt, hapart⟩ := hown.bare_apart hmem
  have howners : { s.closeFd c fd with acceptor := .idle }.owners = s.owners := by
    simp only [ServerState.owners, ServerState.acceptorHolding, hacc]
    rfl
  refine h.move (c := c) (fun c' hne => trace_other hne) ?_ (fun _ hc' => by cases hc') ?_ ?_ ?_
  · intro e he
    rw [howners] at he
    exact .inl ⟨he, hapart e he⟩
  · intro p c' t pc hp
    cases p with
    | acceptor => cases hp
    | worker w =>
        have hp : s.finalizing (.worker w) = some (c', t, pc) := hp
        refine finalizing_or_done hp fun howns => ?_
        obtain ⟨st, hst, -⟩ := FinalizePc.holding_eq howns
        exact hapart _ (hown.finalizing_mem hp hst)
  · intro c' hlt' hne hn
    refine ⟨hlt', fun hs => ?_⟩
    rcases hs with hs | ⟨e, he, hec⟩
    · rw [hbare, List.mem_singleton] at hs
      exact hne hs
    · exact hn (.inr ⟨e, howners ▸ he, hec⟩)
  · refine .inr (.inr ?_)
    show trace c (s.history ++ [⟨.close, c, fd, s.descriptors fd⟩]) = [.close]
    rw [trace_self, h.bare c hmem]
    rfl

/-- The acceptor goes on with the connection it has. -/
theorem acceptor_step (h : TraceInv s) (hhist : s'.history = s.history)
    (hconns : s'.connections = s.connections) (hhand : s'.handlers = s.handlers)
    (howners : s'.owners.map (·.conn) = s.owners.map (·.conn))
    (hentries : ∀ e ∈ s'.owners, e ∈ s.owners ∨ e.stage.Says (trace e.conn s.history))
    (hbare : s'.bare = s.bare)
    (hfin : ∀ c t pc, s'.acceptor = .finalize c t pc → pc.Says (trace c s.history)) :
    TraceInv s' := by
  refine h.keep hhist hconns hentries (fun c hc => hbare ▸ hc) ?_ ?_
  · intro p c t pc hp
    cases p with
    | acceptor => exact .inr (hfin c t pc (OwnInv.finalizing_acceptor hp))
    | worker w =>
        simp only [ServerState.finalizing, hhand] at hp
        exact .inl hp
  · intro c hc
    rcases hc with hc | ⟨e, he, hec⟩
    · exact .inl (hbare ▸ hc)
    · refine .inr ?_
      have hmem : c ∈ s.owners.map (·.conn) := List.mem_map.mpr ⟨e, he, hec⟩
      rw [← howners] at hmem
      exact List.mem_map.mp hmem

/-- The acceptor fills in the socket. -/
theorem fill_step (h : TraceInv s) {c : ConnId} {fd : Fd} {t : DataAddr}
    (hacc : s.acceptor = .taken c fd t) :
    TraceInv { s.setRecord t { s.records t with socket := fd, socketStream := ⟨fd, true⟩ } with
      acceptor := .filled c t } := by
  have hbefore : s.owners = ⟨c, t, .fresh fd⟩ :: s.poolHolding := by
    simp only [ServerState.owners, ServerState.acceptorHolding, hacc]
    rfl
  refine h.acceptor_step rfl rfl rfl ?_ ?_ ?_ (fun _ _ _ he => by cases he)
  · rw [hbefore]
    rfl
  · intro e he
    rcases List.mem_cons.mp he with rfl | he
    · exact .inr (h.entries ⟨c, t, .fresh fd⟩ (by rw [hbefore]; exact List.mem_cons_self))
    · refine .inl ?_
      rw [hbefore]
      exact List.mem_cons_of_mem _ he
  · simp only [ServerState.bare, hacc]

/-- A handler reads from the connection's stream. -/
theorem read_step (h : TraceInv s) (hown : OwnInv s L) {w : Nat} {c : ConnId} {t : DataAddr}
    (hw : s.handlers w = some ⟨c, t, .parse⟩) (fd : Fd) : TraceInv (s.io .read c fd) := by
  obtain ⟨R, hbefore, hafter⟩ := hown.owners_handler hw
  have hbefore : s.owners.Perm (⟨c, t, .opened⟩ :: R) := hbefore
  have hmem : ⟨c, t, .opened⟩ ∈ s.owners := hbefore.mem_iff.mpr List.mem_cons_self
  refine h.move (c := c) (fun c' hne => trace_other hne) ?_ ?_ ?_ ?_
    (.inl (.inr ⟨_, hmem, rfl⟩))
  · intro e he
    rcases List.mem_cons.mp (hbefore.mem_iff.mp he) with rfl | he'
    · refine .inr ?_
      show Unanswered (trace c (s.history ++ [⟨.read, c, fd, s.descriptors fd⟩]))
      rw [trace_self]
      exact (h.entries _ hmem).read
    · exact .inl ⟨he, (hown.apart hbefore he').2⟩
  · intro c' hc'
    exact .inl ⟨hc', fun he => (hown.bare_apart hc').2 _ hmem he.symm⟩
  · intro p c' t' pc hp
    have hp : s.finalizing p = some (c', t', pc) := hp
    refine finalizing_or_done hp fun howns => ?_
    refine hown.finalizing_apart (p := .worker w) hbefore (c := c) (t := t)
      (hafter s ⟨c, t, .finalize .done⟩ rfl rfl rfl) hp howns ?_
    rintro rfl
    cases hw.symm.trans (OwnInv.finalizing_worker hp)
  · exact fun c' hlt hne hn => ⟨hlt, hn⟩

/-- A handler goes on and writes to the response only. -/
theorem handler_step (h : TraceInv s) (hown : OwnInv s L) {w : Nat} {x y : Handler}
    (hw : s.handlers w = some x) {status : Nat} (hholding : y.holding = x.holding)
    (hx : x.holding = [⟨x.conn, x.data, .opened⟩])
    (hy : ∀ pc, y.pc = .finalize pc → y.conn = x.conn ∧ pc = .write) :
    TraceInv ((s.setRecord x.data { s.records x.data with statusCode := status }).setHandler w
      (some y)) := by
  have hperm := hown.perm_handler hw status hholding
  obtain ⟨R, hbefore, -⟩ := hown.owners_handler hw
  rw [hx] at hbefore
  have hmem : ⟨x.conn, x.data, .opened⟩ ∈ s.owners := hbefore.mem_iff.mpr List.mem_cons_self
  refine h.keep_perm rfl rfl hperm rfl ?_
  intro p c t pc hp
  cases p with
  | acceptor => exact .inl hp
  | worker w' =>
      have hw' := OwnInv.finalizing_worker hp
      by_cases hww : w' = w
      · subst hww
        rw [ServerState.setHandler_self, Option.some.injEq] at hw'
        subst hw'
        obtain ⟨hc, rfl⟩ := hy pc rfl
        have hc : c = x.conn := hc
        exact .inr (hc ▸ h.entries _ hmem)
      · refine .inl ?_
        have hother : s.handlers w' = some ⟨c, t, .finalize pc⟩ :=
          (Function.update_of_ne hww _ _).symm.trans hw'
        simp only [ServerState.finalizing, hother]

/-! ## Finalization -/

/-- A step of `http_server_finalize_task` that goes on as it should. -/
theorem finalize (h : TraceInv s) (hown : OwnInv s L) {p : Party} {c : ConnId} {t : DataAddr}
    {pc pc' : FinalizePc} (hp : s.finalizing p = some (c, t, pc)) (howns : pc.owns = true)
    {s₁ : ServerState} (hpool : s₁.pool = s.pool) (hacc : s₁.acceptor = s.acceptor)
    (hhand : s₁.handlers = s.handlers) (hconns : s₁.connections = s.connections)
    (htrace : ∀ c', c' ≠ c → trace c' s₁.history = trace c' s.history)
    (hstands : pc'.Says (trace c s₁.history)) (hclose : pc' ≠ .close)
    (hend : pc' = .done → Settled (trace c s₁.history)) :
    TraceInv (s₁.setFinalize p c t pc') := by
  obtain ⟨R, hbefore, hafter⟩ := hown.owners_finalizing hp
  have hvacated := hafter s .done rfl rfl rfl
  have hafter := hafter s₁ pc' hpool hacc hhand
  obtain ⟨st, -, hone⟩ := FinalizePc.holding_eq howns
  rw [hone] at hbefore
  have hmem : ⟨c, t, st⟩ ∈ s.owners := hbefore.mem_iff.mpr List.mem_cons_self
  obtain ⟨hhist, hconns', hbare⟩ : (s₁.setFinalize p c t pc').history = s₁.history
      ∧ (s₁.setFinalize p c t pc').connections = s₁.connections
      ∧ ∀ c' ∈ (s₁.setFinalize p c t pc').bare, c' ∈ s.bare := by
    cases p with
    | acceptor => exact ⟨rfl, rfl, fun c' hc' => by cases hc'⟩
    | worker w =>
        refine ⟨rfl, rfl, fun c' hc' => ?_⟩
        simp only [ServerState.bare, ServerState.setFinalize, ServerState.setHandler, hacc]
          at hc' ⊢
        exact hc'
  have hpermMem : ∀ e, e ∈ (s₁.setFinalize p c t pc').owners
    ↔ e ∈ pc'.holding c t ∨ e ∈ R := by
    intro e
    rw [hafter.mem_iff, List.mem_append]
  refine h.move (c := c) ?_ ?_ ?_ ?_ ?_ ?_
  · rw [hhist]
    exact htrace
  · intro e he
    rcases (hpermMem e).mp he with he | he
    · refine .inr ?_
      obtain ⟨stage, hstage, rfl⟩ := List.mem_map.mp he
      rw [hhist]
      exact hstands.stage (Option.mem_toList.mp hstage) hclose
    · exact .inl ⟨hbefore.mem_iff.mpr (List.mem_cons_of_mem _ he), (hown.apart hbefore he).2⟩
  · intro c' hc'
    have hs := hbare c' hc'
    exact .inl ⟨hs, fun he => (hown.bare_apart hs).2 _ hmem he.symm⟩
  · intro p' c' t' pc'' hp'
    by_cases hpp : p' = p
    · subst hpp
      rw [finalizing_setFinalize] at hp'
      cases hp'
      refine .inr ?_
      rw [hhist]
      exact hstands
    · rw [finalizing_setFinalize_of_ne hpp hacc hhand] at hp'
      exact finalizing_or_done hp' fun howns' =>
        hown.finalizing_apart hbefore hvacated hp' howns' hpp
  · intro c' hlt hne hn
    rw [hconns', hconns] at hlt
    refine ⟨hlt, fun hs => hn ?_⟩
    rcases hs with hs | ⟨e, he, hec⟩
    · -- the acceptor has no bare connection while it finalizes
      cases p with
      | acceptor =>
          simp only [ServerState.bare, OwnInv.finalizing_acceptor hp, List.not_mem_nil] at hs
      | worker w =>
          refine .inl ?_
          simp only [ServerState.bare, ServerState.setFinalize, ServerState.setHandler,
            hacc] at hs ⊢
          exact hs
    · rcases List.mem_cons.mp (hbefore.mem_iff.mp he) with rfl | he
      · exact absurd hec.symm hne
      · exact .inr ⟨e, (hpermMem e).mpr (.inr he), hec⟩
  · rw [hhist]
    cases howns' : pc'.owns with
    | true =>
        obtain ⟨st', -, hone'⟩ := FinalizePc.holding_eq howns'
        refine .inl (.inr ⟨⟨c, t, st'⟩, ?_, rfl⟩)
        rw [hpermMem, hone']
        exact .inl (List.mem_singleton.mpr rfl)
    | false =>
        refine .inr (hend ?_)
        cases pc' <;> first | rfl | cases howns'

theorem finalize_step (h : TraceInv s) (hown : OwnInv s L) (hio : IoInv s) {p : Party}
    {c : ConnId} {t : DataAddr} {pc pc' : FinalizePc} {ok : Bool} {s₁ : ServerState}
    (hp : s.finalizing p = some (c, t, pc)) (hok : pc = .lock → ok = true)
    (hclose : pc ≠ .close) (hfin : Finalizes s c t ok pc s₁ pc') :
    TraceInv (s₁.setFinalize p c t pc') := by
  have hstands := h.finalizing p c t pc hp
  have hother : ∀ (op : IoOp) (fd : Fd) (o : Option ConnId) (c' : ConnId), c' ≠ c →
      trace c' (s.history ++ [⟨op, c, fd, o⟩]) = trace c' s.history :=
    fun _ _ _ _ hne => trace_other hne
  cases hfin with
  | respond =>
      refine h.finalize hown hp rfl rfl rfl rfl rfl (hother _ _ _) ?_ (by simp) (by simp)
      show Answering (trace c (s.history ++ [_]))
      rw [trace_self]
      exact Unanswered.respond hstands
  | more =>
      refine h.finalize hown hp rfl rfl rfl rfl rfl (hother _ _ _) ?_ (by simp) (by simp)
      show Answering (trace c (s.history ++ [_]))
      rw [trace_self]
      exact Answering.write hstands
  | enough =>
      exact h.finalize hown hp rfl rfl rfl rfl rfl (fun _ _ => rfl) hstands (by simp) (by simp)
  | shutdown =>
      refine h.finalize hown hp rfl rfl rfl rfl rfl (hother _ _ _) ?_ (by simp) (by simp)
      exact ⟨_, hstands, trace_self⟩
  | dealloc =>
      refine h.finalize hown hp rfl rfl rfl rfl rfl (hother _ _ _) ?_ (by simp) (by simp)
      obtain ⟨l, hl, htrace⟩ := hstands
      refine ⟨l, hl, trace_self.trans ?_⟩
      rw [htrace, List.append_assoc]
      rfl
  | keep hshould =>
      -- the record's stream closes its descriptor
      obtain ⟨-, ⟨fd, hatt⟩, -⟩ := hio.attached hown hp (.inr rfl)
      have hstream := congrArg (·.2.shouldClose) hatt.sockets
      rw [show (s.records t).sockets.2.shouldClose = false from hshould] at hstream
      cases hstream
  | push =>
      exact h.finalize hown hp rfl rfl rfl rfl rfl (fun _ _ => rfl) trivial (by simp)
        fun _ => .inl hstands
  | lockFailed => cases hok rfl
  | close => exact absurd rfl hclose

/-- **The step lemma.** -/
theorem step (h : TraceInv s) (hown : OwnInv s L) (hio : IoInv s) {a : Action} (hok : Clean s a)
    (ht : Transition s a s') : TraceInv s' := by
  cases ht with
  | accept hidle hfree => exact h.accept_step hown hio hidle
  | takePooled hacc hpool | takeNew hacc hpool => exact h.take_step hacc rfl rfl rfl rfl rfl
  | @lockFailed c fd hacc =>
      have howners : { s with acceptor := .lockFailed c fd }.owners = s.owners := by
        simp only [ServerState.owners, ServerState.acceptorHolding, hacc]
        rfl
      refine h.acceptor_step rfl rfl rfl (by rw [howners]) (fun e he => .inl (howners ▸ he)) ?_
        (fun _ _ _ he => by cases he)
      simp only [ServerState.bare, hacc]
  | closeSocket hacc => exact h.closeSocket_step hown hacc
  | fill hacc => exact h.fill_step hacc
  | enqueue hacc hpool =>
      have hperm := owners_enqueue hown.pool hacc hpool
      refine h.keep_perm rfl rfl hperm ?_ ?_
      · simp only [ServerState.bare, hacc]
      · intro p c' t' pc hp
        cases p with
        | acceptor => cases hp
        | worker w => exact .inl hp
  | @enqueued c t hacc hret =>
      have hnone := hown.acceptorHolding_enqueued hacc hret
      have howners : { s with acceptor := .idle }.owners = s.owners := by
        rw [ServerState.owners, ServerState.owners, hnone]
        rfl
      refine h.acceptor_step rfl rfl rfl (by rw [howners]) (fun e he => .inl (howners ▸ he)) ?_
        (fun _ _ _ he => by cases he)
      simp only [ServerState.bare, hacc]
  | @refused c t e status hacc hret he =>
      have howners := hown.owners_refused status hacc hret he
      refine h.acceptor_step rfl rfl rfl (by rw [howners]) (fun e he => .inl (howners ▸ he)) ?_ ?_
      · simp only [ServerState.bare, hacc]
      · intro c' t' pc hpc
        cases hpc
        -- the enqueue left the record with the acceptor
        have hmem : ⟨c, t, .opened⟩ ∈ s.owners := by
          rw [← howners]
          exact List.mem_cons_self
        exact h.entries _ hmem
  | @acceptorDone c t hacc =>
      have howners : { s with acceptor := .idle }.owners = s.owners := by
        simp only [ServerState.owners, ServerState.acceptorHolding, hacc]
        rfl
      refine h.acceptor_step rfl rfl rfl (by rw [howners]) (fun e he => .inl (howners ▸ he)) ?_
        (fun _ _ _ he => by cases he)
      simp only [ServerState.bare, hacc]
  | pool honly hpool =>
      exact h.keep_perm rfl rfl (hown.perm_pool honly hpool) rfl fun _ _ _ _ hp => .inl hp
  | @startTask w x q t pool hw hx hdata hpool =>
      refine h.keep_perm rfl rfl (hown.perm_startTask hw hx hdata hpool) rfl ?_
      intro p c' t' pc hp
      cases p with
      | acceptor => exact .inl hp
      | worker w' =>
          have hw' := OwnInv.finalizing_worker hp
          by_cases hww : w' = w
          · subst hww
            rw [ServerState.setHandler_self] at hw'
            cases hw'
          · refine .inl ?_
            have hother : s.handlers w' = some ⟨c', t', .finalize pc⟩ :=
              (Function.update_of_ne hww _ _).symm.trans hw'
            simp only [ServerState.finalizing, hother]
  | read hw => exact h.read_step hown hw _
  | parsed hw => exact h.handler_step hown hw rfl rfl fun _ hpc => by cases hpc
  | parseError hw | handled hw =>
      refine h.handler_step hown hw rfl rfl fun _ hpc => ?_
      cases hpc
      exact ⟨rfl, rfl⟩
  | @finalize p c t pc ok s₁ pc' hp hfin =>
      refine h.finalize_step hown hio hp (fun hpc => hok c t (hpc ▸ hp)) ?_ hfin
      rintro rfl
      cases p with
      | acceptor => exact absurd (OwnInv.finalizing_acceptor hp) (hown.acceptor c t)
      | worker w => exact absurd rfl (hown.handlers w _ (OwnInv.finalizing_worker hp)).2
  | @taskReturn w c t pool hw hpool =>
      refine h.keep_perm rfl rfl (hown.perm_taskReturn hw hpool) rfl ?_
      intro p c' t' pc hp
      cases p with
      | acceptor => exact .inl hp
      | worker w' =>
          have hw' := OwnInv.finalizing_worker hp
          by_cases hww : w' = w
          · subst hww
            rw [ServerState.setHandler_self] at hw'
            cases hw'
          · refine .inl ?_
            have hother : s.handlers w' = some ⟨c', t', .finalize pc⟩ :=
              (Function.update_of_ne hww _ _).symm.trans hw'
            simp only [ServerState.finalizing, hother]

end TraceInv

/-! ## Open descriptors -/

/-- A descriptor is open for one connection, which has not been closed. -/
structure OpenInv (s : ServerState) : Prop where
  known : ∀ fd c, s.descriptors fd = some c → c < s.connections
  one : ∀ fd fd' c, s.descriptors fd = some c → s.descriptors fd' = some c → fd' = fd
  unclosed : ∀ fd c, s.descriptors fd = some c → IoOp.close ∉ trace c s.history

namespace OpenInv

theorem keep (h : OpenInv s) (hdesc : s'.descriptors = s.descriptors)
    (hconns : s'.connections = s.connections)
    (htrace : ∀ c, IoOp.close ∈ trace c s'.history → IoOp.close ∈ trace c s.history) :
    OpenInv s' := by
  refine ⟨?_, ?_, ?_⟩
  · rw [hdesc, hconns]
    exact h.known
  · rw [hdesc]
    exact h.one
  · rw [hdesc]
    exact fun fd c hfd hmem => h.unclosed fd c hfd (htrace c hmem)

theorem accept_step (h : OpenInv s) (hio : IoInv s) {fd : Fd} :
    OpenInv { s with
      acceptor := .accepted s.connections fd
      descriptors := Function.update s.descriptors fd (some s.connections)
      connections := s.connections + 1 } := by
  have hcases : ∀ fd' c, Function.update s.descriptors fd (some s.connections) fd' = some c →
      (fd' = fd ∧ c = s.connections) ∨ s.descriptors fd' = some c := by
    intro fd' c hfd
    by_cases hne : fd' = fd
    · subst hne
      rw [Function.update_self, Option.some.injEq] at hfd
      exact .inl ⟨rfl, hfd.symm⟩
    · rw [Function.update_of_ne hne] at hfd
      exact .inr hfd
  refine ⟨?_, ?_, ?_⟩
  · intro fd' c hfd
    rcases hcases fd' c hfd with ⟨-, rfl⟩ | hold
    · exact Nat.lt_succ_self _
    · exact Nat.lt_succ_of_lt (h.known fd' c hold)
  · intro fd₁ fd₂ c h₁ h₂
    rcases hcases fd₁ c h₁ with ⟨hfd₁, hc₁⟩ | hold₁
    · rcases hcases fd₂ c h₂ with ⟨hfd₂, -⟩ | hold₂
      · exact hfd₂.trans hfd₁.symm
      · exact absurd hc₁ (Nat.ne_of_lt (h.known fd₂ c hold₂))
    · rcases hcases fd₂ c h₂ with ⟨-, hc₂⟩ | hold₂
      · exact absurd hc₂ (Nat.ne_of_lt (h.known fd₁ c hold₁))
      · exact h.one fd₁ fd₂ c hold₁ hold₂
  · intro fd' c hfd
    rcases hcases fd' c hfd with ⟨-, rfl⟩ | hold
    · show IoOp.close ∉ trace s.connections s.history
      rw [trace_eq_nil fun e he => Nat.ne_of_lt (hio.known e he)]
      exact List.not_mem_nil
    · exact h.unclosed fd' c hold

/-- The connection's own descriptor is closed. -/
theorem closeFd (h : OpenInv s) {c : ConnId} {fd : Fd} (hfd : s.descriptors fd = some c) :
    OpenInv (s.closeFd c fd) := by
  have hcases : ∀ fd' c', Function.update s.descriptors fd none fd' = some c' →
      s.descriptors fd' = some c' ∧ c' ≠ c := by
    intro fd' c' hfd'
    by_cases hne : fd' = fd
    · subst hne
      rw [Function.update_self] at hfd'
      cases hfd'
    · rw [Function.update_of_ne hne] at hfd'
      exact ⟨hfd', fun he => hne (h.one fd fd' c hfd (he ▸ hfd'))⟩
  refine ⟨?_, ?_, ?_⟩
  · exact fun fd' c' hfd' => h.known fd' c' (hcases fd' c' hfd').1
  · exact fun fd₁ fd₂ c' h₁ h₂ =>
      h.one fd₁ fd₂ c' (hcases fd₁ c' h₁).1 (hcases fd₂ c' h₂).1
  · intro fd' c' hfd'
    obtain ⟨hold, hne⟩ := hcases fd' c' hfd'
    show IoOp.close ∉ trace c' (s.history ++ [⟨.close, c, fd, s.descriptors fd⟩])
    rw [trace_other hne]
    exact h.unclosed fd' c' hold

/-- Any other call leaves what is closed. -/
theorem io (h : OpenInv s) {op : IoOp} (hop : op ≠ .close) (c : ConnId) (fd : Fd) :
    OpenInv (s.io op c fd) := by
  refine h.keep rfl rfl fun c' hmem => ?_
  have hmem : IoOp.close ∈ trace c' (s.history ++ [⟨op, c, fd, s.descriptors fd⟩]) := hmem
  rw [trace_snoc] at hmem
  split at hmem
  · rcases List.mem_append.mp hmem with hmem | hmem
    · exact hmem
    · exact absurd (List.mem_singleton.mp hmem).symm hop
  · exact hmem

/-- Where the thread goes next does not matter. -/
theorem setFinalize (h : OpenInv s) (p : Party) (c : ConnId) (t : DataAddr) (pc : FinalizePc) :
    OpenInv (s.setFinalize p c t pc) := by
  cases p with
  | acceptor | worker w => exact h.keep rfl rfl fun _ => id

theorem step (h : OpenInv s) (hown : OwnInv s L) (hio : IoInv s) {a : Action} (hok : Clean s a)
    (ht : Transition s a s') : OpenInv s' := by
  cases ht with
  | accept hidle hfree => exact h.accept_step hio
  | closeSocket hacc =>
      have hbare := hio.bare _ _ (by simp only [ServerState.bareSocket, hacc]; rfl)
      exact (h.closeFd hbare.descriptor).keep rfl rfl fun _ => id
  | read hw => exact h.io (by simp) _ _
  | @finalize p c t pc ok s₁ pc' hp hfin =>
      refine setFinalize ?_ p c t pc'
      cases hfin with
      | respond | more | shutdown => exact h.io (by simp) _ _
      | enough | keep => exact h
      | dealloc =>
          obtain ⟨-, ⟨fd, hatt⟩, -⟩ := hio.attached hown hp (.inr rfl)
          rw [hatt.stream]
          exact h.closeFd hatt.descriptor
      | push => exact h.keep rfl rfl fun _ => id
      | lockFailed => cases hok c t hp
      | close =>
          cases p with
          | acceptor => exact absurd (OwnInv.finalizing_acceptor hp) (hown.acceptor c t)
          | worker w => exact absurd rfl (hown.handlers w _ (OwnInv.finalizing_worker hp)).2
  | takePooled | takeNew | lockFailed | fill | enqueue | enqueued | refused | acceptorDone | pool
  | startTask | parsed | parseError | handled | taskReturn => exact h.keep rfl rfl fun _ => id

end OpenInv

/-! ## Runs -/

structure ConversationInv (s : ServerState) (L : List DataAddr) : Prop where
  own : OwnInv s L
  io : IoInv s
  trace : TraceInv s
  opened : OpenInv s

theorem conversationInv_initial (h₀ : Initial s) : ConversationInv s [] := by
  have hown := ownInv_initial h₀
  have hio := ioInv_initial h₀
  obtain ⟨n, q, timeout, pool, hpool, rfl⟩ := h₀
  refine ⟨hown, hio, ⟨?_, ?_, ?_, ?_⟩, ⟨?_, ?_, ?_⟩⟩
  · intro e he
    exact absurd (hown.conn_lt he) (Nat.not_lt_zero _)
  · intro c hc
    cases hc
  · intro p c t pc hp
    cases p with
    | acceptor | worker w => cases hp
  · intro c hc
    exact absurd hc (Nat.not_lt_zero c)
  · intro fd c hfd
    cases hfd
  · intro fd fd' c hfd
    cases hfd
  · intro fd c hfd
    cases hfd

theorem conversationInv_reaches {s₀ : ServerState} (h₀ : Initial s₀)
    (h : Reaches step Clean s₀ s) : ∃ L, ConversationInv s L := by
  refine h.invariant (I := fun s => ∃ L, ConversationInv s L)
    ⟨[], conversationInv_initial h₀⟩ ?_
  rintro s a s' ⟨L, hinv⟩ hok hs
  have ht := step_transition hs
  obtain ⟨L', hown⟩ := hinv.own.step hok ht
  exact ⟨L', hown, hinv.io.step hinv.own hok ht, hinv.trace.step hinv.own hinv.io hok ht,
    hinv.opened.step hinv.own hinv.io hok ht⟩

/-- What is begun can come to its end. -/
theorem Answering.exists_whole {l : List IoOp} (h : Answering l) : ∃ l', Whole l' ∧ l <+: l' :=
  ⟨_, ⟨l, h, rfl⟩, List.prefix_append _ _⟩

theorem Unanswered.exists_whole {l : List IoOp} (h : Unanswered l) :
    ∃ l', Whole l' ∧ l <+: l' := by
  obtain ⟨l', hwhole, hl⟩ := h.respond.exists_whole
  exact ⟨l', hwhole, (List.prefix_append l _).trans hl⟩

theorem Stage.Says.exists_whole {st : Stage} {l : List IoOp} (h : st.Says l) :
    ∃ l', Whole l' ∧ l <+: l' := by
  cases st with
  | fresh fd => exact Unanswered.exists_whole h
  | opened => exact Unanswered.exists_whole h
  | responded =>
      rcases h with h | ⟨l', hl', rfl⟩
      · exact h.exists_whole
      · refine ⟨_, ⟨l', hl', rfl⟩, ?_⟩
        rw [List.prefix_append_right_inj]
        exact List.prefix_append [IoOp.shutdown] [IoOp.close]
  | closed => exact ⟨l, h, List.prefix_rfl⟩

/-- **Each connection is one conversation**: input is read, one answer is
written, the connection is shut down and closed, in this order; a connection
that no thread and no queue has any more has come to the end of it, unless it
was closed at once because the task pool could not be locked. -/
theorem answered_in_order {s₀ : ServerState} (h₀ : Initial s₀) (h : Reaches step Clean s₀ s)
    {c : ConnId} (hc : c < s.connections) :
    ∃ l, Settled l ∧ trace c s.history <+: l ∧ (¬ s.InHand c → trace c s.history = l) := by
  obtain ⟨L, hinv⟩ := conversationInv_reaches h₀ h
  by_cases hhand : s.InHand c
  · have hwhole : ∃ l, Whole l ∧ trace c s.history <+: l := by
      rcases hhand with hbare | ⟨e, he, rfl⟩
      · rw [hinv.trace.bare c hbare]
        exact Unanswered.nil.exists_whole
      · exact (hinv.trace.entries e he).exists_whole
    obtain ⟨l, hl, hle⟩ := hwhole
    exact ⟨l, .inl hl, hle, fun hn => absurd hhand hn⟩
  · exact ⟨_, hinv.trace.ended c hc hhand, List.prefix_rfl, fun _ => rfl⟩

/-- Two connections, the second accepted while the first is being answered. -/
def overlappingRun : List Action :=
  [.accept 3, .lock true, .acceptor, .enqueue true, .pool (.post 0), .pool (.worker 0),
    .pool (.worker 0), .startTask 0, .read 0, .parsed 0 false, .finalize (.worker 0) true,
    .finalize (.worker 0) false, .finalize (.worker 0) true, .finalize (.worker 0) true,
    .finalize (.worker 0) true, .taskReturn 0, .pool (.worker 0), .pool (.worker 0),
    .pool (.wait 0 .posted), .pool (.settle 0), .acceptor, .accept 3, .lock true]

theorem answered_in_order_overlappingRun :
    ∃ s, Reaches step Clean smallServer s ∧ s.connections = 2
      ∧ ∃ l, Settled l ∧ trace 0 s.history <+: l
        ∧ (¬ s.InHand 0 → trace 0 s.history = l) := by
  let hrun : (run step Clean overlappingRun smallServer).isSome := by decide
  exact ⟨_, reaches_get hrun, rfl,
    answered_in_order smallServer_initial (reaches_get hrun) (by decide)⟩

/-- **No descriptor is lost**: a connection's descriptor is open as long as
the connection has not been closed, one descriptor for each, and only for
connections that a thread or the queue still has. -/
theorem open_iff_unclosed {s₀ : ServerState} (h₀ : Initial s₀)
    (h : Reaches step Clean s₀ s) :
    (∀ c, (∃ fd, s.descriptors fd = some c)
      ↔ c < s.connections ∧ IoOp.close ∉ trace c s.history)
      ∧ (∀ fd fd' c, s.descriptors fd = some c → s.descriptors fd' = some c → fd' = fd)
      ∧ ∀ fd c, s.descriptors fd = some c → s.InHand c := by
  obtain ⟨L, hinv⟩ := conversationInv_reaches h₀ h
  have hwhole : ∀ l, Whole l → IoOp.close ∈ l := by
    rintro l ⟨l', -, rfl⟩
    simp
  have hended : ∀ l, Settled l → IoOp.close ∈ l := by
    rintro l (hl | rfl)
    · exact hwhole l hl
    · exact List.mem_singleton.mpr rfl
  have hhand : ∀ c < s.connections, IoOp.close ∉ trace c s.history → s.InHand c := by
    intro c hc hclose
    by_contra hn
    exact hclose (hended _ (hinv.trace.ended c hc hn))
  refine ⟨fun c => ⟨?_, ?_⟩, hinv.opened.one, ?_⟩
  · rintro ⟨fd, hfd⟩
    exact ⟨hinv.opened.known fd c hfd, hinv.opened.unclosed fd c hfd⟩
  · rintro ⟨hc, hclose⟩
    rcases hhand c hc hclose with hbare | ⟨e, he, rfl⟩
    · obtain ⟨fd, hfd⟩ : ∃ fd, s.bareSocket = some (c, fd) := by
        cases hacc : s.acceptor <;> simp_all [ServerState.bareSocket, ServerState.bare]
      exact ⟨fd, (hinv.io.bare c fd hfd).descriptor⟩
    · have hok := hinv.io.entries e he
      have hstands := hinv.trace.entries e he
      obtain ⟨c, t, stage⟩ := e
      cases stage with
      | fresh fd => exact ⟨fd, Untouched.descriptor hok⟩
      | opened =>
          obtain ⟨⟨fd, hatt⟩, -⟩ := hok
          exact ⟨fd, hatt.descriptor⟩
      | responded =>
          obtain ⟨fd, hatt⟩ := hok
          exact ⟨fd, hatt.descriptor⟩
      | closed => exact absurd (hwhole _ hstands) hclose
  · intro fd c hfd
    exact hhand c (hinv.opened.known fd c hfd) (hinv.opened.unclosed fd c hfd)

theorem open_iff_unclosed_overlappingRun :
    ∃ s, Reaches step Clean smallServer s ∧ s.descriptors 3 = some 1
      ∧ (∀ c, (∃ fd, s.descriptors fd = some c)
        ↔ c < s.connections ∧ IoOp.close ∉ trace c s.history)
      ∧ (∀ fd fd' c, s.descriptors fd = some c → s.descriptors fd' = some c → fd' = fd)
      ∧ ∀ fd c, s.descriptors fd = some c → s.InHand c := by
  let hrun : (run step Clean overlappingRun smallServer).isSome := by decide
  exact ⟨_, reaches_get hrun, rfl, open_iff_unclosed smallServer_initial (reaches_get hrun)⟩

end CWebServer.HttpServer
