import CWebServer.HttpServer.TaskPool

/-!
# HttpServer — Connections

What is done to the descriptors. A connection is answered once and closed
once, and what is read, written or closed for it is its own descriptor: its
record says which, and until `stream_dealloc` closes it the kernel gives the
number to nobody else.
-/

namespace CWebServer.HttpServer

open CWebServer.Lib CWebServer.Runs CWebServer.WorkerThreadPool

/-- How often `op` was done for the connection `c`. -/
def ops (op : IoOp) (c : ConnId) (h : List Io) : Nat :=
  h.countP fun e => decide (e.op = op ∧ e.conn = c)

/-- Each connection is finalized at most once and closed at most once, and
nothing is done to the descriptor of another. -/
structure Isolated (h : List Io) : Prop where
  responses : ∀ c, ops .respond c h ≤ 1
  closes : ∀ c, ops .close c h ≤ 1
  own : ∀ e ∈ h, e.owner = some e.conn

variable {s s' : ServerState} {L : List DataAddr}

theorem ops_snoc (op : IoOp) (c : ConnId) (h : List Io) (e : Io) :
    ops op c (h ++ [e]) = ops op c h + if e.op = op ∧ e.conn = c then 1 else 0 := by
  simp [ops, List.countP_append, List.countP_singleton]

theorem ops_snoc_of_ne {op : IoOp} {c : ConnId} {h : List Io} {e : Io}
    (hne : ¬ (e.op = op ∧ e.conn = c)) : ops op c (h ++ [e]) = ops op c h := by
  rw [ops_snoc, if_neg hne, Nat.add_zero]

/-- Nothing is done for a connection that has not been accepted. -/
theorem ops_eq_zero {op : IoOp} {c : ConnId} {h : List Io} (hc : ∀ e ∈ h, e.conn ≠ c) :
    ops op c h = 0 := by
  apply List.countP_eq_zero.mpr
  intro e he
  simp [hc e he]

theorem Isolated.nil : Isolated [] :=
  ⟨fun _ => Nat.zero_le _, fun _ => Nat.zero_le _, by simp⟩

/-- A call on the connection's own descriptor; a response or a close is its
first. -/
theorem Isolated.snoc {h : List Io} (hiso : Isolated h) {op : IoOp} {c : ConnId} {fd : Fd}
    (hfirst : op = .respond ∨ op = .close → ops op c h = 0) :
    Isolated (h ++ [⟨op, c, fd, some c⟩]) := by
  have hcount : ∀ op', op' = .respond ∨ op' = .close → (∀ c', ops op' c' h ≤ 1) →
      ∀ c', ops op' c' (h ++ [⟨op, c, fd, some c⟩]) ≤ 1 := by
    intro op' hop hle c'
    rw [ops_snoc]
    split
    · rename_i heq
      obtain ⟨rfl, rfl⟩ := heq
      exact Nat.le_of_eq (congrArg (· + 1) (hfirst hop))
    · exact hle c'
  refine ⟨hcount _ (.inl rfl) hiso.responses, hcount _ (.inr rfl) hiso.closes, ?_⟩
  intro e he
  rcases List.mem_append.mp he with he | he
  · exact hiso.own e he
  · rw [List.mem_singleton.mp he]

/-! ## What a connection has done so far -/

def HttpServerTaskData.sockets (x : HttpServerTaskData) : Fd × FileDescriptorStream :=
  (x.socket, x.socketStream)

/-- The descriptor is open and nothing is answered or closed. -/
structure Untouched (s : ServerState) (c : ConnId) (fd : Fd) : Prop where
  descriptor : s.descriptors fd = some c
  responses : ops .respond c s.history = 0
  closes : ops .close c s.history = 0

/-- The record has the connection's descriptor, which is open. -/
structure Attached (s : ServerState) (c : ConnId) (t : DataAddr) (fd : Fd) : Prop where
  sockets : (s.records t).sockets = (fd, ⟨fd, true⟩)
  descriptor : s.descriptors fd = some c
  closes : ops .close c s.history = 0

theorem Attached.socket {c : ConnId} {t : DataAddr} {fd : Fd} (h : Attached s c t fd) :
    (s.records t).socket = fd :=
  congrArg (·.1) h.sockets

theorem Attached.stream {c : ConnId} {t : DataAddr} {fd : Fd} (h : Attached s c t fd) :
    (s.records t).socketStream.fileDescriptor = fd :=
  congrArg (·.2.fileDescriptor) h.sockets

def Holding.Ok (s : ServerState) (e : Holding) : Prop :=
  match e.stage with
  | .fresh fd => Untouched s e.conn fd
  | .opened => (∃ fd, Attached s e.conn e.data fd) ∧ ops .respond e.conn s.history = 0
  | .responded => ∃ fd, Attached s e.conn e.data fd
  | .closed => True

/-- Nothing else matters to a holding. -/
theorem Holding.Ok.congr {e : Holding} (h : e.Ok s)
    (hsockets : (s'.records e.data).sockets = (s.records e.data).sockets)
    (hhist : s'.history = s.history) (hdesc : s'.descriptors = s.descriptors) : e.Ok s' := by
  obtain ⟨c, t, stage⟩ := e
  have hattached : ∀ fd, Attached s c t fd → Attached s' c t fd := by
    rintro fd ⟨hs, hfd, hclose⟩
    exact ⟨hsockets.trans hs, hdesc ▸ hfd, hhist ▸ hclose⟩
  cases stage with
  | fresh fd =>
      obtain ⟨hfd, hresp, hclose⟩ := h
      exact ⟨hdesc ▸ hfd, hhist ▸ hresp, hhist ▸ hclose⟩
  | opened =>
      obtain ⟨⟨fd, hfd⟩, hresp⟩ := h
      exact ⟨⟨fd, hattached fd hfd⟩, hhist ▸ hresp⟩
  | responded =>
      obtain ⟨fd, hfd⟩ := h
      exact ⟨fd, hattached fd hfd⟩
  | closed => trivial

/-- The bare connection and its descriptor. -/
def ServerState.bareSocket (s : ServerState) : Option (ConnId × Fd) :=
  match s.acceptor with
  | .accepted c fd | .lockFailed c fd => some (c, fd)
  | _ => none

theorem mem_bare {c : ConnId} {fd : Fd} (h : s.bareSocket = some (c, fd)) : c ∈ s.bare := by
  cases hacc : s.acceptor <;> simp_all [ServerState.bareSocket, ServerState.bare]

/-- A step made for the connection `c`: the others' records and descriptors
stay, and nothing is done for them. -/
structure Frame (s s' : ServerState) (c : ConnId) : Prop where
  sockets : ∀ e ∈ s.owners, e.conn ≠ c →
    (s'.records e.data).sockets = (s.records e.data).sockets
  descriptors : ∀ fd c', c' ≠ c → s.descriptors fd = some c' → s'.descriptors fd = some c'
  ops : ∀ op c', c' ≠ c → ops op c' s'.history = ops op c' s.history

namespace Frame

variable {c : ConnId}

theorem untouched (hf : Frame s s' c) {c' : ConnId} {fd : Fd} (hne : c' ≠ c)
    (h : Untouched s c' fd) : Untouched s' c' fd := by
  refine ⟨hf.descriptors fd c' hne h.descriptor, ?_, ?_⟩
  · rw [hf.ops _ c' hne]
    exact h.responses
  · rw [hf.ops _ c' hne]
    exact h.closes

theorem attached (hf : Frame s s' c) {e : Holding} {fd : Fd} (he : e ∈ s.owners)
    (hne : e.conn ≠ c) (h : Attached s e.conn e.data fd) : Attached s' e.conn e.data fd := by
  refine ⟨?_, hf.descriptors fd e.conn hne h.descriptor, ?_⟩
  · rw [hf.sockets e he hne]
    exact h.sockets
  · rw [hf.ops _ e.conn hne]
    exact h.closes

/-- **The other holdings are as good as before.** -/
theorem ok (hf : Frame s s' c) {e : Holding} (he : e ∈ s.owners) (hne : e.conn ≠ c)
    (h : e.Ok s) : e.Ok s' := by
  obtain ⟨c', t, stage⟩ := e
  cases stage with
  | fresh fd => exact hf.untouched hne h
  | opened =>
      obtain ⟨⟨fd, hfd⟩, hresp⟩ := h
      refine ⟨⟨fd, hf.attached he hne hfd⟩, ?_⟩
      rw [hf.ops _ c' hne]
      exact hresp
  | responded =>
      obtain ⟨fd, hfd⟩ := h
      exact ⟨fd, hf.attached he hne hfd⟩
  | closed => trivial

/-- A call on the connection's own descriptor. -/
theorem io (s : ServerState) (op : IoOp) (c : ConnId) (fd : Fd) : Frame s (s.io op c fd) c := by
  refine ⟨fun _ _ _ => rfl, fun _ _ _ h => h, ?_⟩
  intro op' c' hne
  exact ops_snoc_of_ne fun h => hne h.2.symm

theorem closeFd {fd : Fd} (hfd : s.descriptors fd = some c) : Frame s (s.closeFd c fd) c := by
  refine ⟨fun _ _ _ => rfl, ?_, ?_⟩
  · intro fd' c' hne h
    have hfds : fd' ≠ fd := by
      rintro rfl
      rw [hfd, Option.some.injEq] at h
      exact hne h.symm
    exact (Function.update_of_ne hfds _ _).trans h
  · intro op' c' hne
    exact ops_snoc_of_ne fun h => hne h.2.symm

end Frame

/-! ## The invariant -/

structure IoInv (s : ServerState) : Prop where
  entries : ∀ e ∈ s.owners, e.Ok s
  bare : ∀ c fd, s.bareSocket = some (c, fd) → Untouched s c fd
  known : ∀ e ∈ s.history, e.conn < s.connections
  isolated : Isolated s.history

namespace IoInv

/-- A step that touches no descriptor and no socket of a record. -/
theorem keep (h : IoInv s) (howners : ∀ e ∈ s'.owners, e ∈ s.owners)
    (hsockets : ∀ t, (s'.records t).sockets = (s.records t).sockets)
    (hio : (s'.history, s'.descriptors, s'.connections)
      = (s.history, s.descriptors, s.connections))
    (hbare : ∀ x, s'.bareSocket = some x → s.bareSocket = some x) : IoInv s' := by
  simp only [Prod.mk.injEq] at hio
  obtain ⟨hhist, hdesc, hconns⟩ := hio
  refine ⟨?_, ?_, ?_, ?_⟩
  · intro e he
    exact (h.entries e (howners e he)).congr (hsockets e.data) hhist hdesc
  · intro c fd hb
    obtain ⟨hfd, hresp, hclose⟩ := h.bare c fd (hbare _ hb)
    exact ⟨hdesc ▸ hfd, hhist ▸ hresp, hhist ▸ hclose⟩
  · rw [hhist, hconns]
    exact h.known
  · rw [hhist]
    exact h.isolated

/-- A step made for the connection `c`. -/
theorem move (h : IoInv s) {c : ConnId} (hf : Frame s s' c)
    (hentries : ∀ e ∈ s'.owners, (e ∈ s.owners ∧ e.conn ≠ c) ∨ e.Ok s')
    (hbare : ∀ c' fd, s'.bareSocket = some (c', fd) →
      (s.bareSocket = some (c', fd) ∧ c' ≠ c) ∨ Untouched s' c' fd)
    (hknown : ∀ e ∈ s'.history, e.conn < s'.connections) (hiso : Isolated s'.history) :
    IoInv s' := by
  refine ⟨?_, ?_, hknown, hiso⟩
  · intro e he
    rcases hentries e he with ⟨hs, hne⟩ | hok
    · exact hf.ok hs hne (h.entries e hs)
    · exact hok
  · intro c' fd hb
    rcases hbare c' fd hb with ⟨hs, hne⟩ | hok
    · exact hf.untouched hne (h.bare c' fd hs)
    · exact hok

theorem known_snoc (h : IoInv s) {op : IoOp} {c : ConnId} {fd : Fd} {o : Option ConnId}
    (hc : c < s.connections) :
    ∀ e ∈ s.history ++ [⟨op, c, fd, o⟩], e.conn < s.connections := by
  intro e he
  rcases List.mem_append.mp he with he | he
  · exact h.known e he
  · rw [List.mem_singleton.mp he]
    exact hc

theorem accept_step (h : IoInv s) (hown : OwnInv s L) {fd : Fd} (hidle : s.acceptor = .idle)
    (hfree : s.descriptors fd = none) :
    IoInv { s with
      acceptor := .accepted s.connections fd
      descriptors := Function.update s.descriptors fd (some s.connections)
      connections := s.connections + 1 } := by
  let s' : ServerState := { s with
    acceptor := .accepted s.connections fd
    descriptors := Function.update s.descriptors fd (some s.connections)
    connections := s.connections + 1 }
  have howners : s'.owners = s.owners := by
    simp only [ServerState.owners, ServerState.acceptorHolding, hidle, s']
    rfl
  have hf : Frame s s' s.connections := by
    refine ⟨fun _ _ _ => rfl, ?_, fun _ _ _ => rfl⟩
    intro fd' c' _ hfd'
    have hne : fd' ≠ fd := by
      rintro rfl
      rw [hfree] at hfd'
      cases hfd'
    exact (Function.update_of_ne hne _ _).trans hfd'
  -- nothing has been done for a connection with a new number
  have hnone : ∀ op, ops op s.connections s.history = 0 := fun op =>
    ops_eq_zero fun e he => Nat.ne_of_lt (h.known e he)
  refine h.move hf ?_ ?_ ?_ h.isolated
  · intro e he
    rw [howners] at he
    exact .inl ⟨he, Nat.ne_of_lt (hown.conn_lt he)⟩
  · intro c' fd' hb
    cases hb
    exact .inr ⟨Function.update_self _ _ _, hnone _, hnone _⟩
  · intro e he
    exact Nat.lt_succ_of_lt (h.known e he)

/-- The acceptor gets a record. -/
theorem take_step (h : IoInv s) (hown : OwnInv s L) {c : ConnId} {fd : Fd} {t : DataAddr}
    (hacc : s.acceptor = .accepted c fd) (hacc' : s'.acceptor = .taken c fd t)
    (hpool : s'.pool = s.pool) (hhand : s'.handlers = s.handlers)
    (hsockets : ∀ e ∈ s.owners, (s'.records e.data).sockets = (s.records e.data).sockets)
    (hio : (s'.history, s'.descriptors, s'.connections)
      = (s.history, s.descriptors, s.connections)) : IoInv s' := by
  simp only [Prod.mk.injEq] at hio
  obtain ⟨hhist, hdesc, hconns⟩ := hio
  have hb : s.bareSocket = some (c, fd) := by simp only [ServerState.bareSocket, hacc]
  have hapart := (hown.bare_apart (mem_bare hb)).2
  have hf : Frame s s' c := by
    refine ⟨fun e he _ => hsockets e he, ?_, ?_⟩
    · intro fd' c' _ hfd'
      rw [hdesc]
      exact hfd'
    · intro op c' _
      rw [hhist]
  refine h.move hf ?_ ?_ ?_ (hhist ▸ h.isolated)
  · intro e he
    rw [OwnInv.owners_take hacc hpool hhand hacc', List.mem_cons] at he
    rcases he with rfl | he
    · obtain ⟨hfd, hresp, hclose⟩ := h.bare c fd hb
      exact .inr ⟨hdesc ▸ hfd, hhist ▸ hresp, hhist ▸ hclose⟩
    · exact .inl ⟨he, hapart e he⟩
  · intro c' fd' hb'
    simp only [ServerState.bareSocket, hacc'] at hb'
    cases hb'
  · rw [hhist, hconns]
    exact h.known

/-- The acceptor closes a connection it has no record for. -/
theorem closeSocket_step (h : IoInv s) (hown : OwnInv s L) {c : ConnId} {fd : Fd}
    (hacc : s.acceptor = .lockFailed c fd) : IoInv { s.closeFd c fd with acceptor := .idle } := by
  have hb : s.bareSocket = some (c, fd) := by simp only [ServerState.bareSocket, hacc]
  obtain ⟨hlt, hapart⟩ := hown.bare_apart (mem_bare hb)
  obtain ⟨hfd, -, hclose⟩ := h.bare c fd hb
  have hf := Frame.closeFd hfd
  have howners : { s.closeFd c fd with acceptor := .idle }.owners = s.owners := by
    simp only [ServerState.owners, ServerState.acceptorHolding, hacc]
    rfl
  refine h.move (c := c) ⟨hf.sockets, hf.descriptors, hf.ops⟩ ?_
    (fun _ _ hb' => by cases hb') (h.known_snoc hlt) ?_
  · intro e he
    rw [howners] at he
    exact .inl ⟨he, hapart e he⟩
  · show Isolated (s.history ++ [⟨.close, c, fd, s.descriptors fd⟩])
    rw [hfd]
    exact h.isolated.snoc fun _ => hclose

/-- The acceptor fills in the socket. -/
theorem fill_step (h : IoInv s) (hown : OwnInv s L) {c : ConnId} {fd : Fd} {t : DataAddr}
    (hacc : s.acceptor = .taken c fd t) :
    IoInv { s.setRecord t { s.records t with socket := fd, socketStream := ⟨fd, true⟩ } with
      acceptor := .filled c t } := by
  let s' : ServerState :=
    { s.setRecord t { s.records t with socket := fd, socketStream := ⟨fd, true⟩ } with
      acceptor := .filled c t }
  have hbefore : s.owners = ⟨c, t, .fresh fd⟩ :: s.poolHolding := by
    simp only [ServerState.owners, ServerState.acceptorHolding, hacc]
    rfl
  have hafter : s'.owners = ⟨c, t, .opened⟩ :: s.poolHolding := rfl
  have hapart : ∀ e ∈ s.poolHolding, e.data ≠ t ∧ e.conn ≠ c := fun e he =>
    hown.apart (e := ⟨c, t, .fresh fd⟩) (by rw [hbefore]) he
  have hf : Frame s s' c := by
    refine ⟨?_, fun _ _ _ hfd => hfd, fun _ _ _ => rfl⟩
    intro e he hne
    rw [hbefore, List.mem_cons] at he
    rcases he with rfl | he
    · exact absurd rfl hne
    · exact congrArg HttpServerTaskData.sockets (Function.update_of_ne (hapart e he).1 _ _)
  obtain ⟨hfd, hresp, hclose⟩ : Untouched s c fd :=
    h.entries ⟨c, t, .fresh fd⟩ (by rw [hbefore]; exact List.mem_cons_self)
  refine h.move hf ?_ (fun _ _ hb => by cases hb) h.known h.isolated
  intro e he
  rw [hafter, List.mem_cons] at he
  rcases he with rfl | he
  · have hsockets : (s'.records t).sockets = (fd, ⟨fd, true⟩) :=
      congrArg HttpServerTaskData.sockets (Function.update_self t _ s.records)
    exact .inr ⟨⟨fd, hsockets, hfd, hclose⟩, hresp⟩
  · refine .inl ⟨?_, (hapart e he).2⟩
    rw [hbefore]
    exact List.mem_cons_of_mem _ he

/-- A handler reads from the connection's stream. -/
theorem read_step (h : IoInv s) (hown : OwnInv s L) {w : Nat} {c : ConnId} {t : DataAddr}
    (hw : s.handlers w = some ⟨c, t, .parse⟩) :
    IoInv (s.io .read c (s.records t).socketStream.fileDescriptor) := by
  obtain ⟨R, hperm, -⟩ := hown.owners_handler hw
  have hmem : ⟨c, t, .opened⟩ ∈ s.owners := hperm.mem_iff.mpr List.mem_cons_self
  obtain ⟨⟨fd, hatt⟩, hresp⟩ := h.entries _ hmem
  rw [hatt.stream]
  obtain ⟨hsockets, hfd, hclose⟩ := hatt
  have hnone : ∀ op, op ≠ .read → ops op c (s.io .read c fd).history = ops op c s.history :=
    fun op hop => ops_snoc_of_ne fun he => hop he.1.symm
  refine h.move (.io s .read c fd) ?_ ?_
    (h.known_snoc (hown.conn_lt hmem)) ?_
  · intro e he
    rcases List.mem_cons.mp (hperm.mem_iff.mp he) with rfl | he'
    · refine .inr ⟨⟨fd, hsockets, hfd, ?_⟩, ?_⟩
      · rw [hnone .close (by simp)]
        exact hclose
      · rw [hnone .respond (by simp)]
        exact hresp
    · exact .inl ⟨he, (hown.apart hperm he').2⟩
  · intro c' fd' hb
    exact .inl ⟨hb, fun he => (hown.bare_apart (mem_bare hb)).2 _ hmem he.symm⟩
  · show Isolated (s.history ++ [⟨.read, c, fd, s.descriptors fd⟩])
    rw [hfd]
    exact h.isolated.snoc (by simp)

/-- A handler goes on and writes to the response only. -/
theorem handler_step (h : IoInv s) (hown : OwnInv s L) {w : Nat} {x y : Handler}
    (hw : s.handlers w = some x) {status : Nat} (hholding : y.holding = x.holding) :
    IoInv ((s.setRecord x.data { s.records x.data with statusCode := status }).setHandler w
      (some y)) := by
  have hperm := hown.perm_handler hw status hholding
  exact h.keep (fun _ => hperm.mem_iff.mp) (setRecord_field HttpServerTaskData.sockets rfl) rfl
    fun _ => id

/-! ## Finalization -/

/-- A step of `http_server_finalize_task` that leaves its own connection in
order. -/
theorem finalize (h : IoInv s) (hown : OwnInv s L) {p : Party} {c : ConnId} {t : DataAddr}
    {pc pc' : FinalizePc} (hp : s.finalizing p = some (c, t, pc)) (howns : pc.owns = true)
    {s₁ : ServerState} (hf : Frame s s₁ c) (hpool : s₁.pool = s.pool)
    (hacc : s₁.acceptor = s.acceptor) (hhand : s₁.handlers = s.handlers)
    (hnew : ∀ e ∈ pc'.holding c t, e.Ok s₁)
    (hknown : ∀ e ∈ s₁.history, e.conn < s₁.connections) (hiso : Isolated s₁.history) :
    IoInv (s₁.setFinalize p c t pc') := by
  obtain ⟨R, hbefore, hafter⟩ := hown.owners_finalizing hp
  have hafter := hafter s₁ pc' hpool hacc hhand
  obtain ⟨stage, hst⟩ : ∃ stage, ⟨c, t, stage⟩ ∈ pc.holding c t :=
    mem_finalizeHolding.mpr ⟨howns, rfl, rfl⟩
  have hone : pc.holding c t = [⟨c, t, stage⟩] := by
    cases pc <;> simp_all [FinalizePc.holding, FinalizePc.stage]
  rw [hone] at hbefore
  have hmem : ⟨c, t, stage⟩ ∈ s.owners := hbefore.mem_iff.mpr List.mem_cons_self
  -- the party's own place is no part of what `Ok` and `Frame` look at
  obtain ⟨hrec, hdesc, hhist, hconns⟩ : (s₁.setFinalize p c t pc').records = s₁.records
      ∧ (s₁.setFinalize p c t pc').descriptors = s₁.descriptors
      ∧ (s₁.setFinalize p c t pc').history = s₁.history
      ∧ (s₁.setFinalize p c t pc').connections = s₁.connections := by
    cases p <;> exact ⟨rfl, rfl, rfl, rfl⟩
  have hok : ∀ e : Holding, e.Ok s₁ → e.Ok (s₁.setFinalize p c t pc') := by
    intro e he
    exact he.congr (by rw [hrec]) hhist hdesc
  have hf' : Frame s (s₁.setFinalize p c t pc') c :=
    ⟨by rw [hrec]; exact hf.sockets, by rw [hdesc]; exact hf.descriptors,
      by rw [hhist]; exact hf.ops⟩
  refine h.move hf' ?_ ?_ ?_ (hhist ▸ hiso)
  · intro e he
    rcases List.mem_append.mp (hafter.mem_iff.mp he) with he | he
    · exact .inr (hok e (hnew e he))
    · exact .inl ⟨hbefore.mem_iff.mpr (List.mem_cons_of_mem _ he), (hown.apart hbefore he).2⟩
  · intro c' fd hb
    cases p with
    | acceptor => cases hb
    | worker w =>
        have hb : s.bareSocket = some (c', fd) := by
          rw [← hb]
          simp only [ServerState.bareSocket, ServerState.setFinalize, ServerState.setHandler, hacc]
        exact .inl ⟨hb, fun he => (hown.bare_apart (mem_bare hb)).2 _ hmem he.symm⟩
  · rw [hhist, hconns]
    exact hknown

/-- The connection's record until its descriptor is closed. -/
theorem attached (h : IoInv s) (hown : OwnInv s L) {p : Party} {c : ConnId} {t : DataAddr}
    {pc : FinalizePc} (hp : s.finalizing p = some (c, t, pc))
    (hpc : pc.stage = some .opened ∨ pc.stage = some .responded) :
    c < s.connections ∧ (∃ fd, Attached s c t fd)
      ∧ (pc.stage = some .opened → ops .respond c s.history = 0) := by
  obtain ⟨R, hperm, -⟩ := hown.owners_finalizing hp
  have hmem : ∀ stage, pc.stage = some stage → ⟨c, t, stage⟩ ∈ s.owners := by
    intro stage hstage
    rw [hperm.mem_iff, FinalizePc.holding, hstage]
    exact List.mem_cons_self
  rcases hpc with hstage | hstage
  · obtain ⟨hatt, hresp⟩ := h.entries _ (hmem _ hstage)
    exact ⟨hown.conn_lt (hmem _ hstage), hatt, fun _ => hresp⟩
  · refine ⟨hown.conn_lt (hmem _ hstage), h.entries _ (hmem _ hstage), ?_⟩
    intro ho
    rw [hstage] at ho
    cases ho

/-- A call on the connection's own descriptor that leaves it open. -/
theorem finalize_io (h : IoInv s) (hown : OwnInv s L) {p : Party} {c : ConnId} {t : DataAddr}
    {pc pc' : FinalizePc} (hp : s.finalizing p = some (c, t, pc)) {op : IoOp} {fd : Fd}
    (hatt : Attached s c t fd) (hlt : c < s.connections) (howns : pc.owns = true)
    (hpc' : pc'.stage = some .responded) (hop : op ≠ .close)
    (hfirst : op = .respond → ops .respond c s.history = 0) :
    IoInv ((s.io op c fd).setFinalize p c t pc') := by
  obtain ⟨hsockets, hfd, hclose⟩ := hatt
  refine h.finalize hown hp howns (.io s op c fd) rfl rfl rfl ?_ (h.known_snoc hlt) ?_
  · intro e he
    rw [FinalizePc.holding, hpc'] at he
    rw [List.mem_singleton.mp he]
    refine ⟨fd, hsockets, hfd, ?_⟩
    rw [← hclose]
    exact ops_snoc_of_ne fun he => hop he.1
  · show Isolated (s.history ++ [⟨op, c, fd, s.descriptors fd⟩])
    rw [hfd]
    apply h.isolated.snoc
    intro ho
    rcases ho with rfl | rfl
    · exact hfirst rfl
    · exact absurd rfl hop

theorem finalize_step (h : IoInv s) (hown : OwnInv s L) {p : Party} {c : ConnId} {t : DataAddr}
    {pc pc' : FinalizePc} {ok : Bool} {s₁ : ServerState}
    (hp : s.finalizing p = some (c, t, pc)) (hok : pc = .lock → ok = true)
    (hclose : pc ≠ .close) (hfin : Finalizes s c t ok pc s₁ pc') :
    IoInv (s₁.setFinalize p c t pc') := by
  cases hfin with
  | respond =>
      obtain ⟨hlt, ⟨fd, hatt⟩, hresp⟩ := h.attached hown hp (.inl rfl)
      rw [hatt.stream]
      exact h.finalize_io hown hp hatt hlt rfl rfl (by simp) fun _ => hresp rfl
  | more =>
      obtain ⟨hlt, ⟨fd, hatt⟩, -⟩ := h.attached hown hp (.inr rfl)
      rw [hatt.stream]
      exact h.finalize_io hown hp hatt hlt rfl rfl (by simp) (by simp)
  | enough =>
      obtain ⟨-, hatt, -⟩ := h.attached hown hp (.inr rfl)
      refine h.finalize hown hp rfl ⟨fun _ _ _ => rfl, fun _ _ _ hfd => hfd, fun _ _ _ => rfl⟩
        rfl rfl rfl ?_ h.known h.isolated
      intro e he
      rw [List.mem_singleton.mp he]
      exact hatt
  | shutdown =>
      obtain ⟨hlt, ⟨fd, hatt⟩, -⟩ := h.attached hown hp (.inr rfl)
      rw [hatt.socket]
      exact h.finalize_io hown hp hatt hlt rfl rfl (by simp) (by simp)
  | dealloc =>
      obtain ⟨hlt, ⟨fd, hatt⟩, -⟩ := h.attached hown hp (.inr rfl)
      rw [hatt.stream]
      refine h.finalize hown hp rfl (.closeFd hatt.descriptor) rfl rfl rfl ?_
        (h.known_snoc hlt) ?_
      · intro e he
        rw [List.mem_singleton.mp he]
        trivial
      · show Isolated (s.history ++ [⟨.close, c, fd, s.descriptors fd⟩])
        rw [hatt.descriptor]
        exact h.isolated.snoc fun _ => hatt.closes
  | keep hshould =>
      -- the record's stream closes its descriptor
      obtain ⟨-, ⟨fd, hatt⟩, -⟩ := h.attached hown hp (.inr rfl)
      have hstream := congrArg (·.2.shouldClose) hatt.sockets
      rw [show (s.records t).sockets.2.shouldClose = false from hshould] at hstream
      cases hstream
  | push =>
      refine h.finalize hown hp rfl ⟨?_, fun _ _ _ hfd => hfd, fun _ _ _ => rfl⟩
        rfl rfl rfl ?_ h.known h.isolated
      · intro e _ _
        show (Function.update s.records t _ e.data).sockets = _
        by_cases htt : e.data = t
        · rw [htt, Function.update_self]
          rfl
        · rw [Function.update_of_ne htt]
      · intro e he
        cases he
  | lockFailed => cases hok rfl
  | close => exact absurd rfl hclose

/-- **The step lemma.** -/
theorem step (h : IoInv s) (hown : OwnInv s L) {a : Action} (hok : Clean s a)
    (ht : Transition s a s') : IoInv s' := by
  cases ht with
  | accept hidle hfree => exact h.accept_step hown hidle hfree
  | takePooled hacc hpool => exact h.take_step hown hacc rfl rfl rfl (fun _ _ => rfl) rfl
  | takeNew hacc hpool =>
      refine h.take_step hown hacc rfl rfl rfl ?_ rfl
      intro e he
      have hne : e.data ≠ s.allocated := fun heq => by
        have hpos := List.count_pos_iff.mpr (List.mem_map.mpr ⟨e, he, heq⟩)
        rw [hown.allocated_free.2] at hpos
        exact Nat.lt_irrefl 0 hpos
      exact congrArg HttpServerTaskData.sockets (Function.update_of_ne hne _ _)
  | @lockFailed c fd hacc =>
      have howners : { s with acceptor := .lockFailed c fd }.owners = s.owners := by
        simp only [ServerState.owners, ServerState.acceptorHolding, hacc]
        rfl
      apply h.keep (fun e he => howners ▸ he) (fun _ => rfl) rfl
      intro x hx
      simp only [ServerState.bareSocket, hacc]
      exact hx
  | closeSocket hacc => exact h.closeSocket_step hown hacc
  | fill hacc => exact h.fill_step hown hacc
  | enqueue hacc hpool =>
      have hperm := owners_enqueue hown.pool hacc hpool
      exact h.keep (fun _ => hperm.mem_iff.mp) (fun _ => rfl) rfl fun _ hx => by cases hx
  | @enqueued c t hacc hret =>
      have hnone := hown.acceptorHolding_enqueued hacc hret
      have howners : { s with acceptor := .idle }.owners = s.owners := by
        rw [ServerState.owners, ServerState.owners, hnone]
        rfl
      exact h.keep (fun e he => howners ▸ he) (fun _ => rfl) rfl fun _ hx => by cases hx
  | @refused c t e status hacc hret he =>
      have howners := hown.owners_refused status hacc hret he
      exact h.keep (fun e he => howners ▸ he) (setRecord_field HttpServerTaskData.sockets rfl) rfl
        fun _ hx => by cases hx
  | @acceptorDone c t hacc =>
      have howners : { s with acceptor := .idle }.owners = s.owners := by
        simp only [ServerState.owners, ServerState.acceptorHolding, hacc]
        rfl
      exact h.keep (fun e he => howners ▸ he) (fun _ => rfl) rfl fun _ hx => by cases hx
  | pool honly hpool =>
      have hperm := hown.perm_pool honly hpool
      exact h.keep (fun _ => hperm.mem_iff.mp) (fun _ => rfl) rfl fun _ => id
  | startTask hw hx hdata hpool =>
      have hperm := hown.perm_startTask hw hx hdata hpool
      exact h.keep (fun _ => hperm.mem_iff.mp) (fun _ => rfl) rfl fun _ => id
  | read hw => exact h.read_step hown hw
  | parsed hw | parseError hw | handled hw =>
      exact h.handler_step hown hw rfl
  | @finalize p c t pc ok s₁ pc' hp hfin =>
      refine h.finalize_step hown hp (fun hpc => hok c t (hpc ▸ hp)) ?_ hfin
      rintro rfl
      cases p with
      | acceptor => exact absurd (OwnInv.finalizing_acceptor hp) (hown.acceptor c t)
      | worker w => exact absurd rfl (hown.handlers w _ (OwnInv.finalizing_worker hp)).2
  | taskReturn hw hpool =>
      have hperm := hown.perm_taskReturn hw hpool
      exact h.keep (fun _ => hperm.mem_iff.mp) (fun _ => rfl) rfl fun _ => id

end IoInv

/-! ## Runs -/

theorem ioInv_initial (h₀ : Initial s) : IoInv s := by
  have hnone : ∀ t, t ∉ s.owners.map (·.data) := by
    intro t
    obtain ⟨n, q, timeout, pool, hpool, rfl⟩ := h₀
    have hzero := (ownInv_initial ⟨n, q, timeout, pool, hpool, rfl⟩).once t
    rw [if_neg (Nat.not_lt_zero t)] at hzero
    exact List.count_eq_zero.mp (by omega)
  obtain ⟨n, q, timeout, pool, hpool, rfl⟩ := h₀
  refine ⟨?_, ?_, ?_, .nil⟩
  · intro e he
    exact absurd (List.mem_map.mpr ⟨e, he, rfl⟩) (hnone e.data)
  · intro _ _ hb
    cases hb
  · intro _ he
    cases he

/-- **Each connection is answered and closed once, on its own descriptor**, in
a run in which no call gives up a task that is not complete and the task pool
can always be locked to put a record back. -/
theorem isolated_of_clean {s₀ : ServerState} (h₀ : Initial s₀)
    (h : Reaches step Clean s₀ s) :
    Isolated s.history := by
  have hinv : ∃ L, OwnInv s L ∧ IoInv s := by
    refine h.invariant (I := fun s => ∃ L, OwnInv s L ∧ IoInv s)
      ⟨[], ownInv_initial h₀, ioInv_initial h₀⟩ ?_
    rintro s a s' ⟨L, hown, hio⟩ hok hs
    have ht := step_transition hs
    obtain ⟨L', hown'⟩ := hown.step hok ht
    exact ⟨L', hown', hio.step hown hok ht⟩
  obtain ⟨L, -, hio⟩ := hinv
  exact hio.isolated

theorem isolated_of_clean_cleanRun :
    ∃ s, Reaches step Clean smallServer s
      ∧ s.history.map (·.op) = [.read, .respond, .write, .shutdown, .close]
      ∧ Isolated s.history := by
  let hrun : (run step Clean cleanRun smallServer).isSome := by decide
  exact ⟨_, reaches_get hrun, rfl, isolated_of_clean smallServer_initial (reaches_get hrun)⟩

/-- After the timeout the worker gets to the task that is still queued, and
answers the connection a second time, on a descriptor that is not its own. -/
def lateWorkerRun : List Action :=
  timedOutRun ++ [.pool (.worker 0), .pool (.worker 0), .startTask 0, .parsed 0 false,
    .finalize (.worker 0) true]

/-- **After a timeout two responses are written.** -/
theorem not_isolated :
    ¬ ∀ s₀ s, Initial s₀ → Reaches step Always s₀ s → Isolated s.history := by
  intro hall
  have hrun : (run step Always lateWorkerRun smallServer).isSome := by decide
  have hiso := hall _ _ smallServer_initial (reaches_get hrun)
  have htwice : ops .respond 0 ((run step Always lateWorkerRun smallServer).get hrun).history = 2 :=
    rfl
  have hle := hiso.responses 0
  omega

end CWebServer.HttpServer
