import CWebServer.SocketWrapper.Model
import Mathlib.Data.List.Nodup

/-!
# SocketWrapper — Descriptors

What is open, and for whom. The thread waits on a socket that is open; each
connection it accepts is handed on or closed, once, in the order of their
arrival; and the wrapper closes nothing that is not its own. A socket with the
number 0 is taken for none and stays open.
-/

namespace CWebServer.SocketWrapper

open CWebServer.Runs

/-- The connection in the thread's hands, and its descriptor. -/
def ThreadPc.holds : ThreadPc → Option (Nat × Int)
  | .address n fd _ | .drop n fd => some (n, fd)
  | _ => none

def ThreadPc.holding (pc : ThreadPc) : List Nat := pc.holds.toList.map (·.1)

/-- The listening socket is open and the wrapper's. -/
def OwnerPc.listens : OwnerPc → Bool
  | .setsockopt _ | .bind _ | .listen | .setRunning | .createThread | .setThreadIsInit
  | .started | .join | .close => true
  | _ => false

/-- The thread exists and need not have ended. -/
def OwnerPc.hasThread : OwnerPc → Bool
  | .setThreadIsInit | .started | .join => true
  | _ => false

/-- The thread has been joined. -/
def OwnerPc.joined : OwnerPc → Bool
  | .close | .deallocated => true
  | _ => false

/-- There is nothing more to do. -/
def OwnerPc.over : OwnerPc → Bool
  | .initFailed | .deallocated => true
  | _ => false

namespace SocketState

/-- Nothing listens yet, or `socket` has failed. -/
def Unopened (s : SocketState) : Prop :=
  s.opened = none ∧ ∀ fd, s.descriptors fd ≠ some .listening

def Listening (s : SocketState) : Prop :=
  s.opened = some s.wrapper.socket ∧ s.descriptors s.wrapper.socket = some .listening

/-- What is left of the socket. -/
def Left (s : SocketState) : Prop :=
  (∃ fd, s.descriptors fd = some .listening) ↔ s.opened = some 0

/-- The socket, by the owner's place. -/
def SocketSays (s : SocketState) : Prop :=
  match s.owner with
  | .resolve | .info _ | .callback _ | .socket _ => s.Unopened ∧ s.wrapper.socket = 0
  | .cleanup => s.Unopened ∧ (s.wrapper.socket = 0 ∨ s.wrapper.socket = -1) ∨ s.Listening
  | .initFailed | .deallocated => s.Left
  | _ => s.Listening

/-- The thread, by the owner's place. -/
def ThreadSays (s : SocketState) : Prop :=
  if s.owner.hasThread then s.thread ≠ .notStarted
  else if s.owner.joined then s.thread = .exited
  else s.thread = .notStarted

end SocketState

structure SockInv (s : SocketState) : Prop where
  nonneg : ∀ fd f, s.descriptors fd = some f → 0 ≤ fd
  one : ∀ fd fd' f, f ≠ .other → s.descriptors fd = some f →
    s.descriptors fd' = some f → fd' = fd
  socket : s.SocketSays
  thread : s.ThreadSays
  threadIsInit : s.owner = .started ∨ s.owner = .join → s.wrapper.threadIsInit = true
  stopped : s.owner = .join → s.wrapper.running = false
  known : ∀ fd n, s.descriptors fd = some (.connection n) →
    n < s.accepted ∧ Event.dropped n ∉ s.history
  held : ∀ n fd, s.thread.holds = some (n, fd) → s.descriptors fd = some (.connection n)
  order : s.history.map Event.conn ++ s.thread.holding = List.range s.accepted
  own : ∀ f ∈ s.closed, f ≠ some .other ∧ ∀ n, f = some (.connection n) →
    .dropped n ∈ s.history

variable {net : Inet} {s s' : SocketState}

theorem OwnerPc.listens_of_hasThread {o : OwnerPc} (h : o.hasThread = true) : o.listens = true := by
  cases o <;> first | rfl | cases h

theorem SocketState.socketSays_of_listening (ho : s.owner.listens = true) (hl : s.Listening) :
    s.SocketSays := by
  rw [SocketSays]
  cases hs : s.owner <;> rw [hs] at ho <;> first | exact hl | cases ho

namespace SockInv

/-- The listening socket of a wrapper that has one. -/
theorem listening (h : SockInv s) (hl : s.owner.listens = true) : s.Listening := by
  have hsocket := h.socket
  simp only [SocketState.SocketSays] at hsocket
  cases ho : s.owner <;> rw [ho] at hl hsocket <;> first | exact hsocket | cases hl

/-- A step of the owner that opens and closes nothing. -/
theorem owner_keep (h : SockInv s) {w : TcpSocketWrapper} {o : OwnerPc} {t : ThreadPc}
    (hsocket : { s with wrapper := w, owner := o, thread := t }.SocketSays)
    (hthread : { s with wrapper := w, owner := o, thread := t }.ThreadSays)
    (hinit : o = .started ∨ o = .join → w.threadIsInit = true)
    (hstopped : o = .join → w.running = false) (hholds : t.holds = s.thread.holds) :
    SockInv { s with wrapper := w, owner := o, thread := t } :=
  { h with
    socket := hsocket
    thread := hthread
    threadIsInit := hinit
    stopped := hstopped
    held := by
      show ∀ n fd, t.holds = some (n, fd) → s.descriptors fd = some (.connection n)
      rw [hholds]
      exact h.held
    order := by
      show s.history.map Event.conn ++ t.holding = _
      rw [ThreadPc.holding, hholds]
      exact h.order }

/-- `socket` returns a new descriptor. -/
theorem socket_step (h : SockInv s) {addr : Sockaddr} (ho : s.owner = .socket addr) {fd : Int}
    (hfd : s.Fresh fd) :
    SockInv { s.openFd fd .listening with
      wrapper := { s.wrapper with socket := fd }
      opened := some fd
      owner := .setsockopt addr } := by
  obtain ⟨⟨-, hnone⟩, -⟩ : s.Unopened ∧ s.wrapper.socket = 0 := by
    have := h.socket
    rwa [SocketState.SocketSays, ho] at this
  have hthread : s.thread = .notStarted := by
    have := h.thread
    rwa [SocketState.ThreadSays, ho] at this
  have hcases : ∀ fd' f, Function.update s.descriptors fd (some .listening) fd' = some f →
      (fd' = fd ∧ f = .listening) ∨ (s.descriptors fd' = some f ∧ fd' ≠ fd) := by
    intro fd' f hf
    by_cases hne : fd' = fd
    · subst hne
      rw [Function.update_self] at hf
      exact .inl ⟨rfl, (Option.some.inj hf).symm⟩
    · rw [Function.update_of_ne hne] at hf
      exact .inr ⟨hf, hne⟩
  refine ⟨?_, ?_, ⟨rfl, Function.update_self _ _ _⟩, hthread, by simp, by simp, ?_,
    ?_, h.order, h.own⟩
  · intro fd' f hf
    rcases hcases fd' f hf with ⟨rfl, -⟩ | ⟨hold, -⟩
    · exact hfd.1
    · exact h.nonneg fd' f hold
  · intro fd₁ fd₂ f hf h₁ h₂
    rcases hcases fd₁ f h₁ with ⟨hfd₁, hl₁⟩ | ⟨hold₁, -⟩
    · rcases hcases fd₂ f h₂ with ⟨hfd₂, -⟩ | ⟨hold₂, -⟩
      · exact hfd₂.trans hfd₁.symm
      · exact absurd (hl₁ ▸ hold₂) (hnone fd₂)
    · rcases hcases fd₂ f h₂ with ⟨-, hl₂⟩ | ⟨hold₂, -⟩
      · exact absurd (hl₂ ▸ hold₁) (hnone fd₁)
      · exact h.one fd₁ fd₂ f hf hold₁ hold₂
  · intro fd' n hf
    rcases hcases fd' _ hf with ⟨-, hl⟩ | ⟨hold, -⟩
    · cases hl
    · exact h.known fd' n hold
  · intro n fd' hholds
    have hholds : s.thread.holds = some (n, fd') := hholds
    rw [hthread] at hholds
    cases hholds

/-- A step that closes some descriptors and opens none. -/
theorem close_keep (h : SockInv s) {d : Int → Option OpenFile}
    (hd : ∀ fd f, d fd = some f → s.descriptors fd = some f) {c : List (Option OpenFile)}
    {w : TcpSocketWrapper} {o : OwnerPc} {t : ThreadPc} {l : List Event}
    (hsocket : { s with
      descriptors := d, closed := c, wrapper := w,
      owner := o, thread := t, history := l }.SocketSays)
    (hthread : { s with
      descriptors := d, closed := c, wrapper := w,
      owner := o, thread := t, history := l }.ThreadSays)
    (hinit : o = .started ∨ o = .join → w.threadIsInit = true)
    (hstopped : o = .join → w.running = false)
    (hknown : ∀ fd n, d fd = some (.connection n) → Event.dropped n ∉ l)
    (hheld : ∀ n fd, t.holds = some (n, fd) → d fd = some (.connection n))
    (horder : l.map Event.conn ++ t.holding = List.range s.accepted)
    (hown : ∀ f ∈ c, f ≠ some .other ∧ ∀ n, f = some (.connection n) →
      .dropped n ∈ l) :
    SockInv { s with
      descriptors := d, closed := c, wrapper := w, owner := o, thread := t, history := l } where
  nonneg fd f hf := h.nonneg fd f (hd fd f hf)
  one fd fd' f hne h₁ h₂ := h.one fd fd' f hne (hd fd f h₁) (hd fd' f h₂)
  socket := hsocket
  thread := hthread
  threadIsInit := hinit
  stopped := hstopped
  known fd n hf := ⟨(h.known fd n (hd fd _ hf)).1, hknown fd n hf⟩
  held := hheld
  order := horder
  own := hown

theorem update_none {d : Int → Option OpenFile} {fd fd' : Int} {f : OpenFile}
    (h : Function.update d fd none fd' = some f) : d fd' = some f ∧ fd' ≠ fd := by
  by_cases hne : fd' = fd
  · subst hne
    rw [Function.update_self] at h
    cases h
  · rw [Function.update_of_ne hne] at h
    exact ⟨h, hne⟩

/-- The owner closes the socket, or what stands for it. -/
theorem closeSocket_step (h : SockInv s) {o : OwnerPc} (ho : o.over = true)
    (hs : s.Unopened ∧ (s.wrapper.socket = 0 ∨ s.wrapper.socket = -1) ∨ s.Listening)
    (hholds : s.thread.holds = none)
    (hthread : if o.joined then s.thread = .exited else s.thread = .notStarted) :
    SockInv { s.closeSocket with owner := o } := by
  have hover : o = .initFailed ∨ o = .deallocated := by
    cases o <;> first | exact .inl rfl | exact .inr rfl | cases ho
  have hstands : ∀ s' : SocketState, s'.owner = o → s'.Left → s'.SocketSays := by
    rintro s' rfl hleft
    rcases hover with he | he <;> simpa [SocketState.SocketSays, he] using hleft
  have hthreadSays :
    ∀ s' : SocketState, s'.owner = o → s'.thread = s.thread → s'.ThreadSays := by
    rintro s' rfl hst
    rw [SocketState.ThreadSays, hst]
    rcases hover with he | he <;> simpa [he, OwnerPc.hasThread] using hthread
  have hstart : o ≠ .started ∧ o ≠ .join := by
    rcases hover with rfl | rfl <;> simp
  rw [SocketState.closeSocket]
  split
  · rename_i hzero
    have hleft : s.Left := by
      rcases hs with ⟨⟨hnone, hno⟩, -⟩ | ⟨hopened, hlistening⟩
      · exact iff_of_false (fun ⟨fd, hfd⟩ => hno fd hfd) (by simp [hnone])
      · rw [hzero] at hopened hlistening
        exact iff_of_true ⟨0, hlistening⟩ hopened
    exact h.owner_keep (t := s.thread) (hstands _ rfl hleft) (hthreadSays _ rfl rfl)
      (fun he => absurd he (by simp [hstart])) (fun he => absurd he hstart.2) rfl
  · rename_i hsocket
    have hfile : s.descriptors s.wrapper.socket = none
        ∨ s.descriptors s.wrapper.socket = some .listening := by
      rcases hs with ⟨-, hzero | hminus⟩ | ⟨-, hlistening⟩
      · exact absurd hzero hsocket
      · refine .inl ?_
        cases hd : s.descriptors s.wrapper.socket with
        | none => rfl
        | some f =>
            have := h.nonneg _ f hd
            omega
      · exact .inr hlistening
    have hleft : ∀ fd, Function.update s.descriptors s.wrapper.socket none fd
        ≠ some .listening := by
      intro fd hfd
      obtain ⟨hold, hne⟩ := update_none hfd
      rcases hs with ⟨⟨-, hno⟩, -⟩ | ⟨-, hlistening⟩
      · exact hno fd hold
      · exact hne (h.one _ _ .listening (by simp) hlistening hold)
    have hopened : s.opened ≠ some 0 := by
      rcases hs with ⟨⟨hnone, -⟩, -⟩ | ⟨hopened, -⟩
      · simp [hnone]
      · rw [hopened]
        simpa using hsocket
    refine h.close_keep (fun fd f hf => (update_none hf).1) (hstands _ rfl ?_)
      (hthreadSays _ rfl rfl) (fun he => absurd he (by simp [hstart]))
      (fun he => absurd he hstart.2)
      (fun fd n hf => (h.known fd n (update_none hf).1).2) ?_ h.order ?_
    · exact iff_of_false (fun ⟨fd, hfd⟩ => hleft fd hfd) hopened
    · intro n fd hn
      exact absurd (hholds.symm.trans hn) (by simp)
    · intro f hf
      rcases List.mem_append.mp hf with hf | hf
      · exact h.own f hf
      · rw [List.mem_singleton.mp hf]
        rcases hfile with hfile | hfile <;> simp [hfile]

/-- The thread that is not there yet holds nothing. -/
theorem notStarted (h : SockInv s) (ht : s.owner.hasThread = false)
    (hj : s.owner.joined = false) : s.thread = .notStarted := by
  have hthread := h.thread
  simpa [SocketState.ThreadSays, ht, hj] using hthread

/-- **The owner's steps.** -/
theorem ownerStep (h : SockInv s) {result : Int} (hs : s.ownerStep net result = some s') :
    SockInv s' := by
  have hsocket := h.socket
  have hthread := h.thread
  simp only [SocketState.SocketSays] at hsocket
  simp only [SocketState.ThreadSays] at hthread
  simp only [SocketState.ownerStep] at hs
  cases ho : s.owner with
  | resolve | info addr | callback addr =>
      rw [ho] at hsocket hthread
      simp only [ho] at hs
      split at hs <;> cases hs
      · exact h.owner_keep (t := s.thread) hsocket hthread (by simp) (by simp) rfl
      · exact h.owner_keep (t := s.thread) (.inl ⟨hsocket.1, .inl hsocket.2⟩) hthread (by simp)
          (by simp) rfl
  | socket addr =>
      rw [ho] at hsocket hthread
      simp only [ho] at hs
      split at hs
      · cases hs
        exact h.owner_keep (t := s.thread) (.inl ⟨hsocket.1, .inr rfl⟩) hthread (by simp)
          (by simp) rfl
      · split at hs
        · rename_i hfresh
          cases hs
          exact h.socket_step ho hfresh
        · cases hs
  | setsockopt addr | bind addr | listen =>
      rw [ho] at hsocket hthread
      simp only [ho] at hs
      cases hs
      split
      · exact h.owner_keep (t := s.thread) (by first | exact hsocket | exact .inr hsocket) hthread
          (by simp) (by simp) rfl
      · exact h.owner_keep (t := s.thread) (by first | exact hsocket | exact .inr hsocket) hthread
          (by simp) (by simp) rfl
  | setRunning =>
      rw [ho] at hsocket hthread
      simp only [ho] at hs
      cases hs
      exact h.owner_keep (t := s.thread) hsocket hthread (by simp) (by simp) rfl
  | createThread =>
      rw [ho] at hsocket hthread
      simp only [ho] at hs
      have hnone : s.thread = .notStarted := hthread
      split at hs <;> cases hs
      · exact h.owner_keep (w := s.wrapper) hsocket (by simp [SocketState.ThreadSays,
          OwnerPc.hasThread]) (by simp) (by simp) (by rw [hnone]; rfl)
      · exact h.owner_keep (t := s.thread) (.inr hsocket) hthread (by simp) (by simp) rfl
  | setThreadIsInit =>
      rw [ho] at hsocket hthread
      simp only [ho] at hs
      cases hs
      exact h.owner_keep (t := s.thread) hsocket hthread (by simp) (by simp) rfl
  | started =>
      rw [ho] at hsocket hthread
      simp only [ho] at hs
      cases hs
      exact h.owner_keep (t := s.thread) hsocket hthread
        (fun _ => h.threadIsInit (.inl ho)) (fun _ => rfl) rfl
  | join =>
      rw [ho] at hsocket
      simp only [ho] at hs
      split at hs
      · rename_i hexited
        cases hs
        have hexit := hexited (h.threadIsInit (.inr ho))
        exact h.owner_keep (t := s.thread) hsocket hexit (by simp) (by simp) rfl
      · cases hs
  | cleanup =>
      rw [ho] at hsocket
      simp only [ho] at hs
      cases hs
      have hnone := h.notStarted (by rw [ho]; rfl) (by rw [ho]; rfl)
      exact h.closeSocket_step rfl hsocket (by rw [hnone]; rfl) hnone
  | close =>
      rw [ho] at hsocket hthread
      simp only [ho] at hs
      cases hs
      have hexit : s.thread = .exited := hthread
      exact h.closeSocket_step rfl (.inr hsocket) (by rw [hexit]; rfl) hexit
  | initFailed | deallocated =>
      simp only [ho] at hs
      cases hs

/-! ## The thread -/

/-- A thread that is not done has an owner that has not joined it. -/
theorem hasThread (h : SockInv s) (ht : s.thread ≠ .notStarted) (he : s.thread ≠ .exited) :
    s.owner.hasThread = true := by
  have hthread := h.thread
  cases hh : s.owner.hasThread with
  | true => rfl
  | false =>
      cases hj : s.owner.joined <;> simp_all [SocketState.ThreadSays]

/-- The thread moves, with what it holds. -/
theorem thread_keep (h : SockInv s) {t : ThreadPc} (hactive : s.owner.hasThread = true)
    (ht : t ≠ .notStarted) (hholds : t.holds = s.thread.holds) :
    SockInv { s with thread := t } := by
  refine h.owner_keep (w := s.wrapper) (o := s.owner) h.socket ?_ h.threadIsInit h.stopped hholds
  simpa [SocketState.ThreadSays, hactive] using ht

/-- A connection was not handed and not dropped as long as the thread has it. -/
theorem held_notMem (h : SockInv s) {n : Nat} {fd : Int} (hn : s.thread.holds = some (n, fd)) :
    n ∉ s.history.map Event.conn := by
  have horder := h.order
  have hnodup : (s.history.map Event.conn ++ s.thread.holding).Nodup := by
    rw [horder]
    exact List.nodup_range
  intro hmem
  refine (List.nodup_append.mp hnodup).2.2 n hmem n ?_ rfl
  rw [ThreadPc.holding, hn]
  exact List.mem_singleton.mpr rfl

theorem threadStep (h : SockInv s) (hs : s.threadStep net = some s') : SockInv s' := by
  simp only [SocketState.threadStep] at hs
  cases ht : s.thread with
  | testing =>
      simp only [ht] at hs
      cases hs
      have hactive := h.hasThread (by simp [ht]) (by simp [ht])
      split
      · exact h.thread_keep hactive (by simp) (by rw [ht]; rfl)
      · exact h.thread_keep hactive (by simp) (by rw [ht]; rfl)
  | address n fd addr =>
      simp only [ht] at hs
      have hactive := h.hasThread (by simp [ht]) (by simp [ht])
      split at hs
      · rename_i info address port hinfo
        cases hs
        have hsame : ∀ m, Event.dropped m ∈ s.history ++ [Event.handed n address port fd]
            ↔ Event.dropped m ∈ s.history := fun m => by simp
        refine h.close_keep (w := s.wrapper) (o := s.owner) (fun _ _ hf => hf) h.socket ?_
          h.threadIsInit h.stopped ?_ (fun _ _ hn => by cases hn) ?_ ?_
        · simp [SocketState.ThreadSays, hactive]
        · intro fd' m hf
          rw [hsame]
          exact (h.known fd' m hf).2
        · have horder := h.order
          rw [ThreadPc.holding, ht] at horder
          rw [List.map_append]
          exact (List.append_nil _).trans horder
        · intro f hf
          obtain ⟨hother, hdropped⟩ := h.own f hf
          exact ⟨hother, fun m hm => (hsame m).mpr (hdropped m hm)⟩
      · cases hs
        exact h.thread_keep hactive (by simp) (by rw [ht]; rfl)
  | drop n fd =>
      simp only [ht] at hs
      cases hs
      have hactive := h.hasThread (by simp [ht]) (by simp [ht])
      have hfd := h.held n fd (by rw [ht]; rfl)
      have hlistens := h.listening (OwnerPc.listens_of_hasThread hactive)
      have hne : s.wrapper.socket ≠ fd := by
        intro he
        have := hlistens.2
        rw [he, hfd] at this
        cases this
      refine h.close_keep (w := s.wrapper) (o := s.owner) (fun _ _ hf => (update_none hf).1) ?_ ?_
        h.threadIsInit h.stopped ?_ (fun _ _ hn => by cases hn) ?_ ?_
      · exact SocketState.socketSays_of_listening (OwnerPc.listens_of_hasThread hactive)
          ⟨hlistens.1, (Function.update_of_ne hne _ _).trans hlistens.2⟩
      · simp [SocketState.ThreadSays, hactive]
      · intro fd' m hf hmem
        obtain ⟨hold, hne'⟩ := update_none hf
        rcases List.mem_append.mp hmem with hmem | hmem
        · exact (h.known fd' m hold).2 hmem
        · obtain rfl : m = n := by simpa using hmem
          exact hne' (h.one fd fd' _ (by simp) hfd hold)
      · have horder := h.order
        rw [ThreadPc.holding, ht] at horder
        rw [List.map_append]
        exact (List.append_nil _).trans horder
      · intro f hf
        rcases List.mem_append.mp hf with hf | hf
        · obtain ⟨hother, hdropped⟩ := h.own f hf
          exact ⟨hother, fun m hm => List.mem_append_left _ (hdropped m hm)⟩
        · rw [List.mem_singleton.mp hf, hfd]
          refine ⟨by simp, fun m hm => ?_⟩
          obtain rfl : n = m := by simpa using hm
          simp
  | notStarted | selecting | accepting | calling | exited =>
      simp only [ht] at hs
      cases hs

/-- `accept` returns a new descriptor. -/
theorem accept_step (h : SockInv s) (ht : s.thread = .accepting) {fd : Int} (hfd : s.Fresh fd)
    (peer : Sockaddr) :
    SockInv { s.openFd fd (.connection s.accepted) with
      thread := .address s.accepted fd peer
      accepted := s.accepted + 1 } := by
  have hactive := h.hasThread (by simp [ht]) (by simp [ht])
  have hcases : ∀ fd' f,
      Function.update s.descriptors fd (some (.connection s.accepted)) fd' = some f →
      (fd' = fd ∧ f = .connection s.accepted) ∨ s.descriptors fd' = some f := by
    intro fd' f hf
    by_cases hne : fd' = fd
    · subst hne
      rw [Function.update_self] at hf
      exact .inl ⟨rfl, (Option.some.inj hf).symm⟩
    · rw [Function.update_of_ne hne] at hf
      exact .inr hf
  have hnew : ∀ fd', s.descriptors fd' ≠ some (.connection s.accepted) := fun fd' hf =>
    Nat.lt_irrefl _ (h.known fd' _ hf).1
  have hconns : s.history.map Event.conn = List.range s.accepted := by
    have horder := h.order
    rw [ThreadPc.holding, ht] at horder
    exact (List.append_nil _).symm.trans horder
  refine ⟨?_, ?_, ?_, ?_, h.threadIsInit, h.stopped, ?_, ?_, ?_, h.own⟩
  · intro fd' f hf
    rcases hcases fd' f hf with ⟨rfl, -⟩ | hold
    · exact hfd.1
    · exact h.nonneg fd' f hold
  · intro fd₁ fd₂ f hf h₁ h₂
    rcases hcases fd₁ f h₁ with ⟨hfd₁, hn₁⟩ | hold₁
    · rcases hcases fd₂ f h₂ with ⟨hfd₂, -⟩ | hold₂
      · exact hfd₂.trans hfd₁.symm
      · exact absurd (hn₁ ▸ hold₂) (hnew fd₂)
    · rcases hcases fd₂ f h₂ with ⟨-, hn₂⟩ | hold₂
      · exact absurd (hn₂ ▸ hold₁) (hnew fd₁)
      · exact h.one fd₁ fd₂ f hf hold₁ hold₂
  · have hlistens := h.listening (OwnerPc.listens_of_hasThread hactive)
    have hne : s.wrapper.socket ≠ fd := by
      intro he
      have := hlistens.2
      rw [he, hfd.2] at this
      cases this
    exact SocketState.socketSays_of_listening (OwnerPc.listens_of_hasThread hactive)
      ⟨hlistens.1, (Function.update_of_ne hne _ _).trans hlistens.2⟩
  · have hactive' : (s.openFd fd (.connection s.accepted)).owner.hasThread = true := hactive
    simp [SocketState.ThreadSays, hactive']
  · intro fd' n hf
    rcases hcases fd' _ hf with ⟨-, hn⟩ | hold
    · obtain rfl : n = s.accepted := by simpa using hn
      refine ⟨Nat.lt_succ_self _, fun hmem => ?_⟩
      have hmem' : s.accepted ∈ s.history.map Event.conn :=
        List.mem_map.mpr ⟨_, hmem, rfl⟩
      rw [hconns, List.mem_range] at hmem'
      exact Nat.lt_irrefl _ hmem'
    · exact ⟨Nat.lt_succ_of_lt (h.known fd' n hold).1, (h.known fd' n hold).2⟩
  · intro n fd' hn
    cases hn
    exact Function.update_self _ _ _
  · show s.history.map Event.conn ++ [s.accepted] = List.range (s.accepted + 1)
    rw [hconns, List.range_succ]

/-! ## The rest of the program -/

/-- A descriptor that is neither the socket nor in the thread's hands is closed,
or opened for something else. -/
theorem other_step (h : SockInv s) {fd : Int} {x : Option OpenFile}
    (hx : ∀ f, x = some f → f = .other ∧ 0 ≤ fd)
    (hfd : s.descriptors fd ≠ some .listening) (hheld : ∀ n, s.thread.holds ≠ some (n, fd)) :
    SockInv { s with descriptors := Function.update s.descriptors fd x } := by
  have hcases : ∀ fd' f, Function.update s.descriptors fd x fd' = some f →
      (f = .other ∧ 0 ≤ fd') ∨ s.descriptors fd' = some f := by
    intro fd' f hf
    by_cases hne : fd' = fd
    · subst hne
      rw [Function.update_self] at hf
      exact .inl (hx f hf)
    · rw [Function.update_of_ne hne] at hf
      exact .inr hf
  have hlistening : ∀ fd', Function.update s.descriptors fd x fd' = some .listening
      ↔ s.descriptors fd' = some .listening := by
    intro fd'
    by_cases hne : fd' = fd
    · subst hne
      rw [Function.update_self]
      refine iff_of_false (fun hxl => ?_) hfd
      cases (hx _ hxl).1
    · rw [Function.update_of_ne hne]
  have hsocket : { s with descriptors := Function.update s.descriptors fd x }.SocketSays := by
    have := h.socket
    simp only [SocketState.SocketSays, SocketState.Unopened, SocketState.Listening,
      SocketState.Left, ne_eq, hlistening] at this ⊢
    exact this
  refine ⟨?_, ?_, hsocket, h.thread, h.threadIsInit, h.stopped, ?_, ?_, h.order, h.own⟩
  · intro fd' f hf
    rcases hcases fd' f hf with ⟨-, hle⟩ | hold
    · exact hle
    · exact h.nonneg fd' f hold
  · intro fd₁ fd₂ f hf h₁ h₂
    rcases hcases fd₁ f h₁ with ⟨ho, -⟩ | hold₁
    · exact absurd ho hf
    · rcases hcases fd₂ f h₂ with ⟨ho, -⟩ | hold₂
      · exact absurd ho hf
      · exact h.one fd₁ fd₂ f hf hold₁ hold₂
  · intro fd' n hf
    rcases hcases fd' _ hf with ⟨ho, -⟩ | hold
    · cases ho
    · exact h.known fd' n hold
  · intro n fd' hn
    have hne : fd' ≠ fd := by
      rintro rfl
      exact hheld n hn
    exact (Function.update_of_ne hne _ _).trans (h.held n fd' hn)

/-- What a connection in the thread's hands is not. -/
theorem holds_ne (h : SockInv s) {fd : Int}
    (hfd : ∀ n, s.descriptors fd = some (.connection n) →
      WasHanded s.history n) (n : Nat) : s.thread.holds ≠ some (n, fd) := by
  intro hn
  obtain ⟨address, port, socket, hmem⟩ := hfd n (h.held n fd hn)
  exact h.held_notMem hn (List.mem_map.mpr ⟨_, hmem, rfl⟩)

/-- **The step lemma.** -/
theorem step (h : SockInv s) {a : Action} (hs : SocketWrapper.step net s a = some s') :
    SockInv s' := by
  cases a with
  | owner result => exact h.ownerStep hs
  | thread => exact h.threadStep hs
  | select result =>
      simp only [SocketWrapper.step] at hs
      split at hs
      · rename_i ht
        cases hs
        have hactive := h.hasThread (by simp [ht]) (by simp [ht])
        split
        · exact h.thread_keep hactive (by simp) (by rw [ht]; rfl)
        · exact h.thread_keep hactive (by simp) (by rw [ht]; rfl)
      · cases hs
  | accept result peer =>
      simp only [SocketWrapper.step] at hs
      split at hs
      · rename_i ht
        have hactive := h.hasThread (by simp [ht]) (by simp [ht])
        split at hs
        · cases hs
          exact h.thread_keep hactive (by simp) (by rw [ht]; rfl)
        · split at hs
          · rename_i hfresh
            cases hs
            exact h.accept_step ht hfresh peer
          · cases hs
      · cases hs
  | callbackReturn =>
      simp only [SocketWrapper.step] at hs
      split at hs
      · rename_i ht
        cases hs
        have hactive := h.hasThread (by simp [ht]) (by simp [ht])
        exact h.thread_keep hactive (by simp) (by rw [ht]; rfl)
      · cases hs
  | closeConnection fd =>
      simp only [SocketWrapper.step] at hs
      split at hs
      · rename_i n hfd
        split at hs
        · rename_i hhanded
          cases hs
          refine h.other_step (by simp) (by simp [hfd]) (h.holds_ne fun m hm => ?_)
          rw [hfd] at hm
          cases hm
          exact hhanded
        · cases hs
      · cases hs
  | openOther fd =>
      simp only [SocketWrapper.step] at hs
      split at hs
      · rename_i hfresh
        cases hs
        refine h.other_step (fun f hf => ⟨(Option.some.inj hf).symm, hfresh.1⟩)
          (by simp [hfresh.2]) (h.holds_ne fun m hm => ?_)
        rw [hfresh.2] at hm
        cases hm
      · cases hs
  | closeOther fd =>
      simp only [SocketWrapper.step] at hs
      split at hs
      · rename_i hfd
        cases hs
        refine h.other_step (by simp) (by simp [hfd]) (h.holds_ne fun m hm => ?_)
        rw [hfd] at hm
        cases hm
      · cases hs

end SockInv

/-! ## Runs -/

theorem sockInv_initial (h₀ : Initial s) : SockInv s := by
  obtain ⟨args, d, hd, rfl⟩ := h₀
  have hother : ∀ fd f, d fd = some f → f ≠ .other → False := fun fd f hf hne =>
    hne (hd fd f hf).2
  refine ⟨fun fd f hf => (hd fd f hf).1, fun fd fd' f hne hf => (hother fd f hf hne).elim,
    ⟨⟨rfl, fun fd hf => hother fd _ hf (by simp)⟩, rfl⟩, rfl, by simp, by simp,
    fun fd n hf => (hother fd _ hf (by simp)).elim, ?_, rfl, by simp⟩
  intro n fd hn
  cases hn

theorem sockInv_reaches {s₀ : SocketState} (h₀ : Initial s₀)
    (h : Reaches (step net) Always s₀ s) : SockInv s :=
  h.invariant (sockInv_initial h₀) fun _ _ _ hi _ hs => hi.step hs

/-- What the library makes of `"::"`. -/
def localNet : Inet where
  pton4 _ := none
  pton6 s := if s = Strings.ascii "::" then some 0 else none
  ntop4 _ := Strings.ascii "0.0.0.0"
  ntop6 _ := Strings.ascii "::"

/-- Any address, some port, and a callback; descriptors 0 to 2 are open. -/
def localStart : SocketState where
  args := ⟨none, 8000, true⟩
  descriptors fd := if 0 ≤ fd ∧ fd < 3 then some .other else none

theorem localStart_initial : Initial localStart := by
  refine ⟨_, _, ?_, rfl⟩
  intro fd f hf
  have hf : (if 0 ≤ fd ∧ fd < 3 then some OpenFile.other else none) = some f := hf
  split at hf
  · rename_i hfd
    exact ⟨hfd.1, (Option.some.inj hf).symm⟩
  · cases hf

/-- The wrapper is started; one connection is handed on, one is dropped, and
the thread waits again. -/
def serveRun : List Action :=
  [.owner 0, .owner 0, .owner 0, .owner 3, .owner 0, .owner 0, .owner 0, .owner 0, .owner 0,
    .thread, .owner 0, .select 1, .accept 4 (.inet6 0 0), .thread, .callbackReturn, .thread,
    .select 1, .accept 5 .other, .thread, .thread, .thread]

/-- Then it is stopped. -/
def stopRun : List Action := serveRun ++ [.owner 0, .select 0, .thread, .owner 0, .owner 0]

/-- **Only its own descriptors are used and closed.** The thread waits on and
accepts from the socket that `socket` has returned, which is still open then,
however it is interleaved with the calls that start and stop it and with the
rest of the program, which closes connections it was handed and files of its
own; and what the wrapper closes is nothing, its socket, or a connection that
it did not hand on. -/
theorem own_descriptors {s₀ : SocketState} (h₀ : Initial s₀)
    (h : Reaches (step net) Always s₀ s) :
    (s.thread = .selecting ∨ s.thread = .accepting →
      s.opened = some s.wrapper.socket ∧ s.descriptors s.wrapper.socket = some .listening)
      ∧ ∀ f ∈ s.closed, f = none ∨ f = some .listening
        ∨ ∃ n, f = some (.connection n) ∧ .dropped n ∈ s.history
          ∧ ¬WasHanded s.history n := by
  have hinv := sockInv_reaches h₀ h
  constructor
  · intro ht
    have hactive := hinv.hasThread (by rcases ht with ht | ht <;> simp [ht])
      (by rcases ht with ht | ht <;> simp [ht])
    exact hinv.listening (OwnerPc.listens_of_hasThread hactive)
  · intro f hf
    obtain ⟨hother, hdropped⟩ := hinv.own f hf
    cases f with
    | none => exact .inl rfl
    | some f =>
        cases f with
        | listening => exact .inr (.inl rfl)
        | other => exact absurd rfl hother
        | connection n =>
            refine .inr (.inr ⟨n, rfl, hdropped n rfl, ?_⟩)
            rintro ⟨address, port, socket, hmem⟩
            -- the list of events has each connection once
            have hnodup : (s.history.map Event.conn).Nodup := by
              have hall : (s.history.map Event.conn ++ s.thread.holding).Nodup := by
                rw [hinv.order]
                exact List.nodup_range
              exact (List.nodup_append.mp hall).1
            have hsame := List.inj_on_of_nodup_map hnodup (hdropped n rfl) hmem rfl
            cases hsame

theorem own_descriptors_serveRun :
    ∃ s, Reaches (step localNet) Always localStart s ∧ s.thread = .selecting
      ∧ s.closed = [some (.connection 1)]
      ∧ (s.thread = .selecting ∨ s.thread = .accepting →
        s.opened = some s.wrapper.socket ∧ s.descriptors s.wrapper.socket = some .listening)
      ∧ ∀ f ∈ s.closed, f = none ∨ f = some .listening
        ∨ ∃ n, f = some (.connection n) ∧ .dropped n ∈ s.history
          ∧ ¬WasHanded s.history n := by
  let hrun : (run (step localNet) Always serveRun localStart).isSome := by decide
  exact ⟨_, reaches_get hrun, rfl, rfl, own_descriptors localStart_initial (reaches_get hrun)⟩

/-- **Each connection is handed on or closed, once and in order.** -/
theorem handed_in_order {s₀ : SocketState} (h₀ : Initial s₀)
    (h : Reaches (step net) Always s₀ s) :
    s.history.map Event.conn ++ s.thread.holding = List.range s.accepted
      ∧ ∀ fd n, s.descriptors fd = some (.connection n) →
        s.thread.holds = some (n, fd) ∨ WasHanded s.history n := by
  have hinv := sockInv_reaches h₀ h
  refine ⟨hinv.order, fun fd n hfd => ?_⟩
  obtain ⟨hlt, hdropped⟩ := hinv.known fd n hfd
  have hmem : n ∈ s.history.map Event.conn ++ s.thread.holding := by
    rw [hinv.order]
    exact List.mem_range.mpr hlt
  rcases List.mem_append.mp hmem with hmem | hmem
  · obtain ⟨e, he, hen⟩ := List.mem_map.mp hmem
    cases e with
    | handed m address port socket =>
        obtain rfl : m = n := hen
        exact .inr ⟨address, port, socket, he⟩
    | dropped m =>
        obtain rfl : m = n := hen
        exact absurd he hdropped
  · obtain ⟨⟨m, fd'⟩, hholds, hm⟩ := List.mem_map.mp hmem
    obtain rfl : m = n := hm
    have hholds : s.thread.holds = some (m, fd') := Option.mem_toList.mp hholds
    have hfd' := hinv.held m fd' hholds
    rw [hinv.one fd fd' _ (by simp) hfd hfd'] at hholds
    exact .inl hholds

theorem handed_in_order_serveRun :
    ∃ s, Reaches (step localNet) Always localStart s ∧ s.accepted = 2
      ∧ s.history.map Event.conn ++ s.thread.holding = List.range s.accepted
      ∧ ∀ fd n, s.descriptors fd = some (.connection n) →
        s.thread.holds = some (n, fd) ∨ WasHanded s.history n := by
  let hrun : (run (step localNet) Always serveRun localStart).isSome := by decide
  exact ⟨_, reaches_get hrun, rfl, handed_in_order localStart_initial (reaches_get hrun)⟩

theorem SockInv.thread_of_over (h : SockInv s) (hover : s.owner.over = true) :
    s.thread = .notStarted ∨ s.thread = .exited := by
  have hthread := h.thread
  rw [SocketState.ThreadSays] at hthread
  cases ho : s.owner with
  | initFailed =>
      rw [ho] at hthread
      exact .inl hthread
  | deallocated =>
      rw [ho] at hthread
      exact .inr hthread
  | _ =>
      rw [ho] at hover
      cases hover

/-- What is over stays as it is. -/
theorem over_step (h : SockInv s) (hover : s.owner.over = true) {a : Action}
    (hs : step net s a = some s') :
    s'.owner = s.owner ∧ s'.thread = s.thread ∧ s'.history = s.history
      ∧ s'.accepted = s.accepted := by
  have hthread := h.thread_of_over hover
  cases a with
  | owner result =>
      simp only [step, SocketState.ownerStep] at hs
      cases ho : s.owner <;> rw [ho] at hover hs <;> cases hover <;> cases hs
  | thread =>
      simp only [step, SocketState.threadStep] at hs
      rcases hthread with ht | ht <;> rw [ht] at hs <;> cases hs
  | select result | accept result peer | callbackReturn =>
      simp only [step] at hs
      rcases hthread with ht | ht <;> simp [ht] at hs
  | closeConnection fd =>
      simp only [step] at hs
      split at hs
      · split at hs <;> cases hs
        exact ⟨rfl, rfl, rfl, rfl⟩
      · cases hs
  | openOther fd | closeOther fd =>
      simp only [step] at hs
      split at hs <;> cases hs
      exact ⟨rfl, rfl, rfl, rfl⟩

/-- **What is left** when `tcp_socket_wrapper_init` has failed or
`tcp_socket_wrapper_dealloc` has returned, and for ever after: no thread, no
further call of the callback, no connection in the wrapper's hands, and an open
socket only if its number is 0. -/
theorem nothing_left {s₀ t : SocketState} (h₀ : Initial s₀)
    (h : Reaches (step net) Always s₀ s) (hover : s.owner.over = true)
    (ht : Reaches (step net) Always s t) :
    (t.thread = .notStarted ∨ t.thread = .exited) ∧ t.history = s.history
      ∧ t.history.map Event.conn = List.range t.accepted
      ∧ ((∃ fd, t.descriptors fd = some .listening) ↔ t.opened = some 0) := by
  have hinv := sockInv_reaches h₀ h
  have hkept : SockInv t ∧ t.owner = s.owner ∧ t.thread = s.thread
    ∧ t.history = s.history := by
    refine ht.invariant (I := fun t => SockInv t ∧ t.owner = s.owner ∧ t.thread = s.thread
      ∧ t.history = s.history) ⟨hinv, rfl, rfl, rfl⟩ ?_
    rintro t a t' ⟨hi, ho, hth, hh⟩ - hs
    obtain ⟨ho', hth', hh', -⟩ := over_step hi (ho ▸ hover) hs
    exact ⟨hi.step hs, ho'.trans ho, hth'.trans hth, hh'.trans hh⟩
  obtain ⟨hinv', ho, -, hh⟩ := hkept
  have hover' : t.owner.over = true := ho ▸ hover
  have hthread := hinv'.thread_of_over hover'
  refine ⟨hthread, hh, ?_, ?_⟩
  · have horder := hinv'.order
    have hnone : t.thread.holding = [] := by
      rcases hthread with ht | ht <;> rw [ht] <;> rfl
    rwa [hnone, List.append_nil] at horder
  · have hsocket := hinv'.socket
    rw [SocketState.SocketSays] at hsocket
    cases ho : t.owner <;> rw [ho] at hover' hsocket <;> first | exact hsocket | cases hover'

theorem nothing_left_stopRun :
    ∃ s, Reaches (step localNet) Always localStart s ∧ s.owner = .deallocated
      ∧ (s.thread = .notStarted ∨ s.thread = .exited) ∧ s.history = s.history
      ∧ s.history.map Event.conn = List.range s.accepted
      ∧ ((∃ fd, s.descriptors fd = some .listening) ↔ s.opened = some 0) := by
  let hrun : (run (step localNet) Always stopRun localStart).isSome := by decide
  exact ⟨_, reaches_get hrun, rfl,
    nothing_left localStart_initial (reaches_get hrun) (by decide) .refl⟩

end CWebServer.SocketWrapper
