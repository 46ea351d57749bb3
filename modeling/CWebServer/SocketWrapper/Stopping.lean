import CWebServer.Lib.Progress
import CWebServer.SocketWrapper.Descriptors

/-!
# SocketWrapper — Stopping

`tcp_socket_wrapper_dealloc` returns: its thread has at most one connection
more to accept, since it tests `running` before each.
-/

namespace CWebServer.SocketWrapper

open CWebServer.Runs

/-- The steps of the wrapper's two threads. The callback is to return. -/
def Action.isOwn : Action → Bool
  | .owner _ | .thread | .select _ | .accept _ _ | .callbackReturn => true
  | .closeConnection _ | .openOther _ | .closeOther _ => false

/-- How many steps the thread can take once `running` is cleared. -/
def ThreadPc.stepsLeft : ThreadPc → Nat
  | .selecting => 5
  | .accepting => 4
  | .address _ _ _ => 3
  | .drop _ _ | .calling => 2
  | .testing => 1
  | .notStarted | .exited => 0

def OwnerPc.stepsLeft : OwnerPc → Nat
  | .join => 2
  | .close => 1
  | _ => 0

def SocketState.stepsLeft (s : SocketState) : Nat := s.owner.stepsLeft + s.thread.stepsLeft

/-- In `tcp_socket_wrapper_dealloc`, behind its first assignment. -/
def OwnerPc.stopping : OwnerPc → Bool
  | .join | .close | .deallocated => true
  | _ => false

structure Stopping (s : SocketState) : Prop where
  inv : SockInv s
  stopping : s.owner.stopping = true
  running : s.wrapper.running = false

variable {net : Inet} {s s' t : SocketState}

theorem SocketState.closeSocket_wrapper (s : SocketState) :
    s.closeSocket.wrapper.running = s.wrapper.running ∧ s.closeSocket.thread = s.thread := by
  rw [closeSocket]
  split <;> exact ⟨rfl, rfl⟩

/-- What a step leaves of the two threads' steps. -/
theorem Stopping.step (h : Stopping s) {a : Action} (hs : step net s a = some s') :
    s'.owner.stopping = true ∧ s'.wrapper.running = false
      ∧ s'.stepsLeft + (if a.isOwn then 1 else 0) ≤ s.stepsLeft := by
  obtain ⟨hinv, hstopping, hrunning⟩ := h
  cases a with
  | owner result =>
      simp only [SocketWrapper.step, SocketState.ownerStep] at hs
      cases ho : s.owner with
      | join =>
          simp only [ho] at hs
          split at hs
          · cases hs
            refine ⟨rfl, hrunning, ?_⟩
            simp only [SocketState.stepsLeft, ho, OwnerPc.stepsLeft, Action.isOwn, if_true]
            omega
          · cases hs
      | close =>
          simp only [ho] at hs
          cases hs
          obtain ⟨hrun, hthread⟩ := s.closeSocket_wrapper
          refine ⟨rfl, hrun.trans hrunning, ?_⟩
          simp only [SocketState.stepsLeft, ho, hthread, OwnerPc.stepsLeft, Action.isOwn, if_true]
          omega
      | deallocated =>
          simp only [ho] at hs
          cases hs
      | _ =>
          rw [ho] at hstopping
          cases hstopping
  | thread =>
      simp only [SocketWrapper.step, SocketState.threadStep] at hs
      cases ht : s.thread with
      | testing =>
          simp only [ht, hrunning, Bool.false_eq_true, if_false] at hs
          cases hs
          refine ⟨hstopping, hrunning, ?_⟩
          simp [SocketState.stepsLeft, ht, ThreadPc.stepsLeft, Action.isOwn]
      | address n fd addr =>
          simp only [ht] at hs
          split at hs <;> cases hs
          · refine ⟨hstopping, hrunning, ?_⟩
            simp [SocketState.stepsLeft, ht, ThreadPc.stepsLeft, Action.isOwn]
          · refine ⟨hstopping, hrunning, ?_⟩
            simp [SocketState.stepsLeft, ht, ThreadPc.stepsLeft, Action.isOwn]
      | drop n fd =>
          simp only [ht] at hs
          cases hs
          refine ⟨hstopping, hrunning, ?_⟩
          simp [SocketState.stepsLeft, SocketState.closeFd, ht, ThreadPc.stepsLeft, Action.isOwn]
      | notStarted | selecting | accepting | calling | exited =>
          simp only [ht] at hs
          cases hs
  | select result =>
      simp only [SocketWrapper.step] at hs
      split at hs
      · rename_i ht
        cases hs
        refine ⟨hstopping, hrunning, ?_⟩
        simp only [SocketState.stepsLeft, ht, Action.isOwn, if_true]
        split <;> simp [ThreadPc.stepsLeft]
      · cases hs
  | accept result peer =>
      simp only [SocketWrapper.step] at hs
      split at hs
      · rename_i ht
        split at hs
        · cases hs
          refine ⟨hstopping, hrunning, ?_⟩
          simp [SocketState.stepsLeft, ht, ThreadPc.stepsLeft, Action.isOwn]
        · split at hs <;> cases hs
          refine ⟨hstopping, hrunning, ?_⟩
          simp [SocketState.stepsLeft, SocketState.openFd, ht, ThreadPc.stepsLeft, Action.isOwn]
      · cases hs
  | callbackReturn =>
      simp only [SocketWrapper.step] at hs
      split at hs
      · rename_i ht
        cases hs
        refine ⟨hstopping, hrunning, ?_⟩
        simp [SocketState.stepsLeft, ht, ThreadPc.stepsLeft, Action.isOwn]
      · cases hs
  | closeConnection fd =>
      simp only [SocketWrapper.step] at hs
      split at hs
      · split at hs <;> cases hs
        exact ⟨hstopping, hrunning, Nat.le_refl _⟩
      · cases hs
  | openOther fd | closeOther fd =>
      simp only [SocketWrapper.step] at hs
      split at hs <;> cases hs
      exact ⟨hstopping, hrunning, Nat.le_refl _⟩

theorem approaches_deallocated (net : Inet) :
    Approaches (step net) Always Stopping (fun s => s.owner = .deallocated) Action.isOwn
      SocketState.stepsLeft where
  keeps hi _ hs := by
    obtain ⟨hstopping, hrunning, -⟩ := hi.step hs
    exact ⟨hi.inv.step hs, hstopping, hrunning⟩
  stays hi hg _ hs := by
    have hover : (OwnerPc.deallocated).over = true := rfl
    exact (over_step hi.inv (hg ▸ hover) hs).1.trans hg
  lowers hi _ hs := .inr (hi.step hs).2.2

/-- A step of the two threads that waits for nothing but the callback. -/
theorem Stopping.exists_step (h : Stopping s) (hg : s.owner ≠ .deallocated) :
    ∃ a, a.isOwn = true ∧ Always s a ∧ (SocketWrapper.step net s a).isSome := by
  obtain ⟨hinv, hstopping, -⟩ := h
  cases ho : s.owner with
  | join =>
      cases ht : s.thread with
      | notStarted =>
          have hthread := hinv.thread
          rw [SocketState.ThreadSays, ho] at hthread
          exact absurd ht hthread
      | testing =>
          exact ⟨.thread, rfl, trivial,
            by simp [SocketWrapper.step, SocketState.threadStep, ht]⟩
      | selecting => exact ⟨.select 0, rfl, trivial, by simp [SocketWrapper.step, ht]⟩
      | accepting => exact ⟨.accept (-1) .other, rfl, trivial, by simp [SocketWrapper.step, ht]⟩
      | address n fd addr =>
          refine ⟨.thread, rfl, trivial, ?_⟩
          simp only [SocketWrapper.step, SocketState.threadStep, ht]
          split <;> rfl
      | drop n fd =>
          exact ⟨.thread, rfl, trivial,
            by simp [SocketWrapper.step, SocketState.threadStep, ht]⟩
      | calling => exact ⟨.callbackReturn, rfl, trivial, by simp [SocketWrapper.step, ht]⟩
      | exited =>
          exact ⟨.owner 0, rfl, trivial, by
            simp [SocketWrapper.step, SocketState.ownerStep, ho, ht]⟩
  | close =>
      exact ⟨.owner 0, rfl, trivial, by simp [SocketWrapper.step, SocketState.ownerStep, ho]⟩
  | deallocated => exact absurd ho hg
  | _ =>
      rw [ho] at hstopping
      cases hstopping

/-- **`tcp_socket_wrapper_dealloc` returns.** From its join on the two threads
take at most seven steps, however they are interleaved with each other and
with the rest of the program, and they can always take them as long as the
callback returns. -/
theorem dealloc_returns {s₀ : SocketState} (h₀ : Initial s₀)
    (h : Reaches (step net) Always s₀ s) (hjoin : s.owner = .join) :
    (∀ as, run (step net) Always as s = some t → 7 < as.countP Action.isOwn →
      t.owner = .deallocated)
      ∧ ∃ t, Reaches (step net) Always s t ∧ t.owner = .deallocated := by
  have hinv := sockInv_reaches h₀ h
  have hstopping : Stopping s := ⟨hinv, by rw [hjoin]; rfl, hinv.stopped hjoin⟩
  constructor
  · intro as hrun hcount
    have hrank : s.stepsLeft ≤ 7 := by
      rw [SocketState.stepsLeft, hjoin]
      cases s.thread <;> simp [OwnerPc.stepsLeft, ThreadPc.stepsLeft]
    exact (approaches_deallocated net).goal_of_rank_lt hrun hstopping (by omega)
  · exact (approaches_deallocated net).exists_reaches
      (fun _ hi hg => hi.exists_step hg) hstopping

theorem dealloc_returns_joinRun :
    ∃ s, Reaches (step localNet) Always localStart s ∧ s.owner = .join ∧ s.thread = .selecting
      ∧ (∀ t as, run (step localNet) Always as s = some t → 7 < as.countP Action.isOwn →
        t.owner = .deallocated)
      ∧ ∃ t, Reaches (step localNet) Always s t ∧ t.owner = .deallocated := by
  let hrun : (run (step localNet) Always (serveRun ++ [.owner 0]) localStart).isSome := by decide
  have hreach := reaches_get hrun
  exact ⟨_, hreach, rfl, rfl,
    fun t => (dealloc_returns (t := t) localStart_initial hreach rfl).1,
    (dealloc_returns (t := localStart) localStart_initial hreach rfl).2⟩

end CWebServer.SocketWrapper
