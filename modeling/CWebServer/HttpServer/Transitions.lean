import CWebServer.HttpServer.Model
import CWebServer.WorkerThreadPool.Transitions

/-!
# HttpServer — Transitions

What one step of the server can do, said once: `step_transition` is the
inversion of `step`. A step of the pool inside is given by the pool's own
transition.
-/

namespace CWebServer.HttpServer

open CWebServer.WorkerThreadPool

/-- The steps of `http_server_finalize_task`. -/
inductive Finalizes (s : ServerState) (c : ConnId) (t : DataAddr) :
    Bool → FinalizePc → ServerState → FinalizePc → Prop
  | respond {ok} : Finalizes s c t ok .write
      (s.io .respond c (s.records t).socketStream.fileDescriptor) .writing
  | more : Finalizes s c t true .writing
      (s.io .write c (s.records t).socketStream.fileDescriptor) .writing
  | enough : Finalizes s c t false .writing s .shutdown
  | shutdown {ok} : Finalizes s c t ok .shutdown (s.io .shutdown c (s.records t).socket) .dealloc
  | dealloc {ok} : (s.records t).socketStream.shouldClose = true → Finalizes s c t ok .dealloc
      (s.closeFd c (s.records t).socketStream.fileDescriptor) .lock
  | keep {ok} : (s.records t).socketStream.shouldClose = false →
      Finalizes s c t ok .dealloc s .lock
  | push : Finalizes s c t true .lock (s.pushTaskPool t) .done
  | lockFailed : Finalizes s c t false .lock s .close
  | close {ok} : Finalizes s c t ok .close (s.closeFd c (s.records t).socket) .done

inductive Transition (s : ServerState) : Action → ServerState → Prop
  | accept {fd} :
      s.acceptor = .idle → s.descriptors fd = none →
      Transition s (.accept fd) { s with
        acceptor := .accepted s.connections fd
        descriptors := Function.update s.descriptors fd (some s.connections)
        connections := s.connections + 1 }
  | takePooled {c fd t} :
      s.acceptor = .accepted c fd → s.taskPool = some t →
      Transition s (.lock true) { s with
        taskPool := (s.records t).next
        taskPoolLen := s.taskPoolLen - 1
        acceptor := .taken c fd t }
  | takeNew {c fd} :
      s.acceptor = .accepted c fd → s.taskPool = none →
      Transition s (.lock true) { s with
        records := Function.update s.records s.allocated {}
        allocated := s.allocated + 1
        acceptor := .taken c fd s.allocated }
  | lockFailed {c fd} :
      s.acceptor = .accepted c fd →
      Transition s (.lock false) { s with acceptor := .lockFailed c fd }
  | closeSocket {c fd} :
      s.acceptor = .lockFailed c fd →
      Transition s .acceptor { s.closeFd c fd with acceptor := .idle }
  | fill {c fd t} :
      s.acceptor = .taken c fd t →
      Transition s .acceptor
        { s.setRecord t { s.records t with socket := fd, socketStream := ⟨fd, true⟩ } with
          acceptor := .filled c t }
  | enqueue {c t i pool} :
      s.acceptor = .filled c t →
      WorkerThreadPool.Transition s.pool (.enqueue c (s.enqueueArgs t) i) pool →
      Transition s (.enqueue i) { s with pool := pool, acceptor := .enqueue c t }
  | enqueued {c t} :
      s.acceptor = .enqueue c t → (s.pool.calls c).pc = .returned workerThreadPoolSuccess →
      Transition s .acceptor { s with acceptor := .idle }
  | refused {c t e status} :
      s.acceptor = .enqueue c t → (s.pool.calls c).pc = .returned e →
      e ≠ workerThreadPoolSuccess →
      Transition s .acceptor { s.setRecord t { s.records t with statusCode := status } with
        acceptor := .finalize c t .write }
  | acceptorDone {c t} :
      s.acceptor = .finalize c t .done → Transition s .acceptor { s with acceptor := .idle }
  | pool {a pool} :
      poolOnly s.pool a = true → WorkerThreadPool.Transition s.pool a pool →
      Transition s (.pool a) { s with pool := pool }
  | startTask {w x p t pool} :
      s.pool.threads[w]? = some x → x.pc = .dequeued p → (s.pool.heap p).data = some t →
      WorkerThreadPool.Transition s.pool (.worker w) pool →
      Transition s (.startTask w)
        ({ s with pool := pool }.setHandler w (some ⟨(s.pool.heap p).call, t, .parse⟩))
  | read {w c t} :
      s.handlers w = some ⟨c, t, .parse⟩ →
      Transition s (.read w) (s.io .read c (s.records t).socketStream.fileDescriptor)
  | parsed {w c t} :
      s.handlers w = some ⟨c, t, .parse⟩ →
      Transition s (.parsed w true)
        ((s.setRecord t { s.records t with statusCode := 200 }).setHandler w
          (some ⟨c, t, .handle⟩))
  | parseError {w c t} :
      s.handlers w = some ⟨c, t, .parse⟩ →
      Transition s (.parsed w false)
        ((s.setRecord t { s.records t with statusCode := 400 }).setHandler w
          (some ⟨c, t, .finalize .write⟩))
  | handled {w c t ok status} :
      s.handlers w = some ⟨c, t, .handle⟩ →
      Transition s (.handled w ok status)
        ((s.setRecord t { s.records t with
          statusCode := if ok then status else 500 }).setHandler w
          (some ⟨c, t, .finalize .write⟩))
  | finalize {p c t pc ok s₁ pc'} :
      s.finalizing p = some (c, t, pc) → Finalizes s c t ok pc s₁ pc' →
      Transition s (.finalize p ok) (s₁.setFinalize p c t pc')
  | taskReturn {w c t pool} :
      s.handlers w = some ⟨c, t, .finalize .done⟩ →
      WorkerThreadPool.Transition s.pool (.callbackReturn w 0) pool →
      Transition s (.taskReturn w) ({ s with pool := pool }.setHandler w none)

variable {s s' : ServerState}

theorem finalizeTask_finalizes {c : ConnId} {t : DataAddr} {ok : Bool} {pc pc' : FinalizePc}
    (h : s.finalizeTask c t ok pc = some (s', pc')) : Finalizes s c t ok pc s' pc' := by
  cases pc with
  | write =>
      cases h
      exact .respond
  | writing =>
      cases ok with
      | true =>
          cases h
          exact .more
      | false =>
          cases h
          exact .enough
  | shutdown =>
      cases h
      exact .shutdown
  | dealloc =>
      cases hclose : (s.records t).socketStream.shouldClose with
      | true =>
          simp only [ServerState.finalizeTask, hclose, if_true] at h
          cases h
          exact .dealloc hclose
      | false =>
          simp only [ServerState.finalizeTask, hclose, Bool.false_eq_true, if_false] at h
          cases h
          exact .keep hclose
  | lock =>
      cases ok with
      | true =>
          cases h
          exact .push
      | false =>
          cases h
          exact .lockFailed
  | close =>
      cases h
      exact .close
  | done => cases h

theorem takeTask_none (h : s.taskPool = none) :
    s.takeTask = (s.allocated, { s with
      records := Function.update s.records s.allocated {}
      allocated := s.allocated + 1 }) := by
  simp only [ServerState.takeTask, h]

theorem takeTask_some {t : DataAddr} (h : s.taskPool = some t) :
    s.takeTask = (t, { s with
      taskPool := (s.records t).next
      taskPoolLen := s.taskPoolLen - 1 }) := by
  simp only [ServerState.takeTask, h]

theorem lock_transition {ok : Bool} (h : step s (.lock ok) = some s') :
    Transition s (.lock ok) s' := by
  simp only [step] at h
  split at h
  · rename_i c fd hacc
    cases ok with
    | true =>
        cases hpool : s.taskPool with
        | none =>
            simp only [if_true, takeTask_none hpool] at h
            cases h
            exact .takeNew hacc hpool
        | some t =>
            simp only [if_true, takeTask_some hpool] at h
            cases h
            exact .takePooled hacc hpool
    | false =>
        cases h
        exact .lockFailed hacc
  · cases h

theorem acceptor_transition (h : step s .acceptor = some s') : Transition s .acceptor s' := by
  simp only [step, ServerState.acceptorStep] at h
  split at h
  · rename_i c fd hacc
    cases h
    exact .closeSocket hacc
  · rename_i c fd t hacc
    cases h
    exact .fill hacc
  · rename_i c t hacc
    split at h
    · rename_i e hpc
      split at h
      · rename_i he
        cases h
        exact .enqueued hacc (he ▸ hpc)
      · rename_i he
        cases h
        exact .refused hacc hpc he
    · cases h
  · rename_i c t hacc
    cases h
    exact .acceptorDone hacc
  · cases h

/-- **The inversion of `step`.** -/
theorem step_transition {a : Action} (h : step s a = some s') : Transition s a s' := by
  cases a with
  | accept fd =>
      simp only [step] at h
      split at h
      · rename_i hidle
        cases h
        exact .accept hidle.1 hidle.2
      · cases h
  | lock ok => exact lock_transition h
  | acceptor => exact acceptor_transition h
  | enqueue i =>
      simp only [step] at h
      split at h
      · rename_i c t hacc
        obtain ⟨pool, hpool, rfl⟩ := Option.map_eq_some_iff.mp h
        exact .enqueue hacc (WorkerThreadPool.step_transition hpool)
      · cases h
  | pool a =>
      simp only [step] at h
      split at h
      · rename_i honly
        obtain ⟨pool, hpool, rfl⟩ := Option.map_eq_some_iff.mp h
        exact .pool honly (WorkerThreadPool.step_transition hpool)
      · cases h
  | startTask w =>
      simp only [step] at h
      split at h
      · rename_i run p hw
        split at h
        · cases h
        · rename_i t hdata
          obtain ⟨pool, hpool, rfl⟩ := Option.map_eq_some_iff.mp h
          exact .startTask hw rfl hdata (WorkerThreadPool.step_transition hpool)
      · cases h
  | read w =>
      simp only [step] at h
      split at h
      · rename_i c t hw
        cases h
        exact .read hw
      · cases h
  | parsed w ok =>
      simp only [step] at h
      split at h
      · rename_i c t hw
        cases ok with
        | true =>
            cases h
            exact .parsed hw
        | false =>
            cases h
            exact .parseError hw
      · cases h
  | handled w ok status =>
      simp only [step] at h
      split at h
      · rename_i c t hw
        cases h
        exact .handled hw
      · cases h
  | finalize p ok =>
      simp only [step] at h
      split at h
      · rename_i c t pc hp
        obtain ⟨⟨s₁, pc'⟩, hfin, rfl⟩ := Option.map_eq_some_iff.mp h
        exact .finalize hp (finalizeTask_finalizes hfin)
      · cases h
  | taskReturn w =>
      simp only [step] at h
      split at h
      · rename_i c t hw
        obtain ⟨pool, hpool, rfl⟩ := Option.map_eq_some_iff.mp h
        exact .taskReturn hw (WorkerThreadPool.step_transition hpool)
      · cases h

end CWebServer.HttpServer
