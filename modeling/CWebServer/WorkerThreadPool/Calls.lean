import CWebServer.WorkerThreadPool.Transitions

/-!
# WorkerThreadPool — Calls

The book-keeping that holds in every run, whatever the waits return: a call
is linked at most once, only a call that has been linked can hold a record,
and a record that has been filled still says what the call that filled it
last has passed.
-/

namespace CWebServer.WorkerThreadPool

open CWebServer.Runs

variable {κ δ : Type} {s s' : PoolState κ δ}

/-! ## The calls -/

structure CallInv (s : PoolState κ δ) : Prop where
  nodup : (linkedCalls s.history).Nodup
  known : ∀ c ∈ linkedCalls s.history, (s.calls c).pc ≠ .idle
  recorded : ∀ c t, (s.calls c).pc.holds = some t → c ∈ linkedCalls s.history
  reported : ∀ c e, .returned c e ∈ s.history → (s.calls c).pc = .returned e

/-- A step that links nothing, ends no call and leaves the calls alone. -/
theorem CallInv.congr (h : CallInv s)
    (hlinked : linkedCalls s'.history = linkedCalls s.history)
    (hret : ∀ c e, .returned c e ∈ s'.history → .returned c e ∈ s.history)
    (hcalls : s'.calls = s.calls) : CallInv s' := by
  refine ⟨hlinked ▸ h.nodup, ?_, ?_, ?_⟩
  · rw [hlinked, hcalls]; exact h.known
  · rw [hlinked, hcalls]; exact h.recorded
  · rw [hcalls]; exact fun c e he => h.reported c e (hret c e he)

/-- A step of call `c` to `pc`, which holds a record only if `c` held one. -/
theorem CallInv.of_call (h : CallInv s) {c : CallId} {p : EnqueuePc}
    (hlinked : linkedCalls s'.history = linkedCalls s.history)
    (hret : ∀ c' e, .returned c' e ∈ s'.history →
      .returned c' e ∈ s.history ∨ c' = c ∧ p = .returned e)
    (hpc : ∀ c', (s'.calls c').pc = if c' = c then p else (s.calls c').pc)
    (hidle : p ≠ .idle) (hopen : ∀ e, (s.calls c).pc ≠ .returned e)
    (hholds : p.holds = none ∨ ∃ t, (s.calls c).pc.holds = some t) : CallInv s' := by
  refine ⟨hlinked ▸ h.nodup, ?_, ?_, ?_⟩
  · intro c' hc'
    rw [hpc]
    split
    · exact hidle
    · exact h.known c' (hlinked ▸ hc')
  · intro c' t ht
    rw [hlinked]
    rw [hpc] at ht
    split at ht
    · rename_i hc
      rcases hholds with hn | ⟨t', ht'⟩
      · rw [hn] at ht
        cases ht
      · exact h.recorded c' t' (hc ▸ ht')
    · exact h.recorded c' t ht
  · intro c' e he
    rw [hpc]
    rcases hret c' e he with hold | ⟨hc, hnew⟩
    · have hold := h.reported c' e hold
      split
      · rename_i hc
        exact absurd (hc ▸ hold) (hopen e)
      · exact hold
    · rw [if_pos hc, hnew]

theorem callInv_initial (h : Initial s) : CallInv s := by
  obtain ⟨m, n, rfl⟩ := h.eq
  exact ⟨List.nodup_nil, by simp [linkedCalls], by simp [EnqueuePc.holds], by simp⟩

/-- The last event is the only one that can be new. -/
theorem mem_record {h : List Event} {e : Event} {c : CallId} {code : ErrorCode}
    (hm : .returned c code ∈ h ++ [e]) : .returned c code ∈ h ∨ e = .returned c code := by
  rw [List.mem_append, List.mem_singleton] at hm
  exact hm.imp_right Eq.symm

theorem CallInv.link (h : CallInv s) {c : CallId} {a : EnqueueArgs κ δ} {i : Bool} {t : Addr}
    {s₁ s₂ : PoolState κ δ} (hidle : (s.calls c).pc = .idle)
    (hacq : (s.beginCall c a).acquireTask i = .task t s₁)
    (happ : (s₁.fillTask t c a).appendPending t = some s₂) :
    CallInv ((s₂.setCall c (.linked t)).record (.linked c)) := by
  obtain ⟨hcalls, hhist, -, -, -⟩ := link_frame hacq happ
  have hnew : c ∉ linkedCalls s.history := fun hc => h.known c hc hidle
  have hlinked : linkedCalls ((s₂.setCall c (.linked t)).record (.linked c)).history
      = linkedCalls s.history ++ [c] := by
    simp [PoolState.record, PoolState.setCall, hhist]
  have hpc : ∀ c', (((s₂.setCall c (.linked t)).record (.linked c)).calls c').pc
      = if c' = c then .linked t else (s.calls c').pc := by
    intro c'
    show ((s₂.setCall c (.linked t)).calls c').pc = _
    rw [hcalls]
    by_cases hc : c' = c
    · subst hc; simp
    · simp [hc]
  refine ⟨?_, ?_, ?_, ?_⟩
  · rw [hlinked, List.nodup_append]
    refine ⟨h.nodup, List.nodup_singleton c, ?_⟩
    intro b hb b' hb' heq
    rw [List.mem_singleton] at hb'
    subst hb' heq
    exact hnew hb
  · intro c' hc'
    rw [hpc]
    split
    · simp
    · rename_i hne
      rw [hlinked, List.mem_append, List.mem_singleton] at hc'
      exact h.known c' (hc'.resolve_right hne)
  · intro c' t' ht'
    rw [hpc] at ht'
    rw [hlinked, List.mem_append, List.mem_singleton]
    split at ht'
    · rename_i hc
      exact .inr hc
    · exact .inl (h.recorded c' t' ht')
  · intro c' e he
    change .returned c' e ∈ s₂.history ++ [.linked c] at he
    rw [hhist] at he
    have hold := h.reported c' e ((mem_record he).resolve_right (by simp))
    rw [hpc, if_neg (fun hc => by rw [hc, hidle] at hold; cases hold)]
    exact hold

theorem CallInv.step (h : CallInv s) {a : Action κ δ} (ht : Transition s a s') :
    CallInv s' := by
  -- `return e;` of call `c`, whatever else happens to the records
  have hreturn : ∀ {s₁ : PoolState κ δ} {c : CallId} (e : ErrorCode),
      s₁.history = s.history → (∀ c', c' ≠ c → (s₁.calls c').pc = (s.calls c').pc) →
      (∀ e', (s.calls c).pc ≠ .returned e') → CallInv (s₁.returnCall c e) := by
    intro s₁ c e hh hc hopen
    refine h.of_call (c := c) (p := .returned e) ?_ ?_ ?_ (by simp) hopen (.inl rfl)
    · simp [PoolState.returnCall, PoolState.record, PoolState.setCall, hh]
    · intro c' e' he'
      change .returned c' e' ∈ s₁.history ++ [.returned c e] at he'
      rw [hh] at he'
      apply (mem_record he').imp_right
      intro heq
      cases heq
      exact ⟨rfl, rfl⟩
    · intro c'
      rw [PoolState.returnCall_pc]
      split
      · rfl
      · rename_i hne
        exact hc c' hne
  -- a step that records an event which neither links nor returns
  have hrecord : ∀ {s' : PoolState κ δ} {e : Event}, s'.history = s.history ++ [e] →
      (∀ c, e ≠ .linked c) → (∀ c code, e ≠ .returned c code) → s'.calls = s.calls →
      CallInv s' := by
    intro s' e hh hlink hret hc
    refine h.congr ?_ ?_ hc
    · rw [hh, linkedCalls_snoc]
      cases e with
      | linked c => exact absurd rfl (hlink c)
      | _ => rfl
    · intro c code hm
      rw [hh] at hm
      exact (mem_record hm).resolve_right (hret c code)
  have hsame : ∀ {s' : PoolState κ δ}, s'.history = s.history → s'.calls = s.calls →
      CallInv s' := by
    intro s' hh hc
    exact h.congr (by rw [hh]) (fun c e hm => hh ▸ hm) hc
  cases ht with
  | @reject c a i e hidle he =>
      refine hreturn e rfl ?_ (by simp [hidle])
      intro c' hc'
      rw [PoolState.beginCall_pc, if_neg hc']
  | link hidle hcb hlen hacq happ => exact h.link hidle hacq happ
  | @postReturn c t hpc htime =>
      exact hreturn _ rfl (fun _ _ => rfl) (by simp [hpc])
  | @postWait c t hpc htime =>
      exact h.of_call (c := c) (p := .waiting t) rfl (fun _ _ hm => .inl hm)
        (fun c' => PoolState.setCall_pc _ c c' _) (by simp) (by simp [hpc])
        (.inr ⟨t, by rw [hpc]; rfl⟩)
  | @waitForever c t e hpc htime hends =>
      exact hreturn _ rfl (fun _ _ => rfl) (by simp [hpc])
  | @waitTimed c t e hpc htime hends =>
      exact h.of_call (c := c) (p := .waited t e) rfl (fun _ _ hm => .inl hm)
        (fun c' => PoolState.setCall_pc _ c c' _) (by simp) (by simp [hpc])
        (.inr ⟨t, by rw [hpc]; rfl⟩)
  | @settleCompleted c t e hpc hdone =>
      exact hreturn _ rfl (fun _ _ => rfl) (by simp [hpc])
  | @settlePosted c t hpc hdone | @settleTimeout c t hpc hdone | @settleError c t hpc hdone =>
      exact hreturn _ rfl (fun _ _ => rfl) (by simp [hpc])
  | silent hw hs => exact hsame rfl rfl
  | dequeue hw hx hlen hfirst => exact hrecord rfl (by simp) (by simp) rfl
  | start hw hx hcb => exact hrecord rfl (by simp) (by simp) rfl
  | store hw hx => exact hrecord rfl (by simp) (by simp) rfl
  | giveBack hw hx htimed => exact hsame rfl rfl
  | complete hw hx htimed => exact hsame rfl rfl
  | wake hw hx hends => exact hsame rfl rfl
  | callbackReturn hw hx => exact hrecord rfl (by simp) (by simp) rfl
  | stop hw => exact hsame rfl rfl
  | stopPost => exact hsame rfl rfl

/-- Every run keeps the book-keeping. -/
theorem callInv_reaches {ok : PoolState κ δ → Action κ δ → Prop} {s₀ : PoolState κ δ}
    (h₀ : Initial s₀) (h : Reaches step ok s₀ s) : CallInv s :=
  h.invariant (callInv_initial h₀) fun _ _ _ hi _ hs => hi.step (step_transition hs)

/-! ## The records -/

/-- The record holds what a call with these arguments fills in, up to the
result pointer that a timeout withdraws. -/
structure WorkerThreadPoolTask.FilledBy (x : WorkerThreadPoolTask κ δ)
    (a : EnqueueArgs κ δ) : Prop where
  callback : x.callback = a.callback
  data : x.data = a.data
  result : x.result = if a.callbackResult && !x.timedout then some x.call else none

structure LabelInv (s : PoolState κ δ) : Prop where
  calls : CallInv s
  labelled : ∀ t < s.allocated, (s.heap t).call ∈ linkedCalls s.history
  inj : ∀ t < s.allocated, ∀ t' < s.allocated, (s.heap t).call = (s.heap t').call → t = t'
  filled : ∀ t < s.allocated, (s.heap t).FilledBy (s.calls (s.heap t).call).args

/-- A step that fills no record. -/
theorem LabelInv.congr (h : LabelInv s) (hcalls : CallInv s')
    (hlinked : linkedCalls s'.history = linkedCalls s.history)
    (halloc : s'.allocated = s.allocated)
    (hargs : ∀ c ∈ linkedCalls s.history, (s'.calls c).args = (s.calls c).args)
    (hcall : ∀ t, (s'.heap t).call = (s.heap t).call)
    (hfill : ∀ t a, (s.heap t).FilledBy a → (s'.heap t).FilledBy a) : LabelInv s' := by
  refine ⟨hcalls, ?_, ?_, ?_⟩
  · rw [halloc, hlinked]
    intro t ht
    rw [hcall]
    exact h.labelled t ht
  · rw [halloc]
    intro t ht t' ht' heq
    rw [hcall, hcall] at heq
    exact h.inj t ht t' ht' heq
  · rw [halloc]
    intro t ht
    rw [hcall, hargs _ (h.labelled t ht)]
    exact hfill t _ (h.filled t ht)

theorem labelInv_initial (h : Initial s) : LabelInv s := by
  have hcalls := callInv_initial h
  obtain ⟨m, n, rfl⟩ := h.eq
  exact ⟨hcalls, by simp, by simp, by simp⟩

theorem WorkerThreadPoolTask.FilledBy.congr {x y : WorkerThreadPoolTask κ δ}
    {a : EnqueueArgs κ δ} (h : x.FilledBy a) (hcb : y.callback = x.callback)
    (hdata : y.data = x.data) (hres : y.result = x.result)
    (htimed : y.timedout = x.timedout) (hcall : y.call = x.call) : y.FilledBy a :=
  ⟨hcb.trans h.callback, hdata.trans h.data, by rw [hres, htimed, hcall]; exact h.result⟩

/-- A record rewritten without its arguments, its label or its timeout mark. -/
theorem setTask_filled {t : Addr} {y : WorkerThreadPoolTask κ δ}
    (hy : (y.callback, y.data, y.result, y.timedout, y.call) = ((s.heap t).callback,
      (s.heap t).data, (s.heap t).result, (s.heap t).timedout, (s.heap t).call)) :
    (∀ t', (Function.update s.heap t y t').call = (s.heap t').call)
      ∧ ∀ t' a, (s.heap t').FilledBy a → (Function.update s.heap t y t').FilledBy a := by
  have hfields := s.setTask_field (fun x : WorkerThreadPoolTask κ δ =>
    (x.callback, x.data, x.result, x.timedout, x.call)) hy
  constructor
  · intro t'
    exact congrArg (·.2.2.2.2) (hfields t')
  · intro t' a hf
    obtain ⟨hcb, hdata, hres, htimed, hcall⟩ := by simpa only [Prod.mk.injEq] using hfields t'
    exact hf.congr hcb hdata hres htimed hcall

/-- The record that is linked is labelled with its call, which is new. -/
theorem LabelInv.link (h : LabelInv s) {c : CallId} {a : EnqueueArgs κ δ} {i : Bool} {t : Addr}
    {s₁ s₂ : PoolState κ δ} (hidle : (s.calls c).pc = .idle)
    (hcalls : CallInv ((s₂.setCall c (.linked t)).record (.linked c)))
    (hacq : (s.beginCall c a).acquireTask i = .task t s₁)
    (happ : (s₁.fillTask t c a).appendPending t = some s₂) :
    LabelInv ((s₂.setCall c (.linked t)).record (.linked c)) := by
  obtain ⟨hc, hhist, -, -, -⟩ := link_frame hacq happ
  obtain ⟨hothers, hself, halloc⟩ := link_heap hacq happ
  have hnew : c ∉ linkedCalls s.history := fun hc => h.calls.known c hc hidle
  have hcall : (s₂.heap t).call = c := by
    have := congrArg WorkerThreadPoolTask.call hself
    simpa [WorkerThreadPoolTask.body] using this
  have hcall' : ∀ t', t' ≠ t → (s₂.heap t').call = (s.heap t').call := fun t' ht' =>
    (WorkerThreadPoolTask.body_eq (hothers t' ht')).2.2.2.2.2.2
  have hlt : ∀ t', t' < s₂.allocated → t' ≠ t → t' < s.allocated := by
    intro t' hlt hne
    rcases halloc with ⟨rfl, ha⟩ | ha
    · rw [ha] at hlt
      exact Nat.lt_of_le_of_ne (Nat.le_of_lt_succ hlt) hne
    · rwa [ha] at hlt
  have hold : ∀ t', t' < s₂.allocated → t' ≠ t → (s.heap t').call ≠ c :=
    fun t' hlt' hne heq => hnew (heq ▸ h.labelled t' (hlt t' hlt' hne))
  have hlinked : linkedCalls (s₂.history ++ [.linked c]) = linkedCalls s.history ++ [c] := by
    simp [hhist]
  refine ⟨hcalls, ?_, ?_, ?_⟩
  · intro t' ht'
    show (s₂.heap t').call ∈ linkedCalls (s₂.history ++ [.linked c])
    rw [hlinked, List.mem_append, List.mem_singleton]
    by_cases htt : t' = t
    · exact .inr (htt ▸ hcall)
    · rw [hcall' t' htt]
      exact .inl (h.labelled t' (hlt t' ht' htt))
  · intro t₁ ht₁ t₂ ht₂ heq
    change (s₂.heap t₁).call = (s₂.heap t₂).call at heq
    by_cases h₁ : t₁ = t <;> by_cases h₂ : t₂ = t
    · rw [h₁, h₂]
    · rw [h₁, hcall, hcall' t₂ h₂] at heq
      exact absurd heq.symm (hold t₂ ht₂ h₂)
    · rw [h₂, hcall, hcall' t₁ h₁] at heq
      exact absurd heq (hold t₁ ht₁ h₁)
    · rw [hcall' t₁ h₁, hcall' t₂ h₂] at heq
      exact h.inj t₁ (hlt t₁ ht₁ h₁) t₂ (hlt t₂ ht₂ h₂) heq
  · intro t' ht'
    show (s₂.heap t').FilledBy ((s₂.setCall c (.linked t)).calls (s₂.heap t').call).args
    rw [hc]
    by_cases htt : t' = t
    · rw [htt, hcall, Function.update_self]
      have hfill : (s₂.heap t).body.FilledBy a := by
        rw [hself]
        refine ⟨?_, ?_, ?_⟩ <;> simp [WorkerThreadPoolTask.body]
      exact ⟨hfill.callback, hfill.data, hfill.result⟩
    · rw [hcall' t' htt, Function.update_of_ne (hold t' ht' htt)]
      obtain ⟨hcb', hdata, hres, -, htimed, -, hcall''⟩ :=
        WorkerThreadPoolTask.body_eq (hothers t' htt)
      exact (h.filled t' (hlt t' ht' htt)).congr hcb' hdata hres htimed hcall''

theorem LabelInv.step (h : LabelInv s) {a : Action κ δ} (ht : Transition s a s') :
    LabelInv s' := by
  have hcalls : CallInv s' := h.calls.step ht
  cases ht with
  | @reject c a i e hidle he =>
      refine h.congr hcalls ?_ rfl ?_ (fun _ => rfl) (fun _ _ hf => hf)
      · simp [PoolState.returnCall, PoolState.record, PoolState.setCall, PoolState.beginCall]
      · intro c' hc'
        have hne : c' ≠ c := fun heq => h.calls.known c' hc' (heq ▸ hidle)
        rw [PoolState.returnCall_args, PoolState.beginCall_args, if_neg hne]
  | link hidle hcb hlen hacq happ => exact h.link hidle hcalls hacq happ
  | @postReturn c t hpc htime =>
      exact h.congr hcalls (linkedCalls_snoc _ _) rfl (fun c' _ => PoolState.setCall_args _ c c' _)
        (fun _ => rfl) (fun _ _ hf => hf)
  | @postWait c t hpc htime =>
      exact h.congr hcalls rfl rfl (fun c' _ => PoolState.setCall_args _ c c' _) (fun _ => rfl)
        (fun _ _ hf => hf)
  | @waitForever c t e hpc htime hends =>
      obtain ⟨hcall, hfill⟩ := setTask_filled (s := s) (t := t) (y := { s.heap t with
        semaphore := tokensAfter (s.heap t).semaphore e }) rfl
      exact h.congr hcalls (linkedCalls_snoc _ _) rfl (fun c' _ => PoolState.setCall_args _ c c' _)
        hcall hfill
  | @waitTimed c t e hpc htime hends =>
      obtain ⟨hcall, hfill⟩ := setTask_filled (s := s) (t := t) (y := { s.heap t with
        semaphore := tokensAfter (s.heap t).semaphore e }) rfl
      exact h.congr hcalls rfl rfl (fun c' _ => PoolState.setCall_args _ c c' _) hcall hfill
  | @settleCompleted c t e hpc hdone =>
      exact h.congr hcalls (linkedCalls_snoc _ _) rfl (fun c' _ => PoolState.setCall_args _ c c' _)
        (fun _ => rfl) (fun _ _ hf => hf)
  | @settlePosted c t hpc hdone | @settleError c t hpc hdone =>
      obtain ⟨hcall, hfill⟩ := setTask_filled (s := s) (t := t) (y := { s.heap t with
        next := s.taskPoolFirst }) rfl
      exact h.congr hcalls (linkedCalls_snoc _ _) rfl (fun c' _ => PoolState.setCall_args _ c c' _)
        hcall hfill
  | @settleTimeout c t hpc hdone =>
      refine h.congr hcalls (linkedCalls_snoc _ _) rfl
        (fun c' _ => PoolState.setCall_args _ c c' _) ?_ ?_
      · intro t'
        show (Function.update s.heap t _ t').call = _
        by_cases htt : t' = t
        · subst htt; simp
        · simp [htt]
      · intro t' a hf
        show (Function.update s.heap t _ t').FilledBy a
        by_cases htt : t' = t
        · subst htt
          rw [Function.update_self]
          exact ⟨hf.callback, hf.data, by simp⟩
        · rwa [Function.update_of_ne htt]
  | silent hw hs =>
      exact h.congr hcalls rfl rfl (fun _ _ => rfl) (fun _ => rfl) (fun _ _ hf => hf)
  | dequeue hw hx hlen hfirst =>
      exact h.congr hcalls (linkedCalls_snoc _ _) rfl (fun _ _ => rfl) (fun _ => rfl)
        (fun _ _ hf => hf)
  | start hw hx hcb | store hw hx | callbackReturn hw hx =>
      exact h.congr hcalls (linkedCalls_snoc _ _) rfl (fun _ _ => rfl) (fun _ => rfl)
        (fun _ _ hf => hf)
  | @giveBack w x t hw hx htimed =>
      obtain ⟨hcall, hfill⟩ := setTask_filled (s := s) (t := t) (y := { s.heap t with
        next := s.taskPoolFirst }) rfl
      exact h.congr hcalls rfl rfl (fun _ _ => rfl) hcall hfill
  | @complete w x t hw hx htimed =>
      obtain ⟨hcall, hfill⟩ := setTask_filled (s := s) (t := t) (y := { s.heap t with
        completed := true
        semaphore := (s.heap t).semaphore + 1 }) rfl
      exact h.congr hcalls rfl rfl (fun _ _ => rfl) hcall hfill
  | wake hw hx hends | stop hw | stopPost =>
      exact h.congr hcalls rfl rfl (fun _ _ => rfl) (fun _ => rfl) (fun _ _ hf => hf)

end CWebServer.WorkerThreadPool
