import Mathlib.Logic.Basic

/-!
# Runs — guarded runs of a partial step function

A system of threads is a function `step : σ → α → Option σ`: the action `a`
is one atomic step of one thread, `none` says that the thread cannot take it
now. An interleaving is a list of actions. A statement about the runs whose
steps all meet a condition uses `Reaches step ok`; a statement about every
run takes `ok := Always`.

The second half is for histories: a run that appends an event per step, and
properties of the form "each event finds such a past".
-/

namespace CWebServer.Runs

variable {σ α ε : Type*}

/-- No condition on the steps. -/
def Always (_ : σ) (_ : α) : Prop := True

instance (s : σ) (a : α) : Decidable (Always s a) := isTrue trivial

/-- `t` is reached from `s` by steps that each meet `ok` in the state they
are taken from. -/
inductive Reaches (step : σ → α → Option σ) (ok : σ → α → Prop) (s : σ) : σ → Prop
  | refl : Reaches step ok s s
  | tail {t u : σ} {a : α} :
      Reaches step ok s t → ok t a → step t a = some u → Reaches step ok s u

variable {step : σ → α → Option σ} {ok : σ → α → Prop}

theorem Reaches.trans {s t u : σ} (h : Reaches step ok s t)
    (h' : Reaches step ok t u) : Reaches step ok s u := by
  induction h' with
  | refl => exact h
  | tail _ hok hs ih => exact ih.tail hok hs

/-- **The run rule**: what holds at the start and is kept by every allowed
step holds at the end. -/
theorem Reaches.invariant {I : σ → Prop} {s t : σ} (h : Reaches step ok s t)
    (hinit : I s)
    (hstep : ∀ s a s', I s → ok s a → step s a = some s' → I s') : I t := by
  induction h with
  | refl => exact hinit
  | tail _ hok hs ih => exact hstep _ _ _ ih hok hs

/-- Run a list of actions; `none` when a step is refused by `step` or by
`ok`. -/
def run (step : σ → α → Option σ) (ok : σ → α → Prop)
    [∀ s a, Decidable (ok s a)] : List α → σ → Option σ
  | [], s => some s
  | a :: as, s => if ok s a then (step s a).bind (run step ok as) else none

/-- What `run` computes is reached. -/
theorem run_reaches [∀ s a, Decidable (ok s a)] {as : List α} {s t : σ}
    (h : run step ok as s = some t) : Reaches step ok s t := by
  induction as generalizing s with
  | nil =>
      simp only [run, Option.some.injEq] at h
      subst h
      exact .refl
  | cons a as ih =>
      simp only [run] at h
      split at h
      · rename_i hok
        obtain ⟨s', hs, hr⟩ := Option.bind_eq_some_iff.mp h
        exact (Reaches.refl.tail hok hs).trans (ih hr)
      · cases h

theorem reaches_get [∀ s a, Decidable (ok s a)] {as : List α} {s : σ}
    (h : (run step ok as s).isSome = true) :
    Reaches step ok s ((run step ok as s).get h) :=
  run_reaches (Option.some_get h).symm

/-! ## Histories -/

/-- Every event of `h` finds a past that satisfies `P`. -/
def Past (P : List ε → ε → Prop) (h : List ε) : Prop :=
  ∀ pre e post, h = pre ++ e :: post → P pre e

theorem Past.nil {P : List ε → ε → Prop} : Past P [] := by
  intro pre e post h
  simp at h

/-- **The history rule**: a new last event only has to look at the history
before it. -/
theorem Past.snoc {P : List ε → ε → Prop} {h : List ε} {e : ε}
    (hp : Past P h) (he : P h e) : Past P (h ++ [e]) := by
  intro pre x post heq
  rcases List.eq_nil_or_concat post with rfl | ⟨post', y, rfl⟩
  · obtain ⟨rfl, hx⟩ := List.append_inj' heq rfl
    cases hx
    exact he
  · rw [List.concat_eq_append, ← List.cons_append, ← List.append_assoc] at heq
    obtain ⟨rfl, -⟩ := List.append_inj' heq rfl
    exact hp pre x post' rfl

theorem Past.imp {P Q : List ε → ε → Prop} {h : List ε} (hp : Past P h)
    (himp : ∀ pre, ∀ e ∈ h, P pre e → Q pre e) : Past Q h :=
  fun pre e post heq => himp pre e (by simp [heq]) (hp pre e post heq)

end CWebServer.Runs
