import Mathlib.Data.List.Basic

/-!
# Machines — step functions with outputs

A component that answers each call: `step s c` is the answer to the call `c`
in state `s`, and the next state. Two machines that answer alike from related
states, and stay related, answer every sequence of calls alike.
-/

namespace CWebServer.Lib

variable {σ τ ι κ ω : Type*}

/-- The answers to a sequence of calls, and the state they leave. -/
def answers (step : σ → ι → ω × σ) : List ι → σ → List ω × σ
  | [], s => ([], s)
  | c :: cs, s =>
      ((step s c).1 :: (answers step cs (step s c).2).1, (answers step cs (step s c).2).2)

@[simp] theorem answers_nil (step : σ → ι → ω × σ) (s : σ) :
    answers step [] s = ([], s) := rfl

theorem answers_append (step : σ → ι → ω × σ) (cs cs' : List ι) (s : σ) :
    answers step (cs ++ cs') s
      = ((answers step cs s).1 ++ (answers step cs' (answers step cs s).2).1,
        (answers step cs' (answers step cs s).2).2) := by
  induction cs generalizing s with
  | nil => rfl
  | cons c cs ih => simp [answers, ih]

/-- **The simulation rule**: answers that agree call by call agree for every
sequence of calls, and the states at the end are related again. -/
theorem answers_simulates {step : σ → ι → ω × σ} {step' : τ → κ → ω × τ}
    {R : σ → τ → Prop} (f : ι → κ)
    (hstep : ∀ s t c, R s t →
      (step s c).1 = (step' t (f c)).1 ∧ R (step s c).2 (step' t (f c)).2)
    (cs : List ι) {s : σ} {t : τ} (h : R s t) :
    (answers step cs s).1 = (answers step' (cs.map f) t).1
      ∧ R (answers step cs s).2 (answers step' (cs.map f) t).2 := by
  induction cs generalizing s t with
  | nil => exact ⟨rfl, h⟩
  | cons c cs ih =>
      obtain ⟨hanswer, hnext⟩ := hstep s t c h
      obtain ⟨hanswers, hlast⟩ := ih hnext
      exact ⟨by simp only [answers, List.map_cons, hanswer, hanswers], hlast⟩

end CWebServer.Lib
