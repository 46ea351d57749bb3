import CWebServer.Lib.Runs
import Mathlib.Data.List.Count

/-!
# Progress — how many steps a run can take

The steps of a run are of two kinds: those that `mine` picks, which bring the
run nearer to a goal, and the rest. A rank that the former lower and the
latter do not raise bounds how many of the former there are before the goal,
however the two are interleaved. When each state but the goal has a step of
the first kind, the goal can also be reached by these alone.
-/

namespace CWebServer.Runs

variable {σ α : Type*} {step : σ → α → Option σ} {ok : σ → α → Prop}

/-- Where `I` holds, the steps of `mine` lower the rank, and no step raises it,
unless the goal is reached. The goal is not left again. -/
structure Approaches (step : σ → α → Option σ) (ok : σ → α → Prop)
    (I goal : σ → Prop) (mine : α → Bool) (rank : σ → Nat) : Prop where
  keeps : ∀ {s a s'}, I s → ok s a → step s a = some s' → I s'
  stays : ∀ {s a s'}, I s → goal s → ok s a → step s a = some s' → goal s'
  lowers : ∀ {s a s'}, I s → ok s a → step s a = some s' →
    goal s' ∨ rank s' + (if mine a then 1 else 0) ≤ rank s

variable {I goal : σ → Prop} {mine : α → Bool} {rank : σ → Nat}

theorem run_cons [∀ s a, Decidable (ok s a)] {a : α} {as : List α} {s t : σ}
    (h : run step ok (a :: as) s = some t) :
    ok s a ∧ ∃ s', step s a = some s' ∧ run step ok as s' = some t := by
  simp only [run] at h
  split at h
  · rename_i hok
    exact ⟨hok, Option.bind_eq_some_iff.mp h⟩
  · cases h

namespace Approaches

theorem run_keeps [∀ s a, Decidable (ok s a)] (h : Approaches step ok I goal mine rank)
    {as : List α} {s t : σ} (hrun : run step ok as s = some t) (hi : I s) : I t :=
  (run_reaches hrun).invariant hi fun _ _ _ hi hok hs => h.keeps hi hok hs

theorem run_stays [∀ s a, Decidable (ok s a)] (h : Approaches step ok I goal mine rank)
    {as : List α} {s t : σ} (hrun : run step ok as s = some t) (hi : I s) (hg : goal s) :
    goal t := by
  induction as generalizing s with
  | nil =>
      cases hrun
      exact hg
  | cons a as ih =>
      obtain ⟨hok, s', hs, hrest⟩ := run_cons hrun
      exact ih hrest (h.keeps hi hok hs) (h.stays hi hg hok hs)

/-- **The counting rule**: a run that has not reached the goal has taken at
most as many steps of `mine` as its rank has fallen. -/
theorem countP_add_rank_le [∀ s a, Decidable (ok s a)] (h : Approaches step ok I goal mine rank)
    {as : List α} {s t : σ} (hrun : run step ok as s = some t) (hi : I s) (hg : ¬ goal t) :
    as.countP mine + rank t ≤ rank s := by
  induction as generalizing s with
  | nil =>
      cases hrun
      simp
  | cons a as ih =>
      obtain ⟨hok, s', hs, hrest⟩ := run_cons hrun
      have hi' := h.keeps hi hok hs
      have hle := ih hrest hi'
      rcases h.lowers hi hok hs with hgoal | hrank
      · exact absurd (h.run_stays hrest hi' hgoal) hg
      · rw [List.countP_cons]
        omega

/-- Runs with more steps of `mine` than the rank have reached the goal. -/
theorem goal_of_rank_lt [∀ s a, Decidable (ok s a)] (h : Approaches step ok I goal mine rank)
    {as : List α} {s t : σ} (hrun : run step ok as s = some t) (hi : I s)
    (hlt : rank s < as.countP mine) : goal t := by
  by_contra hg
  have := h.countP_add_rank_le hrun hi hg
  omega

/-- **The descent rule**: where a step of `mine` is always possible, the goal
can be reached. -/
theorem exists_reaches (h : Approaches step ok I goal mine rank)
    (hcan : ∀ s, I s → ¬ goal s → ∃ a, mine a = true ∧ ok s a ∧ (step s a).isSome)
    {s : σ} (hi : I s) : ∃ t, Reaches step ok s t ∧ goal t := by
  induction hr : rank s using Nat.strongRecOn generalizing s with
  | _ n ih =>
      by_cases hg : goal s
      · exact ⟨s, .refl, hg⟩
      · obtain ⟨a, hmine, hok, hsome⟩ := hcan s hi hg
        obtain ⟨s', hs⟩ := Option.isSome_iff_exists.mp hsome
        rcases h.lowers hi hok hs with hgoal | hrank
        · exact ⟨s', Reaches.refl.tail hok hs, hgoal⟩
        · rw [if_pos hmine] at hrank
          obtain ⟨t, ht, hgt⟩ := ih (rank s') (by omega) (h.keeps hi hok hs) rfl
          exact ⟨t, (Reaches.refl.tail hok hs).trans ht, hgt⟩

end Approaches

end CWebServer.Runs
