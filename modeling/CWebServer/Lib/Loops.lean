import Mathlib.Logic.Basic

/-!
# Loops — a `while (1)` left from inside

`body s` is one round from the state `s`: it goes on with a new state or
leaves with a result. `Rounds body n s r` says that the loop leaves with `r`
after exactly `n` rounds. It ends if a measure falls from round to round as
long as an invariant holds.
-/

namespace CWebServer.Lib

variable {σ ρ : Type*}

/-- The loop leaves after `n` rounds. -/
inductive Rounds (body : σ → σ ⊕ ρ) : Nat → σ → ρ → Prop
  | leave {s : σ} {r : ρ} : body s = .inr r → Rounds body 1 s r
  | again {n : Nat} {s s' : σ} {r : ρ} :
      body s = .inl s' → Rounds body n s' r → Rounds body (n + 1) s r

variable {body : σ → σ ⊕ ρ}

/-- A loop whose rounds are those of another one, told in other states. -/
theorem Rounds.map {σ' ρ' : Type*} {body' : σ' → σ' ⊕ ρ'} {f : σ → σ'} {g : ρ → ρ'}
    (hbody : ∀ s, body' (f s) = (body s).map f g) {n : Nat} {s : σ} {r : ρ}
    (h : Rounds body n s r) : Rounds body' n (f s) (g r) := by
  induction h with
  | @leave s r hleave =>
      apply Rounds.leave
      rw [hbody, hleave]
      rfl
  | @again n s s' r hagain _ ih =>
      refine Rounds.again ?_ ih
      rw [hbody, hagain]
      rfl

/-- **The rule for termination.** -/
theorem exists_rounds {I : σ → Prop} (measure : σ → Nat)
    (hstep : ∀ s s', I s → body s = .inl s' → I s' ∧ measure s' < measure s) {s : σ}
    (hs : I s) :
    ∃ n r, n ≤ measure s + 1 ∧ Rounds body n s r := by
  induction hm : measure s using Nat.strongRecOn generalizing s with
  | ind m ih =>
      cases hbody : body s with
      | inr r => exact ⟨1, r, Nat.le_add_left 1 m, .leave hbody⟩
      | inl s' =>
          obtain ⟨hs', hlt⟩ := hstep s s' hs hbody
          obtain ⟨n, r, hn, hrounds⟩ := ih (measure s') (hm ▸ hlt) hs' rfl
          exact ⟨n + 1, r, by omega, .again hbody hrounds⟩

/-- **The rule for the result**: what the rounds keep holds where the loop is
left. -/
theorem Rounds.result {I : σ → Prop} {n : Nat} {s : σ} {r : ρ} (h : Rounds body n s r)
    (hs : I s) (hstep : ∀ s s', I s → body s = .inl s' → I s') :
    ∃ s', I s' ∧ body s' = .inr r := by
  induction h with
  | leave hbody => exact ⟨_, hs, hbody⟩
  | again hbody _ ih => exact ih (hstep _ _ hs hbody)

/-- The first `fuel` rounds, and the result if the loop was left in one of
them. -/
def runRounds (body : σ → σ ⊕ ρ) : Nat → σ → Option ρ
  | 0, _ => none
  | fuel + 1, s =>
      match body s with
      | .inl s' => runRounds body fuel s'
      | .inr r => some r

theorem runRounds_leave {s : σ} {r : ρ} (h : body s = .inr r) {fuel : Nat} (hfuel : 0 < fuel) :
    runRounds body fuel s = some r := by
  obtain ⟨fuel, rfl⟩ := Nat.exists_eq_add_of_le' hfuel
  rw [runRounds, h]

theorem runRounds_again {s s' : σ} (h : body s = .inl s') (fuel : Nat) :
    runRounds body (fuel + 1) s = runRounds body fuel s' := by
  rw [runRounds, h]

end CWebServer.Lib
