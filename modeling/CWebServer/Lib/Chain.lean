import Mathlib.Logic.Function.Basic
import Mathlib.Data.List.Nodup

/-!
# Chain — NULL-terminated singly linked lists in a heap

`Chain next p l` says that following `next` from the pointer `p` visits the
cells of `l`, in order, and then meets NULL. A cell's `next` field is one
location shared by every list the cell may stand in, so each operation comes
with the condition under which it leaves the other chains alone: the cell
written is not one of theirs.
-/

namespace CWebServer.Lib

variable {ν : Type*}

/-- A write to one record leaves a field of all records alone, when it leaves
that record's alone. -/
theorem apply_update_of_eq {ρ φ : Type*} [DecidableEq ν] (g : ρ → φ) {heap : ν → ρ}
    {a : ν} {y : ρ} (h : g y = g (heap a)) (b : ν) :
    g (Function.update heap a y b) = g (heap b) := by
  by_cases hba : b = a
  · rw [hba, Function.update_self, h]
  · rw [Function.update_of_ne hba]

/-- The cells met from `p` are exactly `l`. -/
def Chain (next : ν → Option ν) : Option ν → List ν → Prop
  | p, [] => p = none
  | p, a :: l => p = some a ∧ Chain next (next a) l

namespace Chain

@[simp] theorem nil_iff {next : ν → Option ν} {p : Option ν} :
    Chain next p [] ↔ p = none := Iff.rfl

@[simp] theorem cons_iff {next : ν → Option ν} {p : Option ν} {a : ν} {l : List ν} :
    Chain next p (a :: l) ↔ p = some a ∧ Chain next (next a) l := Iff.rfl

theorem head {next : ν → Option ν} {p : Option ν} {l : List ν}
    (h : Chain next p l) : p = l.head? := by
  cases l with
  | nil => exact h
  | cons a l => exact h.1

/-- A pointer determines its chain. -/
theorem unique {next : ν → Option ν} {p : Option ν} {l l' : List ν}
    (h : Chain next p l) (h' : Chain next p l') : l = l' := by
  induction l generalizing p l' with
  | nil =>
      cases l' with
      | nil => rfl
      | cons a l' => rw [h] at h'; exact absurd h'.1 (by simp)
  | cons a l ih =>
      cases l' with
      | nil => rw [h'] at h; exact absurd h.1 (by simp)
      | cons b l' =>
          obtain ⟨ha, hl⟩ := h
          obtain ⟨hb, hl'⟩ := h'
          rw [ha, Option.some.injEq] at hb
          subst hb
          rw [ih hl hl']

/-- Only the `next` fields of the chain's own cells matter. -/
theorem congr {next next' : ν → Option ν} {p : Option ν} {l : List ν}
    (h : Chain next p l) (heq : ∀ a ∈ l, next' a = next a) : Chain next' p l := by
  induction l generalizing p with
  | nil => exact h
  | cons a l ih =>
      obtain ⟨ha, hl⟩ := h
      refine ⟨ha, ih ?_ (fun b hb => heq b (by simp [hb]))⟩
      rw [heq a (by simp)]
      exact hl

/-- Unlinking the first cell. -/
theorem pop {next : ν → Option ν} {a : ν} {l : List ν}
    (h : Chain next (some a) l) : ∃ l', l = a :: l' ∧ Chain next (next a) l' := by
  cases l with
  | nil => exact absurd h (by simp)
  | cons b l' =>
      obtain ⟨hb, hl⟩ := h
      rw [Option.some.injEq] at hb
      subst hb
      exact ⟨l', rfl, hl⟩

variable [DecidableEq ν]

/-- Writing the `next` field of a cell outside the chain. -/
theorem update_of_notMem {next : ν → Option ν} {p : Option ν} {l : List ν}
    {a : ν} {q : Option ν} (h : Chain next p l) (ha : a ∉ l) :
    Chain (Function.update next a q) p l := by
  apply h.congr
  intro b hb
  have hne : b ≠ a := fun e => ha (e ▸ hb)
  rw [Function.update_of_ne hne]

/-- Linking a cell in at the front. -/
theorem push {next : ν → Option ν} {p : Option ν} {l : List ν} {a : ν}
    (h : Chain next p l) (ha : a ∉ l) :
    Chain (Function.update next a p) (some a) (a :: l) := by
  refine ⟨rfl, ?_⟩
  rw [Function.update_self]
  exact h.update_of_notMem ha

/-- Linking a cell in behind the last one. -/
theorem snoc {next : ν → Option ν} {p : Option ν} {l : List ν} {a b : ν}
    (h : Chain next p (l ++ [b])) (hb : b ∉ l) (ha : a ∉ l ++ [b])
    (hend : next a = none) :
    Chain (Function.update next b (some a)) p (l ++ [b, a]) := by
  induction l generalizing p with
  | nil =>
      have hne : a ≠ b := by
        intro e
        exact ha (by simp [e])
      exact ⟨h.1, by simp [Function.update_of_ne hne, hend]⟩
  | cons c l ih =>
      obtain ⟨hc, hl⟩ := h
      simp only [List.cons_append, List.mem_cons, not_or] at hb ha
      refine ⟨hc, ?_⟩
      rw [Function.update_of_ne (Ne.symm hb.1)]
      exact ih hl hb.2 ha.2

end Chain

end CWebServer.Lib
