import Mathlib.Data.List.Infix

/-!
# Tokens — the words of a text

`tokens p l` are the maximal runs of symbols of `l` that are no separators:
the non-empty ones among the pieces that `List.splitOnP` gives.
-/

namespace CWebServer.Lib

variable {α : Type*} {p : α → Bool}

def tokens (p : α → Bool) (l : List α) : List (List α) :=
  (l.splitOnP p).filter fun w => !w.isEmpty

/-- Separators in front of a text do not matter. -/
theorem tokens_separators {sp : List α} (hsp : ∀ x ∈ sp, p x = true) (l : List α) :
    tokens p (sp ++ l) = tokens p l := by
  induction sp with
  | nil => rfl
  | cons x sp ih =>
      have hx : p x = true := hsp x (by simp)
      have htail := ih fun y hy => hsp y (by simp [hy])
      rw [tokens, List.cons_append, List.splitOnP_cons_eq_if_modifyHead, if_pos hx]
      simpa [tokens] using htail

/-- A word up to the next separator is the first token. -/
theorem tokens_word {w : List α} (hw : w ≠ []) (hnot : ∀ x ∈ w, p x = false) {s : α}
    (hs : p s = true) (l : List α) : tokens p (w ++ s :: l) = w :: tokens p l := by
  rw [tokens, List.splitOnP_append_cons_of_forall_mem hnot s hs]
  simp [tokens, hw]

/-- The same with a non-empty run of separators behind the word. -/
theorem tokens_word_separators {w sp : List α} (hw : w ≠ []) (hnot : ∀ x ∈ w, p x = false)
    (hne : sp ≠ []) (hsp : ∀ x ∈ sp, p x = true) (l : List α) :
    tokens p (w ++ (sp ++ l)) = w :: tokens p l := by
  obtain ⟨s, sp', rfl⟩ := List.exists_cons_of_ne_nil hne
  rw [List.cons_append, tokens_word hw hnot (hsp s (by simp)),
    tokens_separators fun x hx => hsp x (by simp [hx])]

/-- The same with the end of the text behind the word. -/
theorem tokens_word_end {w : List α} (hw : w ≠ []) (hnot : ∀ x ∈ w, p x = false) :
    tokens p w = [w] := by
  rw [tokens, List.splitOnP_eq_singleton hnot]
  simp [hw]

/-- No token goes over a separator. -/
theorem tokens_append_cons (l : List α) {s : α} (hs : p s = true) (l' : List α) :
    tokens p (l ++ s :: l') = tokens p l ++ tokens p l' := by
  rw [tokens, List.splitOnP_append_cons l l' hs, List.filter_append]
  rfl

theorem separators_of_tokens_nil {l : List α} (h : tokens p l = []) : ∀ x ∈ l, p x = true := by
  induction l with
  | nil => simp
  | cons x l ih =>
      cases hx : p x with
      | true =>
          have hsingle : ∀ y ∈ [x], p y = true := by simpa using hx
          have htail := tokens_separators hsingle l
          rw [List.singleton_append, h] at htail
          intro y hy
          rcases List.mem_cons.mp hy with rfl | hy
          · exact hx
          · exact ih htail.symm y hy
      | false =>
          -- the first piece has `x` in it
          obtain ⟨w, ws, hpieces⟩ := List.exists_cons_of_ne_nil (List.splitOnP_ne_nil p l)
          rw [tokens, List.splitOnP_cons_eq_if_modifyHead, if_neg (by simp [hx]), hpieces] at h
          simp at h

end CWebServer.Lib
