import Mathlib.Data.List.TakeWhile
import Mathlib.Data.List.Basic

/-!
# Delimiters — a text cut at one symbol

`splitFirst d s` and `splitLast d s` cut `s` at the first and at the last `d`
in it. The text before the first symbol of a class is `takeWhile`; the lemmas
at the end say where it stops.
-/

namespace CWebServer.Lib

variable {α : Type*} [DecidableEq α] {d : α}

/-- The text before the first `d`, and the text behind it. -/
def splitFirst (d : α) : List α → Option (List α × List α)
  | [] => none
  | a :: s => if a = d then some ([], s) else (splitFirst d s).map fun p => (a :: p.1, p.2)

/-- The text before the last `d`, and the text behind it. -/
def splitLast (d : α) : List α → Option (List α × List α)
  | [] => none
  | a :: s =>
      match splitLast d s with
      | some p => some (a :: p.1, p.2)
      | none => if a = d then some ([], s) else none

/-! ## The first one -/

theorem splitFirst_some {s w u : List α} (h : splitFirst d s = some (w, u)) :
    s = w ++ d :: u ∧ d ∉ w := by
  induction s generalizing w with
  | nil => cases h
  | cons a s ih =>
      rw [splitFirst] at h
      split at h
      · rename_i had
        cases h
        simp [had]
      · rename_i hne
        obtain ⟨⟨w', u'⟩, hsplit, heq⟩ := Option.map_eq_some_iff.mp h
        cases heq
        obtain ⟨hs, hw⟩ := ih hsplit
        refine ⟨by rw [hs]; rfl, ?_⟩
        rw [List.mem_cons, not_or]
        exact ⟨Ne.symm hne, hw⟩

theorem splitFirst_append {w : List α} (h : d ∉ w) (u : List α) :
    splitFirst d (w ++ d :: u) = some (w, u) := by
  induction w with
  | nil => simp [splitFirst]
  | cons a w ih =>
      rw [List.mem_cons, not_or] at h
      rw [List.cons_append, splitFirst, if_neg (Ne.symm h.1), ih h.2]
      rfl

theorem splitFirst_eq_none {s : List α} : splitFirst d s = none ↔ d ∉ s := by
  constructor
  · intro h hmem
    obtain ⟨w, u, rfl, hw⟩ := List.eq_append_cons_of_mem hmem
    rw [splitFirst_append hw] at h
    cases h
  · intro h
    cases hsplit : splitFirst d s with
    | none => rfl
    | some p =>
        obtain ⟨hs, -⟩ := splitFirst_some hsplit
        exact absurd (hs ▸ by simp) h

/-! ## The last one -/

theorem splitLast_eq_none {s : List α} : splitLast d s = none ↔ d ∉ s := by
  induction s with
  | nil => simp [splitLast]
  | cons a s ih =>
      rw [splitLast, List.mem_cons, not_or, ← ih]
      cases splitLast d s with
      | none => simp [eq_comm]
      | some p => simp

theorem splitLast_append {u : List α} (h : d ∉ u) (w : List α) :
    splitLast d (w ++ d :: u) = some (w, u) := by
  induction w with
  | nil => simp [splitLast, splitLast_eq_none.mpr h]
  | cons a w ih => rw [List.cons_append, splitLast, ih]

theorem splitLast_some {s w u : List α} (h : splitLast d s = some (w, u)) :
    s = w ++ d :: u ∧ d ∉ u := by
  induction s generalizing w with
  | nil => cases h
  | cons a s ih =>
      rw [splitLast] at h
      cases hsplit : splitLast d s with
      | some p =>
          simp only [hsplit] at h
          cases h
          obtain ⟨hs, hu⟩ := ih hsplit
          exact ⟨by rw [hs]; rfl, hu⟩
      | none =>
          simp only [hsplit] at h
          split at h
          · rename_i had
            cases h
            exact ⟨by rw [had]; rfl, splitLast_eq_none.mp hsplit⟩
          · cases h

/-- Behind a text without the symbol. -/
theorem splitLast_append_left {w : List α} (h : d ∉ w) (s : List α) :
    splitLast d (w ++ s) = (splitLast d s).map fun p => (w ++ p.1, p.2) := by
  cases hsplit : splitLast d s with
  | none =>
      have hs := splitLast_eq_none.mp hsplit
      exact splitLast_eq_none.mpr fun hmem => (List.mem_append.mp hmem).elim h hs
  | some p =>
      obtain ⟨hs, hu⟩ := splitLast_some hsplit
      rw [hs, ← List.append_assoc, splitLast_append hu]
      rfl

/-- Before a text without the symbol. -/
theorem splitLast_append_right {t : List α} (h : d ∉ t) (s : List α) :
    splitLast d (s ++ t) = (splitLast d s).map fun p => (p.1, p.2 ++ t) := by
  cases hsplit : splitLast d s with
  | none =>
      have hs := splitLast_eq_none.mp hsplit
      exact splitLast_eq_none.mpr fun hmem => (List.mem_append.mp hmem).elim hs h
  | some p =>
      obtain ⟨hs, hu⟩ := splitLast_some hsplit
      have hut : d ∉ p.2 ++ t := fun hmem => (List.mem_append.mp hmem).elim hu h
      rw [hs, List.append_assoc, List.cons_append, splitLast_append hut]
      rfl

theorem splitFirst_cons_of_ne {a : α} (h : a ≠ d) (s : List α) :
    splitFirst d (a :: s) = (splitFirst d s).map fun p => (a :: p.1, p.2) := by
  rw [splitFirst, if_neg h]

theorem splitLast_cons_of_ne {a : α} (h : a ≠ d) (s : List α) :
    splitLast d (a :: s) = (splitLast d s).map fun p => (a :: p.1, p.2) :=
  splitLast_append_left (w := [a]) (by simpa using Ne.symm h) s

/-! ## Up to a class of symbols -/

omit [DecidableEq α] in
/-- The text before the first symbol of a class ends where that symbol
stands. -/
theorem takeWhile_append_stop {p : α → Bool} {w s : List α} (hw : ∀ a ∈ w, p a = true)
    (hs : ∀ a, s.head? = some a → p a = false) :
    (w ++ s).takeWhile p = w ∧ (w ++ s).dropWhile p = s := by
  have hstop : s.takeWhile p = [] ∧ s.dropWhile p = s := by
    cases s with
    | nil => exact ⟨rfl, rfl⟩
    | cons a s =>
        have ha : ¬ p a = true := by simp [hs a rfl]
        exact ⟨List.takeWhile_cons_of_neg ha, List.dropWhile_cons_of_neg ha⟩
  rw [List.takeWhile_append_of_pos hw, List.dropWhile_append_of_pos hw, hstop.1, hstop.2,
    List.append_nil]
  exact ⟨rfl, rfl⟩

omit [DecidableEq α] in
theorem drop_takeWhile (p : α → Bool) (s : List α) :
    s.drop (s.takeWhile p).length = s.dropWhile p := by
  have hdrop : (s.takeWhile p ++ s.dropWhile p).drop (s.takeWhile p).length = s.dropWhile p :=
    List.drop_left
  rwa [List.takeWhile_append_dropWhile] at hdrop

omit [DecidableEq α] in
/-- What is left begins with a symbol of the class. -/
theorem head_drop_takeWhile {p : α → Bool} {s : List α} {a : α}
    (h : (s.drop (s.takeWhile p).length).head? = some a) : p a = false := by
  have hhead := List.head?_dropWhile_not p s
  rw [drop_takeWhile] at h
  rwa [h] at hhead

omit [DecidableEq α] in
/-- A text behind that begins with a symbol of the class changes nothing in
front of it. -/
theorem takeWhile_append_mark {p : α → Bool} {c : α} (hc : p c = false) (s t : List α) :
    (s ++ c :: t).takeWhile p = s.takeWhile p
      ∧ (s ++ c :: t).dropWhile p = s.dropWhile p ++ c :: t := by
  induction s with
  | nil => simp [hc]
  | cons a s ih =>
      by_cases ha : p a
      · simp [ha, ih]
      · simp [ha]

omit [DecidableEq α] in
/-- A prefix without the symbol `c` ends in front of it. -/
theorem prefix_append_mark {c : α} {p : List α} (hc : c ∉ p) (s t : List α) :
    p <+: s ++ c :: t ↔ p <+: s := by
  constructor
  · intro h
    rcases List.prefix_or_prefix_of_prefix h (List.prefix_append s (c :: t)) with hp | hs
    · exact hp
    · obtain ⟨u, rfl⟩ := hs
      cases u with
      | nil => simp
      | cons b u =>
          have hb : b = c := (List.cons_prefix_cons.mp ((List.prefix_append_right_inj s).mp h)).1
          exact absurd (hb ▸ by simp) hc
  · exact fun h => h.trans (List.prefix_append s (c :: t))

end CWebServer.Lib
