import Mathlib.Data.List.Infix

/-!
# Lines — text cut into lines by a two-symbol terminator

`splitLines c d s` cuts `s` behind every occurrence of `c d`, from left to
right: the complete lines, without their terminators, and the tail behind the
last one. Text that arrives in pieces is cut the same way wherever the pieces
end: `splitLines_append` says that only the tail has to be looked at again.
-/

namespace CWebServer.Lib

variable {α : Type*}

/-- The text that these lines, with their terminators, make up. -/
def joinLines (c d : α) (ls : List (List α)) : List α :=
  ls.flatMap fun l => l ++ [c, d]

/-- Text in front of the first line. -/
def prependLine (p : List α) : List (List α) → List (List α)
  | [] => []
  | l :: ls => (p ++ l) :: ls

/-- The terminator stands nowhere in the line. -/
def NoTerminator (c d : α) (l : List α) : Prop := ¬ [c, d] <:+: l

variable {c d : α}

@[simp] theorem joinLines_nil : joinLines c d [] = [] := rfl

@[simp] theorem joinLines_cons (l : List α) (ls : List (List α)) :
    joinLines c d (l :: ls) = l ++ c :: d :: joinLines c d ls := by
  simp [joinLines]

@[simp] theorem joinLines_append (ls ls' : List (List α)) :
    joinLines c d (ls ++ ls') = joinLines c d ls ++ joinLines c d ls' :=
  List.flatMap_append

@[simp] theorem prependLine_empty (ls : List (List α)) : prependLine [] ls = ls := by
  cases ls <;> rfl

theorem prependLine_append (p q : List α) (ls : List (List α)) :
    prependLine (p ++ q) ls = prependLine p (prependLine q ls) := by
  cases ls <;> simp [prependLine]

theorem noTerminator_nil : NoTerminator c d [] := by
  intro h
  simpa using h.length_le

theorem noTerminator_singleton (a : α) : NoTerminator c d [a] := by
  intro h
  simpa using h.length_le

theorem noTerminator_cons {a b : α} {l : List α} (h : ¬ (a = c ∧ b = d))
    (hl : NoTerminator c d (b :: l)) : NoTerminator c d (a :: b :: l) := by
  intro hin
  rcases List.infix_cons_iff.mp hin with hp | hi
  · simp only [List.cons_prefix_cons] at hp
    exact h ⟨hp.1.symm, hp.2.1.symm⟩
  · exact hl hi

variable [DecidableEq α]

/-- The complete lines of a text, and what stands behind the last of them. -/
def splitLines (c d : α) : List α → List (List α) × List α
  | [] => ([], [])
  | [a] => ([], [a])
  | a :: b :: s =>
      if a = c ∧ b = d then ([] :: (splitLines c d s).1, (splitLines c d s).2)
      else
        match splitLines c d (b :: s) with
        | ([], t) => ([], a :: t)
        | (l :: ls, t) => ((a :: l) :: ls, t)

/-- Nothing is lost. -/
theorem joinLines_splitLines (s : List α) :
    joinLines c d (splitLines c d s).1 ++ (splitLines c d s).2 = s := by
  fun_induction splitLines c d s with
  | case1 => rfl
  | case2 a => rfl
  | case3 a b s h ih =>
      obtain ⟨rfl, rfl⟩ := h
      simp [ih]
  | case4 a b s h t heq ih =>
      rw [heq] at ih
      simpa using ih
  | case5 a b s h l ls t heq ih =>
      rw [heq] at ih
      simpa using ih

/-- Text without a terminator is all tail. -/
theorem tail_of_noLines {s : List α} (h : (splitLines c d s).1 = []) :
    (splitLines c d s).2 = s := by
  have := joinLines_splitLines (c := c) (d := d) s
  rwa [h, joinLines_nil, List.nil_append] at this

theorem splitLines_cons_of_not {a b : α} {s : List α} (h : ¬ (a = c ∧ b = d)) :
    splitLines c d (a :: b :: s) =
      match splitLines c d (b :: s) with
      | ([], t) => ([], a :: t)
      | (l :: ls, t) => ((a :: l) :: ls, t) := by
  rw [splitLines, if_neg h]

theorem splitLines_fst_cons_of_not {a b : α} {s : List α} (h : ¬ (a = c ∧ b = d)) :
    (splitLines c d (a :: b :: s)).1 = prependLine [a] (splitLines c d (b :: s)).1 := by
  rw [splitLines_cons_of_not h]
  rcases splitLines c d (b :: s) with ⟨_ | ⟨l, ls⟩, t⟩ <;> rfl

/-- **Cutting resumes at the tail**: the lines of a longer text are the lines
found so far and the lines of the tail with the new piece. -/
theorem splitLines_append (s x : List α) :
    splitLines c d (s ++ x) =
      ((splitLines c d s).1 ++ (splitLines c d ((splitLines c d s).2 ++ x)).1,
        (splitLines c d ((splitLines c d s).2 ++ x)).2) := by
  fun_induction splitLines c d s with
  | case1 => simp
  | case2 a => simp
  | case3 a b s h ih =>
      obtain ⟨rfl, rfl⟩ := h
      simp [splitLines, ih]
  | case4 a b s h t heq ih =>
      -- no line so far: the tail is the whole text
      have ht : t = b :: s := by
        have := tail_of_noLines (c := c) (d := d) (s := b :: s) (by rw [heq])
        rwa [heq] at this
      subst ht
      simp
  | case5 a b s h l ls t heq ih =>
      rw [heq] at ih
      simp only [List.cons_append] at ih ⊢
      rw [splitLines_cons_of_not h, ih]

/-- A line ends where its terminator first stands. -/
theorem noTerminator_splitLines (s : List α) :
    (∀ l ∈ (splitLines c d s).1, NoTerminator c d l)
      ∧ NoTerminator c d (splitLines c d s).2 := by
  fun_induction splitLines c d s with
  | case1 => exact ⟨by simp, noTerminator_nil⟩
  | case2 a => exact ⟨by simp, noTerminator_singleton a⟩
  | case3 a b s h ih =>
      refine ⟨?_, ih.2⟩
      intro l hl
      rcases List.mem_cons.mp hl with rfl | hl
      · exact noTerminator_nil
      · exact ih.1 l hl
  | case4 a b s h t heq ih =>
      rw [heq] at ih
      have ht := tail_of_noLines (c := c) (d := d) (s := b :: s) (by rw [heq])
      rw [heq] at ht
      subst ht
      exact ⟨by simp, noTerminator_cons h ih.2⟩
  | case5 a b s h l ls t heq ih =>
      have hjoin := joinLines_splitLines (c := c) (d := d) (b :: s)
      rw [heq] at ih hjoin
      refine ⟨?_, ih.2⟩
      intro l' hl'
      rcases List.mem_cons.mp hl' with rfl | hl'
      · have hl := ih.1 l (by simp)
        cases l with
        | nil => exact noTerminator_singleton a
        | cons x l =>
            rw [joinLines_cons, List.cons_append, List.cons_append] at hjoin
            obtain rfl := (List.cons.inj hjoin).1
            exact noTerminator_cons h hl
      · exact ih.1 l' (List.mem_cons_of_mem l hl')

/-- Text without a terminator has no complete line. -/
theorem splitLines_of_noTerminator {s : List α} (h : NoTerminator c d s) :
    splitLines c d s = ([], s) := by
  have hjoin := joinLines_splitLines (c := c) (d := d) s
  cases hls : (splitLines c d s).1 with
  | nil => exact Prod.ext hls (tail_of_noLines hls)
  | cons l ls =>
      rw [hls, joinLines_cons] at hjoin
      exact absurd ⟨l, joinLines c d ls ++ (splitLines c d s).2, by simpa using hjoin⟩ h

/-- **Written lines are found again**, whatever follows them. A terminator of
two different symbols cannot begin in the last symbol of a line. -/
theorem splitLines_joinLines (hcd : c ≠ d) {ls : List (List α)}
    (h : ∀ l ∈ ls, NoTerminator c d l) (s : List α) :
    splitLines c d (joinLines c d ls ++ s)
      = (ls ++ (splitLines c d s).1, (splitLines c d s).2) := by
  have hline : ∀ (l : List α) (s : List α), NoTerminator c d l →
      splitLines c d (l ++ c :: d :: s) = (l :: (splitLines c d s).1, (splitLines c d s).2) := by
    intro l
    induction l with
    | nil => simp [splitLines]
    | cons a l ih =>
        intro s hl
        have hrest : NoTerminator c d l := fun hin => hl (hin.trans (List.suffix_cons a l).isInfix)
        have hnext := ih s hrest
        cases l with
        | nil =>
            rw [List.nil_append] at hnext
            rw [List.singleton_append, splitLines_cons_of_not fun h => hcd h.2, hnext]
        | cons b l =>
            have hnot : ¬(a = c ∧ b = d) := by
              rintro ⟨rfl, rfl⟩
              exact hl ⟨[], l, rfl⟩
            rw [List.cons_append, List.cons_append, splitLines_cons_of_not hnot]
            rw [List.cons_append] at hnext
            rw [hnext]
  induction ls with
  | nil => rfl
  | cons l ls ih =>
      rw [List.forall_mem_cons] at h
      rw [joinLines_cons, List.append_assoc, List.cons_append, List.cons_append, hline _ _ h.1,
        ih h.2]
      rfl

end CWebServer.Lib
