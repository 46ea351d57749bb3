import Mathlib.Data.Int.Order.Basic
import Mathlib.Data.List.Basic

/-!
# Lexicographic — lists compared by their first difference

`compareBy diff a b` is `diff` of the first two elements that differ, and the
difference of the lengths where there are none. Nothing is asked of `diff`
but that it is not 0 for different elements: the lemmas say which values of
`diff` decide whether the comparison is an order on given lists.
-/

namespace CWebServer.Lib

variable {α : Type*} [DecidableEq α]

/-- The comparison that `diff` makes of lists. -/
def compareBy (diff : α → α → Int) : List α → List α → Int
  | x :: a, y :: b => if x = y then compareBy diff a b else diff x y
  | a, b => (a.length : Int) - b.length

/-- The elements at the first place where two lists differ, if both have one
there. -/
def firstDifference : List α → List α → Option (α × α)
  | x :: a, y :: b => if x = y then firstDifference a b else some (x, y)
  | _, _ => none

/-- The elements at the first place where three lists are not all alike, if
all three have one there. -/
def fork : List α → List α → List α → Option (α × α × α)
  | x :: a, y :: b, z :: c => if x = y ∧ y = z then fork a b c else some (x, y, z)
  | _, _, _ => none

variable {diff : α → α → Int}

@[simp] theorem compareBy_nil (b : List α) : compareBy diff [] b = -b.length := by
  simp [compareBy]

@[simp] theorem compareBy_cons_nil (x : α) (a : List α) :
    compareBy diff (x :: a) [] = (x :: a).length := by
  simp [compareBy]

theorem compareBy_cons_self (x : α) (a b : List α) :
    compareBy diff (x :: a) (x :: b) = compareBy diff a b := if_pos rfl

theorem compareBy_cons_ne {x y : α} (h : x ≠ y) (a b : List α) :
    compareBy diff (x :: a) (y :: b) = diff x y := if_neg h

theorem firstDifference_cons_self (x : α) (a b : List α) :
    firstDifference (x :: a) (x :: b) = firstDifference a b := if_pos rfl

theorem firstDifference_cons_ne {x y : α} (h : x ≠ y) (a b : List α) :
    firstDifference (x :: a) (y :: b) = some (x, y) := if_neg h

theorem fork_cons_self (x : α) (a b c : List α) :
    fork (x :: a) (x :: b) (x :: c) = fork a b c := if_pos ⟨rfl, rfl⟩

theorem fork_cons_of_not {x y z : α} (h : ¬ (x = y ∧ y = z)) (a b c : List α) :
    fork (x :: a) (y :: b) (z :: c) = some (x, y, z) := if_neg h

theorem ne_of_firstDifference {a b : List α} {x y : α} (h : firstDifference a b = some (x, y)) :
    x ≠ y := by
  induction a generalizing b with
  | nil => cases h
  | cons u a ih =>
      cases b with
      | nil => cases h
      | cons v b =>
          by_cases huv : u = v
          · subst huv
            rw [firstDifference_cons_self] at h
            exact ih h
          · rw [firstDifference_cons_ne huv] at h
            cases h
            exact huv

/-- Elements that differ at a fork differ there first. -/
theorem firstDifference_of_fork {a b c : List α} {x y z : α} (h : fork a b c = some (x, y, z)) :
    (x ≠ y → firstDifference a b = some (x, y)) ∧
      (y ≠ z → firstDifference b c = some (y, z)) := by
  induction a generalizing b c with
  | nil => cases h
  | cons u a ih =>
      cases b with
      | nil => cases h
      | cons v b =>
          cases c with
          | nil => cases h
          | cons w c =>
              by_cases hfork : u = v ∧ v = w
              · obtain ⟨rfl, rfl⟩ := hfork
                rw [fork_cons_self] at h
                rw [firstDifference_cons_self, firstDifference_cons_self]
                exact ih h
              · rw [fork_cons_of_not hfork] at h
                cases h
                exact ⟨fun hne => firstDifference_cons_ne hne a b,
                  fun hne => firstDifference_cons_ne hne b c⟩

/-! ## Equality -/

/-- The comparison gives 0 for equal lists only. -/
theorem compareBy_eq_zero_iff (hdiff : ∀ x y, x ≠ y → diff x y ≠ 0) {a b : List α} :
    compareBy diff a b = 0 ↔ a = b := by
  induction a generalizing b with
  | nil =>
      rw [compareBy_nil, eq_comm (a := ([] : List α)), ← List.length_eq_zero_iff]
      omega
  | cons x a ih =>
      cases b with
      | nil =>
          rw [compareBy_cons_nil, List.length_cons]
          exact iff_of_false (by omega) (List.cons_ne_nil x a)
      | cons y b =>
          by_cases hxy : x = y
          · subst hxy
            rw [compareBy_cons_self, ih, List.cons_inj_right]
          · rw [compareBy_cons_ne hxy]
            exact iff_of_false (hdiff x y hxy) fun h => hxy (List.cons.inj h).1

/-! ## Signs -/

/-- `diff` has opposite signs for these two. -/
def OppositeSigns (diff : α → α → Int) (x y : α) : Prop :=
  (diff y x).sign = -(diff x y).sign

/-- **The comparison turns around with its arguments** exactly if `diff` does
at the first difference. -/
theorem compareBy_opposite_iff (diff : α → α → Int) {a b : List α} :
    (compareBy diff b a).sign = -(compareBy diff a b).sign
      ↔ ∀ x y, firstDifference a b = some (x, y) → OppositeSigns diff x y := by
  induction a generalizing b with
  | nil =>
      have hnone : firstDifference [] b = none := rfl
      rw [hnone]
      apply iff_of_true
      · cases b with
        | nil => rfl
        | cons y b =>
            rw [compareBy_nil, compareBy_cons_nil, Int.sign_neg, Int.neg_neg]
      · intro x y h
        cases h
  | cons x a ih =>
      cases b with
      | nil =>
          have hnone : firstDifference (x :: a) [] = none := rfl
          rw [hnone, compareBy_nil, compareBy_cons_nil, Int.sign_neg]
          apply iff_of_true rfl
          intro y z h
          cases h
      | cons y b =>
          by_cases hxy : x = y
          · subst hxy
            rw [compareBy_cons_self, compareBy_cons_self, firstDifference_cons_self, ih]
          · rw [compareBy_cons_ne hxy, compareBy_cons_ne (Ne.symm hxy),
              firstDifference_cons_ne hxy]
            constructor
            · intro h v w heq
              cases heq
              exact h
            · exact fun h => h x y rfl

/-! ## Transitivity -/

/-- `diff` leads from `x` to `y` and on to `z`, and not directly. -/
def Cyclic (diff : α → α → Int) (x y z : α) : Prop :=
  diff x y < 0 ∧ diff y z < 0 ∧ 0 < diff x z

/-- At a fork: three different elements decide, two equal ones do no harm. -/
theorem compareBy_trans_fork_iff (hdiff : ∀ x y, x ≠ y → diff x y ≠ 0) {x y z : α}
    (hfork : ¬ (x = y ∧ y = z)) (hopp : x ≠ y → OppositeSigns diff x y) (a b c : List α) :
    (compareBy diff (x :: a) (y :: b) ≤ 0 → compareBy diff (y :: b) (z :: c) ≤ 0 →
        compareBy diff (x :: a) (z :: c) ≤ 0)
      ↔ (x ≠ y → y ≠ z → x ≠ z → ¬ Cyclic diff x y z) := by
  by_cases hxy : x = y
  · subst hxy
    have hxz : x ≠ z := fun h => hfork ⟨rfl, h⟩
    rw [compareBy_cons_ne hxz, compareBy_cons_ne hxz]
    exact iff_of_true (fun _ h => h) fun h => absurd rfl h
  · have hxy' := hdiff x y hxy
    by_cases hyz : y = z
    · subst hyz
      rw [compareBy_cons_ne hxy, compareBy_cons_ne hxy]
      exact iff_of_true (fun h _ => h) fun _ h => absurd rfl h
    · have hyz' := hdiff y z hyz
      by_cases hxz : x = z
      · subst hxz
        rw [compareBy_cons_ne hxy, compareBy_cons_ne hyz]
        apply iff_of_true
        · intro hle hle'
          have hlt : diff x y < 0 := by omega
          have hlt' : diff y x < 0 := by omega
          have hsigns := hopp hxy
          rw [OppositeSigns, Int.sign_eq_neg_one_of_neg hlt, Int.sign_eq_neg_one_of_neg hlt']
            at hsigns
          omega
        · exact fun _ _ h => absurd rfl h
      · rw [compareBy_cons_ne hxy, compareBy_cons_ne hyz, compareBy_cons_ne hxz]
        constructor
        · rintro h _ _ _ ⟨hlt, hlt', hgt⟩
          have hle := h (by omega) (by omega)
          omega
        · intro h hle hle'
          have hnot : ¬ Cyclic diff x y z := h hxy hyz hxz
          rw [Cyclic] at hnot
          omega

/-- **The comparison is transitive on three lists** exactly if `diff` is not
cyclic where they fork; it has to turn around between the first two. -/
theorem compareBy_trans_iff (hdiff : ∀ x y, x ≠ y → diff x y ≠ 0) {a b c : List α}
    (hab : ∀ x y, firstDifference a b = some (x, y) → OppositeSigns diff x y) :
    (compareBy diff a b ≤ 0 → compareBy diff b c ≤ 0 → compareBy diff a c ≤ 0)
      ↔ ∀ x y z, fork a b c = some (x, y, z) →
          x ≠ y → y ≠ z → x ≠ z → ¬ Cyclic diff x y z := by
  induction a generalizing b c with
  | nil =>
      apply iff_of_true
      · intro _ _
        rw [compareBy_nil]
        omega
      · intro x y z h
        cases h
  | cons x a ih =>
      cases b with
      | nil =>
          apply iff_of_true
          · intro h
            rw [compareBy_cons_nil, List.length_cons] at h
            omega
          · intro v w z h
            cases h
      | cons y b =>
          cases c with
          | nil =>
              apply iff_of_true
              · intro _ h
                rw [compareBy_cons_nil, List.length_cons] at h
                omega
              · intro v w z h
                cases h
          | cons z c =>
              by_cases hfork : x = y ∧ y = z
              · obtain ⟨rfl, rfl⟩ := hfork
                rw [firstDifference_cons_self] at hab
                rw [compareBy_cons_self, compareBy_cons_self, compareBy_cons_self,
                  fork_cons_self, ih hab]
              · have hopp : x ≠ y → OppositeSigns diff x y := fun hxy =>
                  hab x y (firstDifference_cons_ne hxy a b)
                rw [compareBy_trans_fork_iff hdiff hfork hopp, fork_cons_of_not hfork]
                constructor
                · intro h u v w heq
                  cases heq
                  exact h
                · exact fun h => h x y z rfl

end CWebServer.Lib
