import Mathlib.Algebra.BigOperators.Group.List.Basic
import Mathlib.Algebra.GroupWithZero.Nat
import Mathlib.Data.List.Basic
import Mathlib.Data.List.Count

/-!
# Slots — what a row of slots holds, when one slot changes

A row of threads, each in a state that holds some items: `l.flatMap f` is
everything held. Replacing the state in slot `i` changes each item's count by
the difference between the two states and nothing else.
-/

namespace CWebServer.Lib

variable {α β : Type*}

/-- Slot `i`, with what stands before and after it. -/
theorem exists_split_of_getElem? {l : List α} {i : Nat} {y : α}
    (h : l[i]? = some y) :
    ∃ l₁ l₂, l = l₁ ++ y :: l₂ ∧ ∀ x, l.set i x = l₁ ++ x :: l₂ := by
  induction l generalizing i with
  | nil => simp at h
  | cons a l ih =>
      cases i with
      | zero =>
          simp only [List.getElem?_cons_zero, Option.some.injEq] at h
          subst h
          exact ⟨[], l, rfl, fun _ => rfl⟩
      | succ i =>
          obtain ⟨l₁, l₂, rfl, hset⟩ := ih (by simpa using h)
          exact ⟨a :: l₁, l₂, rfl, fun x => by simp [hset x]⟩

theorem count_flatMap_set [DecidableEq β] {l : List α} {i : Nat} {y : α}
    (h : l[i]? = some y) (x : α) (f : α → List β) (b : β) :
    ((l.set i x).flatMap f).count b + (f y).count b
      = (l.flatMap f).count b + (f x).count b := by
  obtain ⟨l₁, l₂, rfl, hset⟩ := exists_split_of_getElem? h
  rw [hset x]
  simp only [List.flatMap_append, List.flatMap_cons, List.count_append]
  omega

theorem countP_set_add {l : List α} {i : Nat} {y : α} (h : l[i]? = some y)
    (x : α) (p : α → Bool) :
    (l.set i x).countP p + (if p y then 1 else 0)
      = l.countP p + (if p x then 1 else 0) := by
  obtain ⟨l₁, l₂, rfl, hset⟩ := exists_split_of_getElem? h
  rw [hset x]
  simp only [List.countP_append, List.countP_cons]
  omega

/-- A sum over the slots changes by what the one slot changes. -/
theorem sum_map_set_add {l : List α} {i : Nat} {y : α} (h : l[i]? = some y) (x : α)
    (f : α → Nat) : ((l.set i x).map f).sum + f y = (l.map f).sum + f x := by
  obtain ⟨l₁, l₂, rfl, hset⟩ := exists_split_of_getElem? h
  rw [hset x]
  simp only [List.map_append, List.map_cons, List.sum_append, List.sum_cons]
  omega

theorem sum_map_le {l : List α} {f : α → Nat} {n : Nat} (h : ∀ x ∈ l, f x ≤ n) :
    (l.map f).sum ≤ n * l.length := by
  induction l with
  | nil => simp
  | cons a l ih =>
      have ha := h a (by simp)
      have hl := ih fun x hx => h x (by simp [hx])
      rw [List.map_cons, List.sum_cons, List.length_cons, Nat.mul_succ]
      omega

theorem mem_flatMap_of_getElem? {l : List α} {i : Nat} {y : α}
    (h : l[i]? = some y) {f : α → List β} {b : β} (hb : b ∈ f y) :
    b ∈ l.flatMap f :=
  List.mem_flatMap.mpr ⟨y, List.mem_of_getElem? h, hb⟩

/-- What two slots hold, they hold side by side. -/
theorem count_add_count_le [DecidableEq β] {l : List α} {i j : Nat} {y z : α}
    (hi : l[i]? = some y) (hj : l[j]? = some z) (hij : i ≠ j) (f : α → List β) (b : β) :
    (f y).count b + (f z).count b ≤ (l.flatMap f).count b := by
  induction l generalizing i j with
  | nil => simp at hi
  | cons a l ih =>
      have hmem : ∀ {k : Nat} {x : α}, l[k]? = some x →
          (f x).count b ≤ (l.flatMap f).count b := by
        intro k x hk
        obtain ⟨l₁, l₂, rfl, -⟩ := exists_split_of_getElem? hk
        simp only [List.flatMap_append, List.flatMap_cons, List.count_append]
        omega
      rw [List.flatMap_cons, List.count_append]
      cases i with
      | zero =>
          cases j with
          | zero => exact absurd rfl hij
          | succ j =>
              have := hmem (k := j) (by simpa using hj)
              simp only [List.getElem?_cons_zero, Option.some.injEq] at hi
              subst hi
              omega
      | succ i =>
          cases j with
          | zero =>
              have := hmem (k := i) (by simpa using hi)
              simp only [List.getElem?_cons_zero, Option.some.injEq] at hj
              subst hj
              omega
          | succ j =>
              have := ih (by simpa using hi) (by simpa using hj) (fun e => hij (by rw [e]))
              omega

/-- A slot whose new state holds the same items changes nothing. -/
theorem flatMap_set_of_eq {l : List α} {i : Nat} {y : α} (h : l[i]? = some y)
    {x : α} {f : α → List β} (hxy : f x = f y) :
    (l.set i x).flatMap f = l.flatMap f := by
  obtain ⟨l₁, l₂, rfl, hset⟩ := exists_split_of_getElem? h
  rw [hset x]
  simp [hxy]

/-- A change in one slot that leaves what it holds. -/
theorem flatMap_modify_of_eq {g : α → α} {f : α → List β} (h : ∀ x, f (g x) = f x)
    (l : List α) (i : Nat) : (l.modify i g).flatMap f = l.flatMap f := by
  induction l generalizing i with
  | nil => simp
  | cons a l ih =>
      cases i with
      | zero => simp [h]
      | succ i => simp [ih]

/-- The same for a function of the slots' numbers: `R` is what the other slots
hold. -/
theorem flatMap_perm_of_mem {l : List α} (hnd : l.Nodup) {a : α} (ha : a ∈ l)
    (f : α → List β) :
    ∃ R, ∀ g : α → List β, (∀ x ∈ l, x ≠ a → g x = f x) →
      (l.flatMap g).Perm (g a ++ R) := by
  obtain ⟨l₁, l₂, rfl⟩ := List.append_of_mem ha
  obtain ⟨-, hnd₂, hdisj⟩ := List.nodup_append.mp hnd
  refine ⟨l₁.flatMap f ++ l₂.flatMap f, ?_⟩
  intro g hg
  have h₁ : l₁.flatMap g = l₁.flatMap f := List.flatMap_congr fun x hx =>
    hg x (by simp [hx]) (hdisj x hx a (by simp))
  have h₂ : l₂.flatMap g = l₂.flatMap f := List.flatMap_congr fun x hx =>
    hg x (by simp [hx]) fun he => (List.nodup_cons.mp hnd₂).1 (he ▸ hx)
  rw [List.flatMap_append, List.flatMap_cons, h₁, h₂]
  exact List.perm_append_comm_assoc _ _ _

/-- Turning a property off for one element of a list without repetitions. -/
theorem countP_eq_add_one {l : List α} {p q : α → Bool} {a : α} (hnd : l.Nodup)
    (ha : a ∈ l) (hp : p a = true) (hq : q a = false)
    (hrest : ∀ b ∈ l, b ≠ a → q b = p b) : l.countP p = l.countP q + 1 := by
  induction l with
  | nil => simp at ha
  | cons b l ih =>
      obtain ⟨hb, hnd'⟩ := List.nodup_cons.mp hnd
      by_cases hba : b = a
      · subst hba
        have htail : l.countP p = l.countP q := List.countP_congr fun x hx => by
          rw [hrest x (by simp [hx]) (fun e => hb (e ▸ hx))]
        simp [hp, hq, htail]
      · have hal : a ∈ l := by
          rcases List.mem_cons.mp ha with h | h
          · exact absurd h.symm hba
          · exact h
        have := ih hnd' hal (fun x hx => hrest x (by simp [hx]))
        rw [List.countP_cons, List.countP_cons, hrest b (by simp) hba, this]
        omega

end CWebServer.Lib
