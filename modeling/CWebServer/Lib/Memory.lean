import Mathlib.Data.List.Basic
import Mathlib.Data.List.GetD

/-!
# Memory — cells from an offset on

A memory is a function from offsets to cells. `load` copies cells out of it,
`store` copies a list into it; what was not stored keeps its value.
-/

namespace CWebServer.Lib

variable {α : Type*}

/-- The `n` cells from `start` on. -/
def load (m : Nat → α) (start n : Nat) : List α :=
  (List.range n).map fun i => m (start + i)

/-- The memory with `s` from `start` on. -/
def store (m : Nat → α) (start : Nat) (s : List α) (i : Nat) : α :=
  if start ≤ i then s.getD (i - start) (m i) else m i

variable (m : Nat → α)

@[simp] theorem length_load (start n : Nat) : (load m start n).length = n := by
  simp [load]

@[simp] theorem load_zero (start : Nat) : load m start 0 = [] := rfl

theorem load_add (start a b : Nat) :
    load m start (a + b) = load m start a ++ load m (start + a) b := by
  simp [load, List.range_add, Nat.add_assoc]

theorem take_load (start n k : Nat) : (load m start n).take k = load m start (min k n) := by
  rw [load, load, ← List.map_take, List.take_range]

theorem drop_load (start n k : Nat) : (load m start n).drop k = load m (start + k) (n - k) := by
  rcases Nat.le_total k n with h | h
  · have hsplit := load_add m start k (n - k)
    rw [Nat.add_sub_cancel' h] at hsplit
    rw [hsplit, List.drop_left' (length_load m start k)]
  · rw [Nat.sub_eq_zero_of_le h, load_zero, List.drop_of_length_le (by rwa [length_load])]

variable {m} in
theorem load_congr {m' : Nat → α} {start n : Nat}
    (h : ∀ i, start ≤ i → i < start + n → m i = m' i) :
    load m start n = load m' start n := by
  apply List.map_congr_left
  intro i hi
  rw [List.mem_range] at hi
  exact h _ (by omega) (by omega)

/-! ## Stores -/

theorem store_outside {start i : Nat} {s : List α} (h : i < start ∨ start + s.length ≤ i) :
    store m start s i = m i := by
  unfold store
  split
  · exact List.getD_eq_default s (m i) (by omega)
  · rfl

theorem load_store_outside {start start' n : Nat} {s : List α}
    (h : start' + n ≤ start ∨ start + s.length ≤ start') :
    load (store m start s) start' n = load m start' n := by
  apply load_congr
  intro i hi hn
  exact store_outside m (by omega)

theorem load_store_self (start : Nat) (s : List α) :
    load (store m start s) start s.length = s := by
  apply List.ext_getElem (length_load _ _ _)
  intro i hi hs
  simp [load, store, hs]

@[simp] theorem store_nil (start : Nat) : store m start [] = m := by
  funext i
  simp [store]

/-- Two stores, the second one behind the first. -/
theorem store_append (start : Nat) (s t : List α) :
    store (store m start s) (start + s.length) t = store m start (s ++ t) := by
  funext i
  unfold store
  rcases Nat.lt_or_ge i start with hi | hi
  · rw [if_neg (by omega), if_neg (by omega), if_neg (by omega)]
  · rw [if_pos hi, if_pos hi]
    split
    · rename_i hbehind
      rw [List.getD_append_right s t _ _ (by omega), List.getD_eq_default s _ (by omega)]
      congr 1
      omega
    · rw [List.getD_append s t _ _ (by omega)]

/-- The first cells of a memory after a store. -/
theorem load_store (start n : Nat) (s : List α) :
    load (store m start s) 0 (max n (start + s.length))
      = load m 0 start ++ s ++ load m (start + s.length) (n - (start + s.length)) := by
  have hcount : max n (start + s.length) = start + s.length + (n - (start + s.length)) := by omega
  have hbefore : load (store m start s) 0 start = load m 0 start :=
    load_store_outside m (by omega)
  have hbehind : load (store m start s) (start + s.length) (n - (start + s.length))
      = load m (start + s.length) (n - (start + s.length)) :=
    load_store_outside m (by omega)
  rw [hcount, load_add, load_add, Nat.zero_add, Nat.zero_add, hbefore, load_store_self, hbehind]

end CWebServer.Lib
