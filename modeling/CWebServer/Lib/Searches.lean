import CWebServer.Lib.Delimiters
import Mathlib.Data.List.DropRight

/-!
# Searches — least and greatest indices

`IsFirst p start r` and `IsLast p stop r` say that `r` is the least index from
`start` on, or the greatest one up to `stop`, with the property `p`, and
`none` where there is none. A search that goes one index up or down at a time
is proved right by the lemmas for one step. `searchUntil` is a search up that
gives up at certain symbols.
-/

namespace CWebServer.Lib

/-! ## Searching up -/

section Up

variable {p : Nat → Prop}

/-- The least index from `start` on with `p`. -/
def IsFirst (p : Nat → Prop) (start : Nat) : Option Nat → Prop
  | none => ∀ i, start ≤ i → ¬ p i
  | some i => start ≤ i ∧ p i ∧ ∀ j, start ≤ j → j < i → ¬ p j

theorem IsFirst.here {i : Nat} (h : p i) : IsFirst p i (some i) :=
  ⟨Nat.le_refl i, h, fun j hle hlt => by omega⟩

theorem isFirst_next {i : Nat} (h : ¬ p i) (r : Option Nat) :
    IsFirst p i r ↔ IsFirst p (i + 1) r := by
  cases r with
  | none =>
      constructor
      · intro hnone j hj
        exact hnone j (by omega)
      · intro hnone j hj
        rcases Nat.eq_or_lt_of_le hj with rfl | hlt
        · exact h
        · exact hnone j hlt
  | some k =>
      constructor
      · rintro ⟨hik, hk, hmin⟩
        have hne : i ≠ k := by
          rintro rfl
          exact h hk
        exact ⟨by omega, hk, fun j hj hlt => hmin j (by omega) hlt⟩
      · rintro ⟨hik, hk, hmin⟩
        refine ⟨by omega, hk, ?_⟩
        intro j hj hlt
        rcases Nat.eq_or_lt_of_le hj with rfl | hij
        · exact h
        · exact hmin j hij hlt

theorem IsFirst.unique {start : Nat} {r r' : Option Nat} (h : IsFirst p start r)
    (h' : IsFirst p start r') : r = r' := by
  cases r with
  | none =>
      cases r' with
      | none => rfl
      | some k => exact absurd h'.2.1 (h k h'.1)
  | some i =>
      cases r' with
      | none => exact absurd h.2.1 (h' i h.1)
      | some k =>
          have hki : ¬ k < i := fun hlt => h.2.2 k h'.1 hlt h'.2.1
          have hik : ¬ i < k := fun hlt => h'.2.2 i h.1 hlt h.2.1
          exact congrArg some (by omega)

end Up

/-! ## Searching down -/

section Down

variable {p : Nat → Prop}

/-- The greatest index up to `stop` with `p`. -/
def IsLast (p : Nat → Prop) (stop : Nat) : Option Nat → Prop
  | none => ∀ i, i ≤ stop → ¬ p i
  | some i => i ≤ stop ∧ p i ∧ ∀ j, i < j → j ≤ stop → ¬ p j

theorem IsLast.here {i : Nat} (h : p i) : IsLast p i (some i) :=
  ⟨Nat.le_refl i, h, fun j hlt hle => by omega⟩

theorem IsLast.zero (h : ¬ p 0) : IsLast p 0 none := by
  intro i hi
  obtain rfl : i = 0 := by omega
  exact h

theorem isLast_next {i : Nat} (h : ¬ p (i + 1)) (r : Option Nat) :
    IsLast p (i + 1) r ↔ IsLast p i r := by
  cases r with
  | none =>
      constructor
      · intro hnone j hj
        exact hnone j (by omega)
      · intro hnone j hj
        rcases Nat.eq_or_lt_of_le hj with rfl | hlt
        · exact h
        · exact hnone j (by omega)
  | some k =>
      constructor
      · rintro ⟨hki, hk, hmax⟩
        have hne : k ≠ i + 1 := by
          rintro rfl
          exact h hk
        exact ⟨by omega, hk, fun j hkj hj => hmax j hkj (by omega)⟩
      · rintro ⟨hki, hk, hmax⟩
        refine ⟨by omega, hk, ?_⟩
        intro j hkj hj
        rcases Nat.eq_or_lt_of_le hj with rfl | hlt
        · exact h
        · exact hmax j hkj (by omega)

/-- Behind `n` there is nothing to be found. -/
theorem isLast_min {n stop : Nat} (h : ∀ i, p i → i ≤ n) (r : Option Nat) :
    IsLast p (min stop n) r ↔ IsLast p stop r := by
  cases r with
  | none =>
      constructor
      · intro hnone i hi hpi
        exact hnone i (Nat.le_min.mpr ⟨hi, h i hpi⟩) hpi
      · intro hnone i hi
        exact hnone i (Nat.le_min.mp hi).1
  | some k =>
      constructor
      · rintro ⟨hk, hpk, hmax⟩
        refine ⟨(Nat.le_min.mp hk).1, hpk, ?_⟩
        intro j hkj hj hpj
        exact hmax j hkj (Nat.le_min.mpr ⟨hj, h j hpj⟩) hpj
      · rintro ⟨hk, hpk, hmax⟩
        exact ⟨Nat.le_min.mpr ⟨hk, h k hpk⟩, hpk,
          fun j hkj hj => hmax j hkj (Nat.le_min.mp hj).1⟩

end Down

/-! ## Symbols of a list -/

variable {α : Type*} {q stop : α → Prop}

/-- There is a symbol with `q` at `i`. -/
def SymbolAt (q : α → Prop) (s : List α) (i : Nat) : Prop :=
  ∃ c, s[i]? = some c ∧ q c

theorem symbolAt_of_drop_cons {s t : List α} {c : α} {i : Nat} (h : s.drop i = c :: t) :
    SymbolAt q s i ↔ q c := by
  have hget : s[i]? = some c := by
    rw [← List.head?_drop, h]
    rfl
  simp [SymbolAt, hget]

theorem drop_succ_of_drop_cons {s t : List α} {c : α} {i : Nat} (h : s.drop i = c :: t) :
    s.drop (i + 1) = t := by
  rw [← List.drop_drop, h]
  rfl

theorem not_symbolAt_of_le {s : List α} {i : Nat} (h : s.length ≤ i) : ¬ SymbolAt q s i := by
  rintro ⟨c, hget, -⟩
  rw [List.getElem?_eq_none h] at hget
  cases hget

theorem SymbolAt.lt {s : List α} {i : Nat} (h : SymbolAt q s i) : i < s.length :=
  Nat.lt_of_not_le fun hle => not_symbolAt_of_le hle h

theorem isFirst_none_iff {s : List α} {i : Nat} :
    IsFirst (SymbolAt q s) i none ↔ ∀ c ∈ s.drop i, ¬ q c := by
  constructor
  · intro h c hc hqc
    obtain ⟨k, hk, rfl⟩ := List.getElem_of_mem hc
    refine h (i + k) (Nat.le_add_right i k) ⟨_, ?_, hqc⟩
    rw [← List.getElem?_drop, List.getElem?_eq_getElem hk]
  · rintro h j hj ⟨c, hget, hqc⟩
    refine h c ?_ hqc
    rw [← Nat.add_sub_cancel' hj, ← List.getElem?_drop] at hget
    exact List.mem_of_getElem? hget

/-- What is left from the first symbol with `q` on. -/
theorem dropWhile_of_isFirst [DecidablePred q] {s : List α} {r : Option Nat}
    (h : IsFirst (SymbolAt q s) 0 r) : s.dropWhile (¬ q ·) = r.elim [] s.drop := by
  cases r with
  | none =>
      rw [isFirst_none_iff, List.drop_zero] at h
      exact List.dropWhile_eq_nil_iff.mpr fun c hc => by simpa using h c hc
  | some i =>
      obtain ⟨-, hat, hmin⟩ := h
      have hcons := List.drop_eq_getElem_cons hat.lt
      have hq := (symbolAt_of_drop_cons hcons).mp hat
      have hbefore : ∀ c ∈ s.take i, ¬ q c := by
        intro c hc hqc
        obtain ⟨k, hk, rfl⟩ := List.getElem_of_mem hc
        rw [List.length_take] at hk
        refine hmin k (Nat.zero_le k) (by omega) ⟨_, ?_, hqc⟩
        rw [List.getElem_take, List.getElem?_eq_getElem]
      have hsplit := takeWhile_append_stop (p := (decide <| ¬ q ·))
        (w := s.take i) (s := s.drop i)
        (fun c hc => by simpa using hbefore c hc) (fun c hc => by
          rw [hcons] at hc
          cases hc
          simpa using hq)
      rw [List.take_append_drop] at hsplit
      exact hsplit.2

/-- What is left up to the last symbol with `q`. -/
theorem rdropWhile_of_isLast [DecidablePred q] {s : List α} {n : Nat} (hn : s.length ≤ n + 1)
    {r : Option Nat} (h : IsLast (SymbolAt q s) n r) :
    s.rdropWhile (¬ q ·) = r.elim [] fun i => s.take (i + 1) := by
  cases r with
  | none =>
      apply List.rdropWhile_eq_nil_iff.mpr
      intro c hc
      obtain ⟨k, hk, rfl⟩ := List.getElem_of_mem hc
      have hnot : ¬ q s[k] := fun hq =>
        h k (by omega) ⟨_, List.getElem?_eq_getElem hk, hq⟩
      simpa using hnot
  | some i =>
      obtain ⟨-, hat, hmax⟩ := h
      have hlt := hat.lt
      have hq := (symbolAt_of_drop_cons (List.drop_eq_getElem_cons hlt)).mp hat
      have hbehind : ∀ c ∈ (s.drop (i + 1)).reverse, ¬ q c := by
        intro c hc hqc
        obtain ⟨k, hk, rfl⟩ := List.getElem_of_mem (List.mem_reverse.mp hc)
        rw [List.length_drop] at hk
        refine hmax (i + 1 + k) (by omega) (by omega) ⟨_, ?_, hqc⟩
        rw [List.getElem_drop, List.getElem?_eq_getElem]
      have hfront : (s.take (i + 1)).reverse.head? = some s[i] := by
        rw [List.take_succ_eq_append_getElem hlt, List.reverse_append]
        rfl
      have hsplit := takeWhile_append_stop (p := (decide <| ¬ q ·))
        (w := (s.drop (i + 1)).reverse) (s := (s.take (i + 1)).reverse)
        (fun c hc => by simpa using hbehind c hc) (fun c hc => by
          rw [hfront] at hc
          cases hc
          simpa using hq)
      rw [← List.reverse_append, List.take_append_drop] at hsplit
      show (s.reverse.dropWhile _).reverse = s.take (i + 1)
      rw [hsplit.2, List.reverse_reverse]

/-- A search for `q` that gives up at the first symbol with `stop`; `i` is the
index of the first symbol. -/
def searchUntil (stop q : α → Prop) [DecidablePred stop] [DecidablePred q] :
    List α → Nat → Option Nat
  | [], _ => none
  | c :: t, i => if stop c then none else if q c then some i else searchUntil stop q t (i + 1)

/-- A symbol with `stop` stands in front of the first one with `q`, or is
it. -/
def Hidden (stop q : α → Prop) (t : List α) : Prop :=
  ∃ w c u, t = w ++ c :: u ∧ (∀ x ∈ w, ¬ q x) ∧ stop c ∧ ∃ x ∈ c :: u, q x

theorem hidden_cons {c : α} {t : List α} :
    Hidden stop q (c :: t)
      ↔ (stop c ∧ ∃ x ∈ c :: t, q x) ∨ (¬ q c ∧ Hidden stop q t) := by
  constructor
  · rintro ⟨w, d, u, heq, hw, hstop, hfound⟩
    cases w with
    | nil =>
        cases heq
        exact .inl ⟨hstop, hfound⟩
    | cons y w =>
        cases heq
        exact .inr ⟨hw c List.mem_cons_self, w, d, u, rfl,
          fun x hx => hw x (List.mem_cons_of_mem c hx), hstop, hfound⟩
  · rintro (⟨hstop, hfound⟩ | ⟨hc, w, d, u, rfl, hw, hstop, hfound⟩)
    · exact ⟨[], c, t, rfl, fun x hx => absurd hx List.not_mem_nil, hstop, hfound⟩
    · refine ⟨c :: w, d, u, rfl, ?_, hstop, hfound⟩
      intro x hx
      rcases List.mem_cons.mp hx with rfl | hx
      · exact hc
      · exact hw x hx

/-- Where no symbol stops a search, nothing is hidden. -/
theorem not_hidden_of_forall {t : List α} (h : ∀ c ∈ t, ¬ stop c) : ¬ Hidden stop q t := by
  rintro ⟨w, c, u, rfl, -, hstop, -⟩
  exact h c (by simp) hstop

theorem Hidden.exists_found {t : List α} (h : Hidden stop q t) : ∃ x ∈ t, q x := by
  obtain ⟨w, c, u, rfl, -, -, x, hx, hqx⟩ := h
  exact ⟨x, List.mem_append_right w hx, hqx⟩

variable [DecidablePred q] [DecidablePred stop]

/-- **A search that gives up** is right exactly if nothing is hidden from
it. -/
theorem isFirst_searchUntil_iff {s t : List α} {i : Nat} (h : s.drop i = t) :
    IsFirst (SymbolAt q s) i (searchUntil stop q t i) ↔ ¬ Hidden stop q t := by
  induction t generalizing i with
  | nil =>
      have hnone : ∀ c ∈ s.drop i, ¬ q c := by simp [h]
      apply iff_of_true (isFirst_none_iff.mpr hnone)
      rintro ⟨w, c, u, heq, -⟩
      simp at heq
  | cons c t ih =>
      rw [hidden_cons, searchUntil]
      by_cases hstop : stop c
      · rw [if_pos hstop, isFirst_none_iff, h]
        constructor
        · rintro hnone (⟨-, x, hx, hqx⟩ | ⟨-, hhidden⟩)
          · exact hnone x hx hqx
          · obtain ⟨x, hx, hqx⟩ := hhidden.exists_found
            exact hnone x (List.mem_cons_of_mem c hx) hqx
        · exact fun hnot x hx hqx => hnot (.inl ⟨hstop, x, hx, hqx⟩)
      · rw [if_neg hstop]
        by_cases hq : q c
        · rw [if_pos hq]
          apply iff_of_true (.here ((symbolAt_of_drop_cons h).mpr hq))
          simp [hstop, hq]
        · rw [if_neg hq, isFirst_next (mt (symbolAt_of_drop_cons h).mp hq),
            ih (drop_succ_of_drop_cons h)]
          simp [hstop, hq]

/-- What such a search finds has the property, hidden symbols or not. -/
theorem symbolAt_of_searchUntil {s t : List α} {i k : Nat} (h : s.drop i = t)
    (hfound : searchUntil stop q t i = some k) : SymbolAt q s k := by
  induction t generalizing i with
  | nil => cases hfound
  | cons c t ih =>
      rw [searchUntil] at hfound
      split at hfound
      · cases hfound
      · split at hfound
        · rename_i hq
          cases hfound
          exact (symbolAt_of_drop_cons h).mpr hq
        · exact ih (drop_succ_of_drop_cons h) hfound

/-- A search gives up where something is hidden from it. -/
theorem searchUntil_of_hidden {t : List α} (h : Hidden stop q t) (i : Nat) :
    searchUntil stop q t i = none := by
  induction t generalizing i with
  | nil => rfl
  | cons c t ih =>
      rw [searchUntil]
      by_cases hstop : stop c
      · rw [if_pos hstop]
      · obtain ⟨hc, hrest⟩ := (hidden_cons.mp h).resolve_left fun h => hstop h.1
        rw [if_neg hstop, if_neg hc]
        exact ih hrest (i + 1)

/-- A search for `q` through the symbols up to `i`, the last one first. -/
def searchBack (q : α → Prop) [DecidablePred q] : List α → Nat → Option Nat
  | [], _ => none
  | c :: t, i => if q c then some i else searchBack q t (i - 1)

/-- **A search down** finds the last symbol. -/
theorem isLast_searchBack {s : List α} {i : Nat} (hi : i < s.length) :
    IsLast (SymbolAt q s) i (searchBack q (s.take (i + 1)).reverse i) := by
  induction i with
  | zero =>
      have hdrop := List.drop_eq_getElem_cons hi
      rw [List.take_succ_eq_append_getElem hi, List.take_zero, List.nil_append,
        List.reverse_singleton, searchBack]
      by_cases hq : q s[0]
      · rw [if_pos hq]
        exact .here ((symbolAt_of_drop_cons hdrop).mpr hq)
      · rw [if_neg hq]
        exact .zero (mt (symbolAt_of_drop_cons hdrop).mp hq)
  | succ i ih =>
      have hdrop := List.drop_eq_getElem_cons hi
      rw [List.take_succ_eq_append_getElem hi, List.reverse_append, List.reverse_singleton,
        List.singleton_append, searchBack]
      by_cases hq : q s[i + 1]
      · rw [if_pos hq]
        exact .here ((symbolAt_of_drop_cons hdrop).mpr hq)
      · rw [if_neg hq, isLast_next (mt (symbolAt_of_drop_cons hdrop).mp hq)]
        exact ih (by omega)

end CWebServer.Lib
