import Mathlib.Data.List.Basic
import Mathlib.Data.List.Infix

/-!
# Pieces — a text cut at a text

`cutFirst d s` cuts `s` at the first occurrence of `d`. A rule for cutting at
`d` is any function that gives the text before one `d` and the text behind
it; `piecesUpTo cut n s` uses it at most `n` times, and `pieces d s` cuts at
the first `d` as often as there is one. `spans` says where the pieces stand.
-/

namespace CWebServer.Lib

variable {α : Type*} {d : List α}

/-! ## One cut -/

section Occurrences

variable [DecidableEq α]

/-- The text before the first `d`, and the text behind it. -/
def cutFirst (d : List α) : List α → Option (List α × List α)
  | [] => none
  | a :: s =>
      if d <+: a :: s then some ([], (a :: s).drop d.length)
      else (cutFirst d s).map fun p => (a :: p.1, p.2)

theorem cutFirst_some {s w u : List α} (h : cutFirst d s = some (w, u)) :
    s = w ++ d ++ u ∧ ∀ i, i < w.length → ¬ d <+: s.drop i := by
  induction s generalizing w with
  | nil => cases h
  | cons a s ih =>
      rw [cutFirst] at h
      split at h
      · rename_i hfront
        cases h
        refine ⟨?_, fun i hi => absurd hi (Nat.not_lt_zero i)⟩
        rw [List.nil_append]
        exact (List.prefix_iff_eq_append.mp hfront).symm
      · rename_i hfront
        obtain ⟨⟨w', u'⟩, hcut, heq⟩ := Option.map_eq_some_iff.mp h
        cases heq
        obtain ⟨hs, hfree⟩ := ih hcut
        refine ⟨by rw [hs]; rfl, ?_⟩
        intro i hi
        cases i with
        | zero => exact hfront
        | succ i => exact hfree i (Nat.lt_of_succ_lt_succ hi)

theorem cutFirst_eq_none (hd : d ≠ []) {s : List α} : cutFirst d s = none ↔ ¬ d <:+: s := by
  induction s with
  | nil => simpa [cutFirst] using hd
  | cons a s ih =>
      rw [cutFirst, List.infix_cons_iff, not_or, ← ih]
      by_cases hfront : d <+: a :: s
      · simp [hfront]
      · simp [hfront]

/-- The text before the first `d` has none in it. -/
theorem not_infix_of_cutFirst (hd : d ≠ []) {s w u : List α} (h : cutFirst d s = some (w, u)) :
    ¬ d <:+: w := by
  obtain ⟨hs, hfree⟩ := cutFirst_some h
  rintro ⟨x, y, rfl⟩
  have hpos := List.length_pos_of_ne_nil hd
  apply hfree x.length
  · simp only [List.length_append]
    omega
  · rw [hs]
    simp

end Occurrences

/-! ## Rules for cutting -/

/-- What a rule gives is the text before a `d` and the text behind it. -/
def CutsAt (d : List α) (cut : List α → Option (List α × List α)) : Prop :=
  ∀ s w u, cut s = some (w, u) → s = w ++ d ++ u

/-- The pieces of `s` after at most `n` cuts. -/
def piecesUpTo (cut : List α → Option (List α × List α)) : Nat → List α → List (List α)
  | 0, s => [s]
  | n + 1, s =>
      match cut s with
      | none => [s]
      | some (w, u) => w :: piecesUpTo cut n u

/-- Where pieces with `m` symbols between them stand, the first one at `k`. -/
def spans (m : Nat) : Nat → List (List α) → List (Nat × Nat)
  | _, [] => []
  | k, p :: ps => (k, k + p.length) :: spans m (k + p.length + m) ps

/-- The text between two positions. -/
def slice (s : List α) (span : Nat × Nat) : List α :=
  (s.drop span.1).take (span.2 - span.1)

@[simp] theorem length_spans (m k : Nat) (ps : List (List α)) :
    (spans m k ps).length = ps.length := by
  induction ps generalizing k with
  | nil => rfl
  | cons p ps ih => rw [spans, List.length_cons, List.length_cons, ih]

variable {cut : List α → Option (List α × List α)}

theorem piecesUpTo_none {s : List α} (h : cut s = none) (n : Nat) : piecesUpTo cut n s = [s] := by
  cases n with
  | zero => rfl
  | succ n => rw [piecesUpTo, h]

theorem piecesUpTo_some {s w u : List α} (h : cut s = some (w, u)) (n : Nat) :
    piecesUpTo cut (n + 1) s = w :: piecesUpTo cut n u := by
  rw [piecesUpTo, h]

variable (cut) in
theorem piecesUpTo_ne_nil (n : Nat) (s : List α) : piecesUpTo cut n s ≠ [] := by
  cases n with
  | zero => exact List.cons_ne_nil _ _
  | succ n =>
      cases h : cut s with
      | none =>
          rw [piecesUpTo_none h]
          exact List.cons_ne_nil _ _
      | some p =>
          rw [piecesUpTo_some h]
          exact List.cons_ne_nil _ _

theorem CutsAt.length (hcut : CutsAt d cut) {s w u : List α} (h : cut s = some (w, u)) :
    w.length + d.length + u.length = s.length := by
  rw [hcut s w u h, List.length_append, List.length_append]

/-- **Induction along the cuts**: what holds of a text that is not cut, and of
a text if it holds behind the cut, holds of every text. -/
theorem CutsAt.induction (hcut : CutsAt d cut) (hd : d ≠ []) {P : List α → Prop}
    (hnone : ∀ s, cut s = none → P s)
    (hsome : ∀ s w u, cut s = some (w, u) → P u → P s) (s : List α) : P s := by
  have hpos := List.length_pos_of_ne_nil hd
  induction hn : s.length using Nat.strongRecOn generalizing s with
  | ind n ih =>
      cases h : cut s with
      | none => exact hnone s h
      | some p =>
          have hlength := hcut.length h
          exact hsome s p.1 p.2 h (ih p.2.length (by omega) p.2 rfl)

/-- More cuts than symbols are never needed. -/
theorem piecesUpTo_eq_of_le (hd : d ≠ []) (hcut : CutsAt d cut) {s : List α} {m n : Nat}
    (hm : s.length ≤ m) (hn : s.length ≤ n) : piecesUpTo cut m s = piecesUpTo cut n s := by
  have hpos := List.length_pos_of_ne_nil hd
  induction s using hcut.induction hd generalizing m n with
  | hnone s h => rw [piecesUpTo_none h, piecesUpTo_none h]
  | hsome s w u h ih =>
      have hlength := hcut.length h
      obtain ⟨m, rfl⟩ := Nat.exists_eq_add_of_le' (show 1 ≤ m by omega)
      obtain ⟨n, rfl⟩ := Nat.exists_eq_add_of_le' (show 1 ≤ n by omega)
      have hrest := ih (m := m) (n := n) (by omega) (by omega)
      rw [piecesUpTo_some h, piecesUpTo_some h, hrest]

/-- The first of all cuts. -/
theorem piecesUpTo_length_some (hd : d ≠ []) (hcut : CutsAt d cut) {s w u : List α}
    (h : cut s = some (w, u)) :
    piecesUpTo cut s.length s = w :: piecesUpTo cut u.length u := by
  have hpos := List.length_pos_of_ne_nil hd
  have hlength := hcut.length h
  have hrest : piecesUpTo cut (s.length - 1) u = piecesUpTo cut u.length u :=
    piecesUpTo_eq_of_le hd hcut (by omega) (Nat.le_refl _)
  have hsucc : s.length = s.length - 1 + 1 := by omega
  rw [hsucc, piecesUpTo_some h, hrest]

variable (cut) in
/-- One piece more than cuts. -/
theorem length_piecesUpTo_le_succ (n : Nat) (s : List α) :
    (piecesUpTo cut n s).length ≤ n + 1 := by
  induction n generalizing s with
  | zero => exact Nat.le_refl 1
  | succ n ih =>
      cases h : cut s with
      | none =>
          rw [piecesUpTo_none h]
          exact Nat.le_add_left 1 (n + 1)
      | some p =>
          rw [piecesUpTo_some h, List.length_cons]
          exact Nat.succ_le_succ (ih p.2)

theorem length_piecesUpTo_le (hd : d ≠ []) (hcut : CutsAt d cut) (n : Nat) (s : List α) :
    (piecesUpTo cut n s).length ≤ s.length + 1 := by
  have hpos := List.length_pos_of_ne_nil hd
  induction n generalizing s with
  | zero => exact Nat.le_add_left 1 s.length
  | succ n ih =>
      cases h : cut s with
      | none =>
          rw [piecesUpTo_none h]
          exact Nat.le_add_left 1 s.length
      | some p =>
          have hlength := hcut.length h
          have hrest := ih p.2
          rw [piecesUpTo_some h, List.length_cons]
          omega

theorem intercalate_cons {ps : List (List α)} (h : ps ≠ []) (p : List α) :
    d.intercalate (p :: ps) = p ++ d ++ d.intercalate ps := by
  cases ps with
  | nil => exact absurd rfl h
  | cons q qs => simp [List.intercalate]

/-- The pieces joined again. -/
theorem intercalate_piecesUpTo (hcut : CutsAt d cut) (n : Nat) (s : List α) :
    d.intercalate (piecesUpTo cut n s) = s := by
  induction n generalizing s with
  | zero => simp [piecesUpTo, List.intercalate]
  | succ n ih =>
      cases h : cut s with
      | none =>
          rw [piecesUpTo_none h]
          simp [List.intercalate]
      | some p =>
          rw [piecesUpTo_some h, intercalate_cons (piecesUpTo_ne_nil cut n p.2), ih,
            ← hcut s p.1 p.2 h]

/-- The texts at the spans of the pieces are the pieces. -/
theorem map_slice_spans (x : List α) (ps : List (List α)) :
    (spans d.length x.length ps).map (slice (x ++ d.intercalate ps)) = ps := by
  induction ps generalizing x with
  | nil => rfl
  | cons p ps ih =>
      have hfirst : slice (x ++ d.intercalate (p :: ps)) (x.length, x.length + p.length) = p := by
        cases ps with
        | nil => simp [slice, List.intercalate]
        | cons q qs => simp [slice, intercalate_cons]
      cases ps with
      | nil => rw [spans, spans, List.map_cons, hfirst, List.map_nil]
      | cons q qs =>
          have hrest := ih (x ++ p ++ d)
          have htext : x ++ d.intercalate (p :: q :: qs)
              = x ++ p ++ d ++ d.intercalate (q :: qs) := by
            rw [intercalate_cons (List.cons_ne_nil q qs)]
            simp
          rw [List.length_append, List.length_append] at hrest
          rw [spans, List.map_cons, hfirst, htext, hrest]

/-- **Fewer cuts**: the first pieces stay what they are, and the last one goes
on to the end. -/
theorem spans_piecesUpTo (hcut : CutsAt d cut) {m n : Nat} (hmn : m ≤ n) (k : Nat)
    (s : List α) :
    let all := spans d.length k (piecesUpTo cut n s)
    let few := min m (all.length - 1)
    spans d.length k (piecesUpTo cut m s)
      = all.take few ++ ((all.drop few).take 1).map fun span => (span.1, k + s.length) := by
  induction m generalizing n k s with
  | zero =>
      cases n with
      | zero => simp [piecesUpTo, spans]
      | succ n =>
          cases h : cut s with
          | none => simp [piecesUpTo, h, spans]
          | some p => simp [piecesUpTo, h, spans]
  | succ m ih =>
      cases n with
      | zero => omega
      | succ n =>
          cases h : cut s with
          | none => simp [piecesUpTo, h, spans]
          | some p =>
              have hlength := hcut.length h
              have hrest := ih (Nat.le_of_succ_le_succ hmn) (k + p.1.length + d.length) p.2
              have hend : k + p.1.length + d.length + p.2.length = k + s.length := by omega
              have hpos := List.length_pos_of_ne_nil (piecesUpTo_ne_nil cut n p.2)
              have hfew : min (m + 1) ((piecesUpTo cut n p.2).length + 1 - 1)
                  = min m ((piecesUpTo cut n p.2).length - 1) + 1 := by omega
              simp only [length_spans, hend] at hrest
              simp only [piecesUpTo_some h, spans, length_spans, List.length_cons, hfew,
                List.take_succ_cons, List.drop_succ_cons, List.cons_append]
              rw [hrest]

/-! ## All pieces -/

variable [DecidableEq α]

theorem cutsAt_cutFirst (d : List α) : CutsAt d (cutFirst d) := fun _ _ _ h =>
  (cutFirst_some h).1

/-- `s` cut at every `d`, from left to right, a cut never inside another one.
A cut takes symbols away, so there are at most `s.length`. -/
def pieces (d s : List α) : List (List α) :=
  piecesUpTo (cutFirst d) s.length s

theorem pieces_none {s : List α} (h : cutFirst d s = none) : pieces d s = [s] :=
  piecesUpTo_none h _

theorem pieces_some (hd : d ≠ []) {s w u : List α} (h : cutFirst d s = some (w, u)) :
    pieces d s = w :: pieces d u :=
  piecesUpTo_length_some hd (cutsAt_cutFirst d) h

/-- **No piece has the delimiter in it.** -/
theorem not_infix_of_mem_pieces (hd : d ≠ []) {s p : List α} (hp : p ∈ pieces d s) :
    ¬ d <:+: p := by
  induction s using (cutsAt_cutFirst d).induction hd with
  | hnone s h =>
      rw [pieces_none h, List.mem_singleton] at hp
      rw [hp]
      exact (cutFirst_eq_none hd).mp h
  | hsome s w u h ih =>
      rw [pieces_some hd h, List.mem_cons] at hp
      cases hp with
      | inl hw =>
          rw [hw]
          exact not_infix_of_cutFirst hd h
      | inr hu => exact ih hu

/-- The pieces joined again, by the delimiter. -/
theorem intercalate_pieces (d s : List α) : d.intercalate (pieces d s) = s :=
  intercalate_piecesUpTo (cutsAt_cutFirst d) _ s

/-! ## Cuts that leave something -/

/-- The text before the first `d`, and the text behind it if there is any. -/
def cutInside (d s : List α) : Option (List α × List α) :=
  (cutFirst d s).filter fun p => p.2 ≠ []

/-- The pieces if a `d` that ends the text does not count. -/
def innerPieces (d s : List α) : List (List α) :=
  piecesUpTo (cutInside d) s.length s

/-- One of the cuts from left to right is at the very end. -/
inductive EndsInCut (d : List α) : List α → Prop
  | last {s w : List α} : cutFirst d s = some (w, []) → EndsInCut d s
  | next {s w u : List α} : cutFirst d s = some (w, u) → EndsInCut d u → EndsInCut d s

theorem cutInside_eq_some {s w u : List α} :
    cutInside d s = some (w, u) ↔ cutFirst d s = some (w, u) ∧ u ≠ [] := by
  simp [cutInside]

theorem cutInside_eq_none {s : List α} :
    cutInside d s = none ↔ ∀ w u, cutFirst d s = some (w, u) → u = [] := by
  simp [cutInside]

theorem cutInside_of_isPrefix {a : α} {s : List α} (h : d <+: a :: s) :
    cutInside d (a :: s)
      = if d.length < (a :: s).length then some ([], (a :: s).drop d.length) else none := by
  have hfirst : cutFirst d (a :: s) = some ([], (a :: s).drop d.length) := if_pos h
  rw [cutInside, hfirst, Option.filter_some]
  by_cases hlt : d.length < (a :: s).length
  · have hne : (a :: s).drop d.length ≠ [] := fun hnil =>
      absurd (List.drop_eq_nil_iff.mp hnil) (Nat.not_le.mpr hlt)
    rw [if_pos hlt, if_pos (by simpa using hne)]
  · have hnil : (a :: s).drop d.length = [] := List.drop_eq_nil_iff.mpr (Nat.not_lt.mp hlt)
    rw [if_neg hlt, hnil, if_neg (by simp)]

theorem cutInside_cons {a : α} {s : List α} (h : ¬ d <+: a :: s) :
    cutInside d (a :: s) = (cutInside d s).map fun p => (a :: p.1, p.2) := by
  rw [cutInside, cutFirst, if_neg h, cutInside]
  cases cutFirst d s with
  | none => rfl
  | some p =>
      rw [Option.map_some, Option.filter_some, Option.filter_some]
      split <;> rfl

theorem cutsAt_cutInside (d : List α) : CutsAt d (cutInside d) := fun s w u h =>
  cutsAt_cutFirst d s w u (cutInside_eq_some.mp h).1

/-- No cut: each `d` is at the very end. -/
theorem cutInside_eq_none_iff (hd : d ≠ []) {s : List α} :
    cutInside d s = none ↔ ∀ i, i + d.length < s.length → ¬ d <+: s.drop i := by
  constructor
  · intro h i hi hprefix
    have hinfix : d <:+: s := hprefix.isInfix.trans (List.drop_suffix i s).isInfix
    cases hcut : cutFirst d s with
    | none => exact (cutFirst_eq_none hd).mp hcut hinfix
    | some p =>
        have hlength := (cutsAt_cutFirst d).length hcut
        have hu := cutInside_eq_none.mp h p.1 p.2 hcut
        rw [hu, List.length_nil] at hlength
        exact (cutFirst_some hcut).2 i (by omega) hprefix
  · intro h
    cases hcut : cutInside d s with
    | none => rfl
    | some p =>
        have hlength := (cutsAt_cutInside d).length hcut
        have hu := List.length_pos_of_ne_nil (cutInside_eq_some.mp hcut).2
        have hs := cutsAt_cutInside d s p.1 p.2 hcut
        refine absurd ?_ (h p.1.length (by omega))
        rw [hs, List.append_assoc, List.drop_left]
        exact List.prefix_append d p.2

theorem innerPieces_none {s : List α} (h : cutInside d s = none) : innerPieces d s = [s] :=
  piecesUpTo_none h _

theorem innerPieces_some (hd : d ≠ []) {s w u : List α} (h : cutInside d s = some (w, u)) :
    innerPieces d s = w :: innerPieces d u :=
  piecesUpTo_length_some hd (cutsAt_cutInside d) h

theorem EndsInCut.cases_some {s w u : List α} (h : cutFirst d s = some (w, u)) :
    EndsInCut d s ↔ u = [] ∨ EndsInCut d u := by
  constructor
  · intro hends
    cases hends with
    | last hcut =>
        rw [h] at hcut
        cases hcut
        exact .inl rfl
    | next hcut hrest =>
        rw [h] at hcut
        cases hcut
        exact .inr hrest
  · intro hends
    cases hends with
    | inl hnil => exact .last (hnil ▸ h)
    | inr hrest => exact .next h hrest

theorem not_endsInCut_of_none {s : List α} (h : cutFirst d s = none) : ¬ EndsInCut d s := by
  intro hends
  cases hends with
  | last hcut => simp [h] at hcut
  | next hcut _ => simp [h] at hcut

/-- Such a text ends with `d`. -/
theorem EndsInCut.isSuffix {s : List α} (h : EndsInCut d s) : d <:+ s := by
  induction h with
  | @last s w hcut =>
      rw [(cutFirst_some hcut).1, List.append_nil]
      exact List.suffix_append w d
  | @next s w u hcut _ ih =>
      rw [(cutFirst_some hcut).1]
      exact ih.trans (List.suffix_append (w ++ d) u)

/-- **What is lost**: the last cut of a text that ends in one, and no other
cut. -/
theorem pieces_cases (hd : d ≠ []) (s : List α) :
    EndsInCut d s ∧ (pieces d s).length = (innerPieces d s).length + 1
      ∨ ¬ EndsInCut d s ∧ pieces d s = innerPieces d s := by
  induction s using (cutsAt_cutFirst d).induction hd with
  | hnone s h =>
      have hinside : cutInside d s = none := by
        rw [cutInside, h]
        rfl
      rw [pieces_none h, innerPieces_none hinside]
      exact .inr ⟨not_endsInCut_of_none h, rfl⟩
  | hsome s w u h ih =>
      rw [EndsInCut.cases_some h, pieces_some hd h]
      by_cases hu : u = []
      · have hinside : cutInside d s = none := by simp [cutInside, h, hu]
        rw [innerPieces_none hinside, hu]
        exact .inl ⟨.inl rfl, rfl⟩
      · rw [innerPieces_some hd (cutInside_eq_some.mpr ⟨h, hu⟩)]
        cases ih with
        | inl hends => exact .inl ⟨.inr hends.1, by simp [hends.2]⟩
        | inr hends => exact .inr ⟨by simp [hu, hends.1], by rw [hends.2]⟩

end CWebServer.Lib
