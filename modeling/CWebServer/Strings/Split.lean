import CWebServer.Strings.Pieces

/-!
# Strings — Split

What `string_split` gives for a delimiter of one byte and at most two
results, which is how the HTTP code calls it. The loop stops before the last
byte, so a delimiter there does not count: `cutAt` has the same rule.
-/

namespace CWebServer.Strings

open CWebServer.Lib

/-- A text cut at the first `c` that is not its last byte. -/
def cutAt (c : UInt8) : Bytes → Option (Bytes × Bytes)
  | [] => none
  | [_] => none
  | a :: b :: s =>
      if a = c then some ([], b :: s)
      else (cutAt c (b :: s)).map fun p => (a :: p.1, p.2)

/-- All pieces of a text that is cut in this way until nothing can be cut. -/
def cutAll (c : UInt8) : Bytes → List Bytes
  | [] => [[]]
  | [a] => [[a]]
  | a :: b :: s =>
      if a = c then [] :: cutAll c (b :: s)
      else
        match cutAll c (b :: s) with
        | [] => [[a]]
        | w :: ws => (a :: w) :: ws

/-- It is a cut at a text of one byte that leaves something. -/
theorem cutAt_eq_cutInside (c : UInt8) (s : Bytes) : cutAt c s = cutInside [c] s := by
  induction s with
  | nil => rfl
  | cons a s ih =>
      by_cases hac : a = c
      · subst hac
        have hfront : [a] <+: a :: s := List.prefix_append [a] s
        rw [cutInside_of_isPrefix hfront]
        cases s with
        | nil => rfl
        | cons b s => simp [cutAt]
      · have hfront : ¬ [c] <+: a :: s := by simpa using Ne.symm hac
        rw [cutInside_cons hfront, ← ih]
        cases s with
        | nil => rfl
        | cons b s => rw [cutAt, if_neg hac]

theorem cutAt_some {c : UInt8} {s w u : Bytes} (h : cutAt c s = some (w, u)) :
    s = w ++ c :: u ∧ c ∉ w ∧ u ≠ [] := by
  rw [cutAt_eq_cutInside, cutInside_eq_some] at h
  obtain ⟨hcut, hu⟩ := h
  have hs := cutsAt_cutFirst [c] s w u hcut
  have hfree := not_infix_of_cutFirst (List.cons_ne_nil c []) hcut
  rw [List.append_assoc, List.singleton_append] at hs
  rw [List.singleton_infix_iff] at hfree
  exact ⟨hs, hfree, hu⟩

/-- One cut, and the rest of them. -/
theorem cutAll_eq (c : UInt8) (s : Bytes) :
    cutAll c s =
      match cutAt c s with
      | none => [s]
      | some (w, u) => w :: cutAll c u := by
  induction s with
  | nil => rfl
  | cons a s ih =>
      cases s with
      | nil => rfl
      | cons b s =>
          rw [cutAll, cutAt]
          by_cases hac : a = c
          · simp [hac]
          · simp only [if_neg hac]
            rw [ih]
            cases cutAt c (b :: s) with
            | none => rfl
            | some p => rfl

theorem cutAll_ne_nil (c : UInt8) (s : Bytes) : cutAll c s ≠ [] := by
  rw [cutAll_eq]
  cases cutAt c s with
  | none => exact List.cons_ne_nil _ _
  | some p => exact List.cons_ne_nil _ _

/-- A delimiter with something behind it is found. -/
theorem cutAt_append {c : UInt8} {w u : Bytes} (hw : c ∉ w) (hu : u ≠ []) :
    cutAt c (w ++ c :: u) = some (w, u) := by
  induction w with
  | nil =>
      cases u with
      | nil => exact absurd rfl hu
      | cons b u => simp [cutAt]
  | cons a w ih =>
      rw [List.mem_cons, not_or] at hw
      have hrest := ih hw.2
      cases w with
      | nil =>
          rw [List.nil_append] at hrest
          rw [List.singleton_append, cutAt, if_neg (Ne.symm hw.1), hrest]
          rfl
      | cons b w =>
          rw [List.cons_append] at hrest
          rw [List.cons_append, List.cons_append, cutAt, if_neg (Ne.symm hw.1), hrest]
          rfl

theorem cutAt_of_not_mem {c : UInt8} {s : Bytes} (h : c ∉ s) : cutAt c s = none := by
  cases hcut : cutAt c s with
  | none => rfl
  | some p =>
      obtain ⟨hs, -, -⟩ := cutAt_some hcut
      exact absurd (hs ▸ by simp) h

/-- A delimiter in the last byte is not. -/
theorem cutAt_last {c : UInt8} {w : Bytes} (h : c ∉ w) : cutAt c (w ++ [c]) = none := by
  cases hcut : cutAt c (w ++ [c]) with
  | none => rfl
  | some p =>
      obtain ⟨hs, -, hne⟩ := cutAt_some hcut
      have hparts := (List.append_cons_inj_of_notMem h List.not_mem_nil).mp hs
      exact absurd hparts.2.2.symm hne

/-- `string_split` for one byte and two results: a cut or none. -/
theorem stringSplit_cutAt (c : UInt8) {s x t : Bytes} (hs : s = x ++ t) :
    stringSplit s x.length [c] 2 2 =
      match cutAt c t with
      | none => (1, [(x.length, s.length)])
      | some (w, _) =>
          (2, [(x.length, (x ++ w).length), ((x ++ w).length + 1, s.length)]) := by
  have hlength : x.length + t.length = s.length := by rw [hs, List.length_append]
  have hdrop : s.drop x.length = t := by rw [hs, List.drop_left]
  have hsplit := @stringSplit_spans s [c] x.length (List.cons_ne_nil c []) (by omega) 2 0 2 rfl
  rw [hdrop] at hsplit
  rw [hsplit, cutAt_eq_cutInside]
  cases hcut : cutInside [c] t with
  | none =>
      rw [piecesUpTo_none hcut, spans, spans, hlength]
      rfl
  | some p =>
      obtain ⟨w, u⟩ := p
      have hend : x.length + w.length + 1 + u.length = s.length := by
        have hparts := (cutsAt_cutInside [c]).length hcut
        rw [List.length_singleton] at hparts
        omega
      rw [piecesUpTo_some hcut, piecesUpTo, spans, spans, spans, List.length_singleton, hend]
      simp

end CWebServer.Strings
