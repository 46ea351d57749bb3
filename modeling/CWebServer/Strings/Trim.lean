import CWebServer.Lib.Delimiters
import CWebServer.Strings.Model
import Mathlib.Data.List.DropRight

/-!
# Strings — Trim

A text without the bytes of a set at its two ends, which is what the trims of
`Strings.Any` are to leave, and `string_tolower`.
-/

namespace CWebServer.Strings

open CWebServer.Lib

/-! ## Trimming -/

/-- A text without the bytes of `find` at its two ends. -/
def trim (find s : Bytes) : Bytes :=
  (s.dropWhile (· ∈ find)).rdropWhile (· ∈ find)

/-- What is left stands in one piece in the text. -/
theorem trim_isInfix (find s : Bytes) : trim find s <:+: s :=
  (List.rdropWhile_prefix _ _).isInfix.trans (List.dropWhile_suffix _).isInfix

theorem mem_trim {find s : Bytes} {c : UInt8} (h : c ∈ trim find s) : c ∈ s :=
  (trim_isInfix find s).subset h

/-- A first byte that is not trimmed stays the first one. -/
theorem trim_cons {find : Bytes} {c : UInt8} (hc : c ∉ find) (s : Bytes) :
    trim find (c :: s) = c :: s.rdropWhile (· ∈ find) := by
  rw [trim, List.dropWhile_cons_of_neg (by simpa using hc)]
  induction s using List.reverseRecOn with
  | nil => rw [List.rdropWhile_singleton, if_neg (by simpa using hc), List.rdropWhile_nil]
  | append_singleton s d ih =>
      rw [← List.cons_append]
      by_cases hd : d ∈ find
      · rw [List.rdropWhile_concat_pos _ _ _ (by simpa using hd),
          List.rdropWhile_concat_pos _ _ _ (by simpa using hd), ih]
      · rw [List.rdropWhile_concat_neg _ _ _ (by simpa using hd),
          List.rdropWhile_concat_neg _ _ _ (by simpa using hd), List.cons_append]

/-- Nothing is left of a text of such bytes only. -/
theorem trim_eq_nil {find s : Bytes} : trim find s = [] ↔ ∀ c ∈ s, c ∈ find := by
  cases hdrop : s.dropWhile (· ∈ find) with
  | nil =>
      rw [trim, hdrop]
      exact iff_of_true rfl fun c hc => by simpa using List.dropWhile_eq_nil_iff.mp hdrop c hc
  | cons c t =>
      have hc : c ∉ find := by
        have hhead := List.head_dropWhile_not (· ∈ find) (l := s) (by simp [hdrop])
        simpa [hdrop] using hhead
      have htrim : trim find s = c :: t.rdropWhile (· ∈ find) := by
        rw [← trim_cons hc, trim, trim, hdrop, List.dropWhile_cons_of_neg (by simpa using hc)]
      have hmem : c ∈ s := (List.dropWhile_suffix _).subset (hdrop ▸ List.mem_cons_self)
      rw [htrim]
      exact iff_of_false (List.cons_ne_nil _ _) fun hall => hc (hall c hmem)

/-- A text without the bytes of `find` is left alone. -/
theorem trim_eq_self {find s : Bytes} (h : ∀ c ∈ s, c ∉ find) : trim find s = s := by
  have hdrop : s.dropWhile (· ∈ find) = s := by
    cases s with
    | nil => rfl
    | cons c s => exact List.dropWhile_cons_of_neg (by simpa using h c List.mem_cons_self)
  rw [trim, hdrop]
  induction s using List.reverseRecOn with
  | nil => rfl
  | append_singleton s c =>
      exact List.rdropWhile_concat_neg _ _ _ (by simpa using h c (by simp))

/-- Trimming once is enough. -/
theorem trim_trim (find s : Bytes) : trim find (trim find s) = trim find s := by
  have hfirst : (trim find s).dropWhile (· ∈ find) = trim find s := by
    cases hdrop : s.dropWhile (· ∈ find) with
    | nil => rw [trim, hdrop, List.rdropWhile_nil, List.dropWhile_nil]
    | cons c t =>
        have hc : c ∉ find := by
          have hhead := List.head_dropWhile_not (· ∈ find) (l := s) (by simp [hdrop])
          simpa [hdrop] using hhead
        have htrim : trim find s = c :: t.rdropWhile (· ∈ find) := by
          rw [← trim_cons hc, trim, trim, hdrop, List.dropWhile_cons_of_neg (by simpa using hc)]
        rw [htrim, List.dropWhile_cons_of_neg (by simpa using hc)]
  unfold trim at hfirst ⊢
  rw [hfirst, List.rdropWhile_idempotent]

/-! ## Lower case -/

theorem tolower_tolower (c : UInt8) : tolower (tolower c) = tolower c :=
  forall_byte (p := fun c => tolower (tolower c) = tolower c) (by decide) c

@[simp] theorem stringTolower_stringTolower (s : Bytes) :
    stringTolower (stringTolower s) = stringTolower s := by
  simp [stringTolower, tolower_tolower]

@[simp] theorem isLetter_tolower (c : UInt8) : isLetter (tolower c) = isLetter c :=
  forall_byte (p := fun c => isLetter (tolower c) = isLetter c) (by decide) c

/-- Only letters change, and they become letters. -/
theorem tolower_eq_iff {c d : UInt8} (hd : isLetter d = false) : tolower c = d ↔ c = d := by
  have hsame : ∀ c, isLetter c = false → tolower c = c :=
    forall_byte (p := fun c => isLetter c = false → tolower c = c) (by decide)
  constructor
  · rintro rfl
    exact (hsame c (by rwa [isLetter_tolower] at hd)).symm
  · rintro rfl
    exact hsame c hd

theorem mem_stringTolower {d : UInt8} (hd : isLetter d = false) (s : Bytes) :
    d ∈ stringTolower s ↔ d ∈ s := by
  simp [stringTolower, tolower_eq_iff hd]

end CWebServer.Strings
