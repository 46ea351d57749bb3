import CWebServer.Strings.Model
import Mathlib.Data.List.TakeWhile

/-!
# Strings — Decimal

What `%zu` prints is read back by `%zu`.
-/

namespace CWebServer.Strings

/-- The bytes of a text of ASCII characters. -/
def bytesOf (cs : List Char) : Bytes := cs.map fun c => UInt8.ofNat c.toNat

theorem decimal_eq (n : Nat) : decimal n = bytesOf (Nat.toDigits 10 n) := by
  unfold decimal ascii bytesOf
  rw [Nat.toString_eq_ofList_toDigits, String.toList_ofList]

theorem toNat_digit {c : Char} (h : c.isDigit = true) :
    48 ≤ c.toNat ∧ c.toNat ≤ 57 ∧ (UInt8.ofNat c.toNat).toNat = c.toNat := by
  simp only [Char.isDigit, Bool.and_eq_true, decide_eq_true_eq, UInt32.le_iff_toNat_le] at h
  have hlow : 48 ≤ c.toNat := h.1
  have hhigh : c.toNat ≤ 57 := h.2
  refine ⟨hlow, hhigh, ?_⟩
  rw [UInt8.toNat_ofNat']
  omega

theorem isdigit_ofNat {c : Char} (h : c.isDigit = true) : isdigit (UInt8.ofNat c.toNat) = true := by
  obtain ⟨hlow, hhigh, hbyte⟩ := toNat_digit h
  simp only [isdigit, Bool.and_eq_true, decide_eq_true_eq, UInt8.le_iff_toNat_le, hbyte]
  exact ⟨hlow, hhigh⟩

theorem isdigit_decimal {n : Nat} {c : UInt8} (h : c ∈ decimal n) : isdigit c = true := by
  rw [decimal_eq] at h
  obtain ⟨d, hd, rfl⟩ := List.mem_map.mp h
  exact isdigit_ofNat (Nat.isDigit_of_mem_toDigits (by decide) (by decide) hd)

theorem decimal_ne_nil (n : Nat) : decimal n ≠ [] := by
  rw [decimal_eq]
  exact fun h => Nat.toDigits_ne_nil (List.map_eq_nil_iff.mp h)

/-- The value of a text of digits. -/
theorem foldl_bytesOf (cs : List Char) (h : ∀ c ∈ cs, c.isDigit = true) (init : Nat) :
    (bytesOf cs).foldl (fun n c => n * 10 + (c.toNat - 48)) init = Nat.ofDigitChars 10 cs init := by
  induction cs generalizing init with
  | nil => simp [bytesOf]
  | cons c cs ih =>
      rw [List.forall_mem_cons] at h
      rw [Nat.ofDigitChars_cons, ← ih h.2]
      show List.foldl _ (init * 10 + ((UInt8.ofNat c.toNat).toNat - 48)) (bytesOf cs) = _
      rw [(toNat_digit h.1).2.2, Nat.mul_comm]
      rfl

theorem decimalValue_decimal (n : Nat) : decimalValue (decimal n) = n := by
  have hdigits : ∀ c ∈ Nat.toDigits 10 n, c.isDigit = true :=
    fun c hc => Nat.isDigit_of_mem_toDigits (by decide) (by decide) hc
  rw [decimalValue, decimal_eq, foldl_bytesOf _ hdigits, Nat.ofDigitChars_ten_toDigits]

theorem cstr_decimal (n : Nat) : cstr (decimal n) = decimal n := by
  apply cstr_eq_self
  intro hzero
  exact absurd (isdigit_decimal hzero) (by decide)

theorem takeSign_of_ne {c : UInt8} (hminus : c ≠ 45) (hplus : c ≠ 43) (s : Bytes) :
    takeSign (c :: s) = (false, c :: s) := by
  unfold takeSign
  split
  · rename_i heq
    exact absurd (List.cons.inj heq).1 hminus
  · rename_i heq
    exact absurd (List.cons.inj heq).1 hplus
  · rfl

/-- A digit is neither blank nor a sign. -/
theorem takeSign_digit {c : UInt8} (h : isdigit c = true) (s : Bytes) :
    isspace c = false ∧ takeSign (c :: s) = (false, c :: s) := by
  have hc : ∀ c : BitVec 8, isdigit (UInt8.ofBitVec c) = true →
      isspace (UInt8.ofBitVec c) = false ∧ UInt8.ofBitVec c ≠ 45
        ∧ UInt8.ofBitVec c ≠ 43 := by
    decide
  obtain ⟨hspace, hminus, hplus⟩ := hc c.toBitVec h
  exact ⟨hspace, takeSign_of_ne hminus hplus s⟩

/-- What is printed with `%zu` is read with `%zu`. -/
theorem sscanfZu_decimal {n : Nat} (h : n < 2 ^ 64) : sscanfZu (decimal n) = some n := by
  have hall : (decimal n).takeWhile isdigit = decimal n :=
    List.takeWhile_eq_self_iff.mpr fun _ hc => isdigit_decimal hc
  have hvalue := decimalValue_decimal n
  unfold sscanfZu
  rw [cstr_decimal]
  cases hdecimal : decimal n with
  | nil => exact absurd hdecimal (decimal_ne_nil n)
  | cons c s =>
      have hc : isdigit c = true := isdigit_decimal (hdecimal ▸ List.mem_cons_self)
      obtain ⟨hspace, hsign⟩ := takeSign_digit hc s
      rw [hdecimal] at hall hvalue
      rw [List.dropWhile_cons_of_neg (by simp [hspace]), hsign]
      simp only [hall, hvalue, Bool.false_eq_true, if_false, if_neg (Nat.not_le.mpr h)]

/-! ## Texts that are read -/

/-- Digits between spaces and tabs, and their value. -/
def DigitsText (v : Bytes) (n : Nat) : Prop :=
  ∃ before digits behind, v = before ++ digits ++ behind
    ∧ (∀ c ∈ before ++ behind, c = 32 ∨ c = 9) ∧ digits ≠ []
    ∧ (∀ c ∈ digits, isdigit c = true) ∧ decimalValue digits = n

/-- Another byte stands in the white space in front of the digits, or behind
them; a sign counts as behind no digits. -/
def Lenient (v : Bytes) : Prop :=
  ∃ c ∈ v.takeWhile isspace ++ (v.dropWhile isspace).dropWhile isdigit, c ≠ 32 ∧ c ≠ 9

theorem isspace_blank {c : UInt8} (h : c = 32 ∨ c = 9) :
    isspace c = true ∧ isdigit c = false := by
  rcases h with rfl | rfl <;> decide

theorem DigitsText.not_lenient {v : Bytes} {n : Nat} (h : DigitsText v n) : ¬Lenient v := by
  obtain ⟨before, digits, behind, rfl, hblanks, hne, hdigits, -⟩ := h
  simp only [List.mem_append] at hblanks
  have hspaces : ∀ c ∈ before, isspace c = true :=
    fun c hc => (isspace_blank (hblanks c (.inl hc))).1
  obtain ⟨d, ds, rfl⟩ := List.exists_cons_of_ne_nil hne
  have hd : ¬isspace d = true := by simp [(takeSign_digit (hdigits d List.mem_cons_self) []).1]
  have htake : (before ++ (d :: ds) ++ behind).takeWhile isspace = before := by
    rw [List.append_assoc, List.takeWhile_append_of_pos hspaces, List.cons_append,
      List.takeWhile_cons_of_neg hd, List.append_nil]
  have hdrop : (before ++ (d :: ds) ++ behind).dropWhile isspace = d :: ds ++ behind := by
    rw [List.append_assoc, List.dropWhile_append_of_pos hspaces, List.cons_append,
      List.dropWhile_cons_of_neg hd]
  have hbehind : (d :: ds ++ behind).dropWhile isdigit = behind := by
    rw [List.dropWhile_append_of_pos hdigits]
    cases behind with
    | nil => rfl
    | cons c behind =>
        have hc := (isspace_blank (hblanks c (.inr List.mem_cons_self))).2
        exact List.dropWhile_cons_of_neg (by simp [hc])
  rintro ⟨c, hc, hspace, htab⟩
  rw [htake, hdrop, hbehind, List.mem_append] at hc
  exact (hblanks c hc).elim hspace htab

/-- **What `%zu` reads** of a text without such a byte, up to the largest
number. -/
theorem digitsText_of_sscanfZu {v : Bytes} {n : Nat} (h : sscanfZu v = some n)
    (hlenient : ¬Lenient v) (hn : n < sizeMax) : DigitsText v n := by
  have hblanks : ∀ c ∈ v.takeWhile isspace ++ (v.dropWhile isspace).dropWhile isdigit,
      c = 32 ∨ c = 9 := by
    intro c hc
    by_contra hother
    exact hlenient ⟨c, hc, not_or.mp hother⟩
  have hdigits : ∀ c ∈ (v.dropWhile isspace).takeWhile isdigit, isdigit c = true :=
    fun c hc => List.mem_takeWhile_imp hc
  have hv : v.takeWhile isspace ++ (v.dropWhile isspace).takeWhile isdigit
      ++ (v.dropWhile isspace).dropWhile isdigit = v := by
    rw [List.append_assoc, List.takeWhile_append_dropWhile, List.takeWhile_append_dropWhile]
  have hzero : 0 ∉ v := by
    rw [← hv]
    simp only [List.mem_append, not_or] at hblanks ⊢
    refine ⟨⟨?_, ?_⟩, ?_⟩
    · exact fun hmem => absurd (hblanks 0 (.inl hmem)) (by decide)
    · exact fun hmem => absurd (hdigits 0 hmem) (by decide)
    · exact fun hmem => absurd (hblanks 0 (.inr hmem)) (by decide)
  rw [sscanfZu, cstr_eq_self hzero] at h
  cases hrest : v.dropWhile isspace with
  | nil =>
      rw [hrest] at h
      cases h
  | cons c t =>
      have hspace : isspace c = false := by
        have hhead := List.head?_dropWhile_not isspace v
        rw [hrest] at hhead
        exact hhead
      have hc : isdigit c = true := by
        by_contra hnot
        rw [hrest, List.dropWhile_cons_of_neg hnot] at hblanks
        have hblank := hblanks c (List.mem_append_right _ List.mem_cons_self)
        rw [(isspace_blank hblank).1] at hspace
        cases hspace
      rw [hrest, (takeSign_digit hc t).2] at h
      refine ⟨_, _, _, hv.symm, hblanks, ?_, hdigits, ?_⟩
      · rw [hrest, List.takeWhile_cons_of_pos hc]
        exact List.cons_ne_nil _ _
      · rw [hrest, List.takeWhile_cons_of_pos hc]
        simp only [List.takeWhile_cons_of_pos hc, Bool.false_eq_true, if_false] at h
        split at h
        · cases h
          exact absurd hn (Nat.lt_irrefl _)
        · exact Option.some.inj h

end CWebServer.Strings
