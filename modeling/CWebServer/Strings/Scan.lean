import CWebServer.Strings.Decimal
import CWebServer.Strings.Trim

/-!
# Strings — Scan

`%i` reads letters of both cases, and reads what `%d` prints.
-/

namespace CWebServer.Strings

/-! ## Lower case -/

@[simp] theorem isspace_tolower (c : UInt8) : isspace (tolower c) = isspace c :=
  forall_byte (p := fun c => isspace (tolower c) = isspace c) (by decide) c

@[simp] theorem digitValue_tolower (c : UInt8) : digitValue (tolower c) = digitValue c :=
  forall_byte (p := fun c => digitValue (tolower c) = digitValue c) (by decide) c

theorem cstr_stringTolower (s : Bytes) : cstr (stringTolower s) = stringTolower (cstr s) := by
  have hzero : ∀ c, decide (tolower c ≠ 0) = decide (c ≠ 0) := by
    intro c
    rw [Bool.eq_iff_iff, decide_eq_true_iff, decide_eq_true_iff, ne_eq, ne_eq,
      tolower_eq_iff (by decide)]
  unfold cstr stringTolower
  rw [List.takeWhile_map]
  congr 2
  funext c
  exact hzero c

theorem basePrefix_of_ne {c : UInt8} (hc : c ≠ 48) (s : Bytes) :
    basePrefix (c :: s) = (10, c :: s) := by
  unfold basePrefix
  split <;> simp_all

theorem takeSign_stringTolower (s : Bytes) :
    takeSign (stringTolower s) = ((takeSign s).1, stringTolower (takeSign s).2) := by
  cases s with
  | nil => rfl
  | cons c s =>
      by_cases hminus : c = 45
      · subst hminus
        rfl
      · by_cases hplus : c = 43
        · subst hplus
          rfl
        · rw [takeSign_of_ne hminus hplus]
          apply takeSign_of_ne
          · exact fun h => hminus ((tolower_eq_iff (by decide)).mp h)
          · exact fun h => hplus ((tolower_eq_iff (by decide)).mp h)

theorem basePrefix_stringTolower (s : Bytes) :
    basePrefix (stringTolower s) = ((basePrefix s).1, stringTolower (basePrefix s).2) := by
  cases s with
  | nil => rfl
  | cons c s =>
      by_cases hc : c = 48
      · subst hc
        cases s with
        | nil => rfl
        | cons x t =>
            have hx : (tolower x = 120 ∨ tolower x = 88) ↔ (x = 120 ∨ x = 88) :=
              forall_byte
                (p := fun x => (tolower x = 120 ∨ tolower x = 88) ↔ (x = 120 ∨ x = 88))
                (by decide) x
            show (if tolower x = 120 ∨ tolower x = 88 then (16, stringTolower t)
              else (8, 48 :: stringTolower (x :: t))) = _
            by_cases hhex : x = 120 ∨ x = 88
            · rw [if_pos (hx.mpr hhex), basePrefix, if_pos hhex]
            · rw [if_neg (fun h => hhex (hx.mp h)), basePrefix, if_neg hhex]
              rfl
      · rw [basePrefix_of_ne hc]
        exact basePrefix_of_ne (fun h => hc ((tolower_eq_iff (by decide)).mp h)) _

theorem numberValue_stringTolower (base : Nat) (digits : Bytes) :
    numberValue base (stringTolower digits) = numberValue base digits := by
  unfold numberValue stringTolower
  rw [List.foldl_map]
  simp

theorem sscanfI_stringTolower (text : Bytes) : sscanfI (stringTolower text) = sscanfI text := by
  have hblanks : ∀ s,
      (stringTolower s).dropWhile isspace = stringTolower (s.dropWhile isspace) := by
    intro s
    unfold stringTolower
    rw [List.dropWhile_map]
    congr 2
    funext c
    exact isspace_tolower c
  have hdigits : ∀ base s, (stringTolower s).takeWhile (digitValue · < base)
      = stringTolower (s.takeWhile (digitValue · < base)) := by
    intro base s
    unfold stringTolower
    rw [List.takeWhile_map]
    congr 2
    funext c
    simp
  have hnil : ∀ s, stringTolower s = [] ↔ s = [] := fun _ => List.map_eq_nil_iff
  have hlength : ∀ s, (stringTolower s).length = s.length := fun _ => List.length_map _
  simp only [sscanfI, cstr_stringTolower, hblanks, takeSign_stringTolower,
    basePrefix_stringTolower, hdigits, hnil, hlength, numberValue_stringTolower]

/-! ## Decimal numbers -/

theorem decimal_zero : decimal 0 = [48] := by decide

/-- The decimal digits of a number, but for the last one. -/
theorem decimal_of_le {n : Nat} (h : 10 ≤ n) :
    decimal n = decimal (n / 10) ++ bytesOf [Nat.digitChar (n % 10)] := by
  rw [decimal_eq, decimal_eq, Nat.toDigits_of_base_le (by decide) h, bytesOf, List.map_append]
  rfl

theorem decimal_of_lt {n : Nat} (h : n < 10) : decimal n = bytesOf [Nat.digitChar n] := by
  rw [decimal_eq, Nat.toDigits_of_lt_base h]

/-- A number other than 0 does not begin with 0, and has no more digits than
its value. -/
theorem decimal_pos (n : Nat) (h : 0 < n) :
    (decimal n).head? ≠ some 48 ∧ (decimal n).length ≤ n := by
  induction n using Nat.strongRecOn with
  | _ n ih =>
      by_cases hn : n < 10
      · have hdigit : ∀ m : Fin 10, 0 < m.val →
            (bytesOf [Nat.digitChar m.val]).head? ≠ some 48
              ∧ (bytesOf [Nat.digitChar m.val]).length ≤ m.val := by decide
        rw [decimal_of_lt hn]
        exact hdigit ⟨n, hn⟩ h
      · have hquot := ih (n / 10) (by omega) (by omega)
        rw [decimal_of_le (by omega), List.head?_append_of_ne_nil _ (decimal_ne_nil _),
          List.length_append]
        have hone : (bytesOf [Nat.digitChar (n % 10)]).length = 1 := rfl
        refine ⟨hquot.1, ?_⟩
        omega

theorem numberValue_ten {digits : Bytes} (h : ∀ c ∈ digits, isdigit c = true) :
    numberValue 10 digits = decimalValue digits := by
  apply List.foldl_ext
  intro n c hc
  rw [digitValue, if_pos (h c hc)]

/-- What is printed with `%d` is read with `%i`, to its end. -/
theorem sscanfI_decimal {n : Nat} (h : n < 2 ^ 31) :
    sscanfI (decimal n) = some ((n : Int), ((decimal n).length : Int)) := by
  rcases Nat.eq_zero_or_pos n with rfl | hpos
  · rw [decimal_zero]
    decide
  obtain ⟨hhead, hlength⟩ := decimal_pos n hpos
  have hall : (decimal n).takeWhile (digitValue · < 10) = decimal n := by
    apply List.takeWhile_eq_self_iff.mpr
    intro c hc
    have hlt : ∀ c, isdigit c = true → digitValue c < 10 :=
      forall_byte (p := fun c => isdigit c = true → digitValue c < 10) (by decide)
    exact decide_eq_true (hlt c (isdigit_decimal hc))
  have hvalue : numberValue 10 (decimal n) = n := by
    rw [numberValue_ten fun _ hc => isdigit_decimal hc, decimalValue_decimal]
  have hscan : takeSign ((decimal n).dropWhile isspace) = (false, decimal n)
      ∧ basePrefix (decimal n) = (10, decimal n) := by
    cases hdecimal : decimal n with
    | nil => exact absurd hdecimal (decimal_ne_nil n)
    | cons c s =>
        obtain ⟨hspace, hsign⟩ :=
          takeSign_digit (isdigit_decimal (hdecimal ▸ List.mem_cons_self)) s
        rw [hdecimal, List.head?_cons, ne_eq, Option.some.injEq] at hhead
        rw [List.dropWhile_cons_of_neg (by simp [hspace])]
        exact ⟨hsign, basePrefix_of_ne hhead s⟩
  unfold sscanfI
  simp only [cstr_decimal, hscan.1, hscan.2, hall, decimal_ne_nil n, false_and, hvalue,
    Bool.false_eq_true, if_false, Nat.sub_self, Nat.sub_zero, clampLong_of_lt h, toInt_of_lt h,
    toInt_of_lt (lt_of_le_of_lt hlength h)]

end CWebServer.Strings
