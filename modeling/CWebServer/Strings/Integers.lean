import CWebServer.Strings.Scan

/-!
# Strings — Integers

The texts that `%i` takes whole: white space, a sign, and a number in one of
the notations of C.
-/

namespace CWebServer.Strings

/-- A number in decimal, octal or hexadecimal notation, and its value. A `0x`
with no digit behind it is 0. -/
inductive Numeral : Bytes → Nat → Prop
  | decimal {s : Bytes} :
      s ≠ [] → s.head? ≠ some 48 → (∀ c ∈ s, isdigit c = true) →
        Numeral s (numberValue 10 s)
  | octal {s : Bytes} : (∀ c ∈ s, digitValue c < 8) → Numeral (48 :: s) (numberValue 8 s)
  | hex {x : UInt8} {s : Bytes} :
      x = 120 ∨ x = 88 → (∀ c ∈ s, digitValue c < 16) →
        Numeral (48 :: x :: s) (numberValue 16 s)

/-- A number with white space and a sign in front. -/
inductive CInteger : Bytes → Int → Prop
  | plain {s : Bytes} {n : Nat} : Numeral s n → CInteger s n
  | plus {s : Bytes} {n : Nat} : Numeral s n → CInteger (43 :: s) n
  | minus {s : Bytes} {n : Nat} : Numeral s n → CInteger (45 :: s) (-n)
  | blank {c : UInt8} {s : Bytes} {z : Int} :
      isspace c = true → CInteger s z → CInteger (c :: s) z

/-! ## Digits -/

theorem digitValue_lt_ten {c : UInt8} : digitValue c < 10 ↔ isdigit c = true :=
  forall_byte (p := fun c => digitValue c < 10 ↔ isdigit c = true) (by decide) c

theorem numberValue_zero (base : Nat) (s : Bytes) :
    numberValue base (48 :: s) = numberValue base s := by
  have hzero : digitValue 48 = 0 := by decide
  rw [numberValue, List.foldl_cons, hzero, Nat.zero_mul]
  rfl

theorem numberValue_append (base : Nat) (s : Bytes) (c : UInt8) :
    numberValue base (s ++ [c]) = numberValue base s * base + digitValue c := by
  rw [numberValue, List.foldl_append]
  rfl

/-- Octal digits make a larger number in decimal notation, unless there is
only one. -/
theorem octal_lt {s : Bytes} (h : 8 ≤ numberValue 10 s) (hs : ∀ c ∈ s, digitValue c < 8) :
    numberValue 8 s < numberValue 10 s := by
  have hle : ∀ s : Bytes, numberValue 8 s ≤ numberValue 10 s := by
    intro s
    induction s using List.reverseRecOn with
    | nil => exact Nat.le_refl _
    | append_singleton s c ih =>
        rw [numberValue_append, numberValue_append]
        omega
  induction s using List.reverseRecOn with
  | nil => exact absurd h (by decide)
  | append_singleton s c ih =>
      have hprefix := hle s
      have hc : digitValue c < 8 := hs c (by simp)
      rw [numberValue_append] at h ⊢
      rw [numberValue_append]
      omega

/-- A decimal number below 8 is the same in octal notation. -/
theorem octal_eq {s : Bytes} (h : numberValue 10 s < 8) (hs : ∀ c ∈ s, isdigit c = true) :
    (∀ c ∈ s, digitValue c < 8) ∧ numberValue 8 s = numberValue 10 s := by
  induction s using List.reverseRecOn with
  | nil => exact ⟨fun c hc => absurd hc (by simp), rfl⟩
  | append_singleton s c ih =>
      rw [numberValue_append] at h ⊢
      rw [numberValue_append]
      obtain ⟨hall, hvalue⟩ := ih (by omega) fun d hd => hs d (by simp [hd])
      constructor
      · intro d hd
        rcases List.mem_append.mp hd with hd | hd
        · exact hall d hd
        · rw [List.mem_singleton.mp hd]
          omega
      · omega

/-! ## Notations -/

/-- The notation shows in the first two bytes. -/
theorem numeral_iff {s : Bytes} {n : Nat} :
    Numeral s n ↔ ((basePrefix s).2 = [] → (basePrefix s).1 = 16)
      ∧ (∀ c ∈ (basePrefix s).2, digitValue c < (basePrefix s).1)
      ∧ n = numberValue (basePrefix s).1 (basePrefix s).2 := by
  have hoctal : ∀ s : Bytes, (∀ c ∈ 48 :: s, digitValue c < 8)
    ↔ ∀ c ∈ s, digitValue c < 8 := by
    intro s
    rw [List.forall_mem_cons]
    exact and_iff_right (by decide)
  constructor
  · intro h
    cases h with
    | decimal hne hhead hdigits =>
        cases s with
        | nil => exact absurd rfl hne
        | cons c s =>
            have hc : c ≠ 48 := fun hc => hhead (by rw [hc]; rfl)
            rw [basePrefix_of_ne hc]
            exact ⟨fun h => absurd h (List.cons_ne_nil _ _),
              fun d hd => digitValue_lt_ten.mpr (hdigits d hd), rfl⟩
    | @octal s hdigits =>
        cases s with
        | nil => exact ⟨fun h => absurd h (List.cons_ne_nil _ _), (hoctal []).mpr hdigits, rfl⟩
        | cons x s =>
            have hx : ¬(x = 120 ∨ x = 88) := by
              rintro (rfl | rfl)
              · exact absurd (hdigits 120 List.mem_cons_self) (by decide)
              · exact absurd (hdigits 88 List.mem_cons_self) (by decide)
            rw [basePrefix, if_neg hx]
            exact ⟨fun h => absurd h (List.cons_ne_nil _ _), (hoctal _).mpr hdigits,
              (numberValue_zero 8 _).symm⟩
    | hex hx hdigits =>
        rw [basePrefix, if_pos hx]
        exact ⟨fun _ => rfl, hdigits, rfl⟩
  · rintro ⟨hne, hdigits, rfl⟩
    cases s with
    | nil => exact absurd (hne rfl) (by decide)
    | cons c s =>
        by_cases hc : c = 48
        · subst hc
          cases s with
          | nil => exact .octal fun c hc => absurd hc List.not_mem_nil
          | cons x s =>
              by_cases hx : x = 120 ∨ x = 88
              · rw [basePrefix, if_pos hx] at hdigits ⊢
                exact .hex hx hdigits
              · rw [basePrefix, if_neg hx] at hdigits ⊢
                rw [numberValue_zero]
                exact .octal ((hoctal _).mp hdigits)
        · rw [basePrefix_of_ne hc] at hdigits ⊢
          refine .decimal (List.cons_ne_nil c s) ?_ fun d hd => digitValue_lt_ten.mp (hdigits d hd)
          exact fun h => hc (Option.some.inj h)

theorem Numeral.head {s : Bytes} {n : Nat} (h : Numeral s n) :
    ∃ c t, s = c :: t ∧ isdigit c = true := by
  cases h with
  | decimal hne _ hdigits =>
      obtain ⟨c, t, rfl⟩ := List.exists_cons_of_ne_nil hne
      exact ⟨c, t, rfl, hdigits c List.mem_cons_self⟩
  | octal => exact ⟨48, _, rfl, rfl⟩
  | hex => exact ⟨48, _, rfl, rfl⟩

/-- What `%i` makes of the white space and the sign. -/
theorem cInteger_iff {t : Bytes} {z : Int} :
    CInteger t z ↔ ∃ n, Numeral (takeSign (t.dropWhile isspace)).2 n
      ∧ z = if (takeSign (t.dropWhile isspace)).1 then -(n : Int) else n := by
  constructor
  · intro h
    induction h with
    | @plain s n hn =>
        obtain ⟨c, t, rfl, hc⟩ := hn.head
        obtain ⟨hspace, hsign⟩ := takeSign_digit hc t
        rw [List.dropWhile_cons_of_neg (by simp [hspace]), hsign]
        exact ⟨n, hn, rfl⟩
    | @plus s n hn => exact ⟨n, hn, rfl⟩
    | @minus s n hn => exact ⟨n, hn, rfl⟩
    | blank hc _ ih =>
        rw [List.dropWhile_cons_of_pos hc]
        exact ih
  · rintro ⟨n, hn, hz⟩
    induction t with
    | nil => exact absurd ((numeral_iff.mp hn).1 rfl) (by decide)
    | cons c t ih =>
        by_cases hspace : isspace c = true
        · rw [List.dropWhile_cons_of_pos hspace] at hn hz
          exact .blank hspace (ih hn hz)
        · rw [List.dropWhile_cons_of_neg hspace] at hn hz
          by_cases hminus : c = 45
          · subst hminus
            rw [hz]
            exact .minus hn
          · by_cases hplus : c = 43
            · subst hplus
              rw [hz]
              exact .plus hn
            · rw [takeSign_of_ne hminus hplus] at hn hz
              rw [hz]
              exact .plain hn

/-- Without white space and a sign there is only the number. -/
theorem CInteger.digits {t : Bytes} {z : Int} (h : CInteger t z)
    (hdigits : ∀ c ∈ t, isdigit c = true) : ∃ n : Nat, Numeral t n ∧ z = n := by
  cases h with
  | plain hn => exact ⟨_, hn, rfl⟩
  | plus => exact absurd (hdigits 43 List.mem_cons_self) (by decide)
  | minus => exact absurd (hdigits 45 List.mem_cons_self) (by decide)
  | @blank c s z hc hs =>
      have hspace := (takeSign_digit (hdigits c List.mem_cons_self) s).1
      rw [hc] at hspace
      cases hspace

/-- Decimal digits behind a 0 are octal ones. -/
theorem Numeral.octal_of_digits {s : Bytes} {n : Nat} (h : Numeral (48 :: s) n)
    (hdigits : ∀ c ∈ s, isdigit c = true) :
    (∀ c ∈ s, digitValue c < 8) ∧ n = numberValue 8 s := by
  cases h with
  | decimal _ hhead => exact absurd rfl hhead
  | octal hs => exact ⟨hs, rfl⟩
  | @hex x s hx =>
      have hx' := hdigits x List.mem_cons_self
      rcases hx with rfl | rfl
      · exact absurd hx' (by decide)
      · exact absurd hx' (by decide)

/-- The text behind white space, sign and `0x`. -/
theorem length_basePrefix_le (t : Bytes) :
    (basePrefix (takeSign (t.dropWhile isspace)).2).2.length ≤ t.length := by
  have hsign : ∀ s, (takeSign s).2.length ≤ s.length := by
    intro s
    unfold takeSign
    split <;> simp
  have hbase : ∀ s, (basePrefix s).2.length ≤ s.length := by
    intro s
    unfold basePrefix
    split
    · split <;> simp only [List.length_cons] <;> omega
    · exact Nat.le_refl _
    · exact Nat.le_refl _
  calc (basePrefix (takeSign (t.dropWhile isspace)).2).2.length
      ≤ (takeSign (t.dropWhile isspace)).2.length := hbase _
    _ ≤ (t.dropWhile isspace).length := hsign _
    _ ≤ t.length := (List.dropWhile_suffix isspace).length_le

/-- **What `%i` takes whole**: a number in C, if the count of its bytes fits
an `int`. -/
theorem sscanfI_whole {t : Bytes} (hzero : 0 ∉ t) (v : Int) :
    sscanfI t = some (v, (t.length : Int))
      ↔ t.length < 2 ^ 31 ∧ ∃ z, CInteger t z ∧ v = toInt (clampLong z) := by
  have hlength := length_basePrefix_le t
  simp only [cInteger_iff, numeral_iff]
  unfold sscanfI
  simp only [cstr_eq_self hzero]
  generalize takeSign (t.dropWhile isspace) = signed at hlength ⊢
  generalize basePrefix signed.2 = number at hlength ⊢
  obtain ⟨base, digits⟩ := number
  dsimp only at hlength ⊢
  have hprefix := (List.takeWhile_prefix (digitValue · < base) (l := digits)).length_le
  have hself : (∀ c ∈ digits, digitValue c < base) →
      digits.takeWhile (digitValue · < base) = digits := by
    intro hwhole
    rw [List.takeWhile_eq_self_iff]
    exact fun c hc => decide_eq_true (hwhole c hc)
  constructor
  · intro h
    split at h
    · cases h
    · rename_i hne
      rw [Option.some.injEq, Prod.mk.injEq] at h
      obtain ⟨hv, hn⟩ := h
      -- a count that does not fit is not the length
      have hbound := toInt_lt ((t.length
        - (digits.length - (digits.takeWhile (digitValue · < base)).length) : Nat) : Int)
      rw [hn] at hbound
      have hlt : t.length < 2 ^ 31 := by omega
      rw [toInt_of_lt (by omega)] at hn
      have heq : digits.takeWhile (digitValue · < base) = digits :=
        (List.takeWhile_prefix _).eq_of_length (by omega)
      rw [heq] at hv hne
      refine ⟨hlt, _,
        ⟨_, ⟨fun hnil => not_not.mp fun h16 => hne ⟨hnil, h16⟩, ?_, rfl⟩, rfl⟩,
        hv.symm⟩
      intro c hc
      rw [← heq] at hc
      simpa using List.mem_takeWhile_imp hc
  · rintro ⟨hlt, z, ⟨n, ⟨hne, hwhole, rfl⟩, rfl⟩, rfl⟩
    rw [hself hwhole, if_neg fun h => h.2 (hne h.1), Nat.sub_self, Nat.sub_zero, toInt_of_lt hlt]

example : sscanfI (ascii "+0x") = some (0, 3) := by decide

end CWebServer.Strings
