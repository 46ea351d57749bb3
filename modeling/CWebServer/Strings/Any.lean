import CWebServer.Lib.Searches
import CWebServer.Strings.Trim

/-!
# Strings — Any

The searches for a byte of a set, and for a byte outside of it, and the trims
that rest on them. The searches up stop at the first 0, which may stand
inside a `string`; the searches down count positions.
-/

namespace CWebServer.Strings

open CWebServer.Lib

/-! ## The functions -/

/-- The loop of `string_index_of_any_cstr`; it ends at the first 0. -/
def indexOfAnyLoop (find : Bytes) : Bytes → Nat → Option Nat
  | [], _ => none
  | c :: s, i =>
      if c = 0 then none
      else if c ∈ find then some i
      else indexOfAnyLoop find s (i + 1)

def stringIndexOfAnyCstr (s find : Bytes) (start : Nat) : Option Nat :=
  if s.length = 0 then none
  else if s.length ≤ start then none
  else indexOfAnyLoop find (s.drop start) start

/-- The loop of `string_reverse_index_of_any_cstr` over the bytes up to `i`,
the last one first. -/
def reverseIndexOfAnyLoop (find : Bytes) : Bytes → Nat → Option Nat
  | [], _ => none
  | c :: s, i => if c ∈ find then some i else reverseIndexOfAnyLoop find s (i - 1)

def stringReverseIndexOfAnyCstr (s find : Bytes) (start : Nat) : Option Nat :=
  if s.length = 0 then none
  else
    let start := if s.length ≤ start then s.length - 1 else start
    reverseIndexOfAnyLoop find (s.take (start + 1)).reverse start

/-- `string_trim_start_any_of_cstr` to another string. -/
def stringTrimStartAnyOfCstrTo (src find : Bytes) : Bytes :=
  match stringIndexNotOfAnyCstr src find 0 with
  | none => []
  | some i => stringSetSubstr src i src.length

/-- `string_trim_end_any_of_cstr` to another string. -/
def stringTrimEndAnyOfCstrTo (src find : Bytes) : Bytes :=
  match stringReverseIndexNotOfAnyCstr src find src.length with
  | none => []
  | some i => stringSetSubstr src 0 (i + 1)

/-- `string_trim_any_of_cstr` to another string, which is trimmed at its end
in place. -/
def stringTrimAnyOfCstrTo (src find : Bytes) : Bytes :=
  stringTrimEndAnyOfCstr (stringTrimStartAnyOfCstrTo src find) find

/-! ## The loops as searches -/

theorem indexOfAnyLoop_eq_search (find s : Bytes) (i : Nat) :
    indexOfAnyLoop find s i = searchUntil (· = 0) (· ∈ find) s i := by
  induction s generalizing i with
  | nil => rfl
  | cons c s ih => rw [indexOfAnyLoop, searchUntil, ih]

theorem indexNotOfAnyLoop_eq_search (find s : Bytes) (i : Nat) :
    indexNotOfAnyLoop find s i = searchUntil (· = 0) (· ∉ find) s i := by
  induction s generalizing i with
  | nil => rfl
  | cons c s ih =>
      rw [indexNotOfAnyLoop, searchUntil, ih]
      by_cases hc : c ∈ find
      · rw [if_pos hc, if_neg (not_not.mpr hc)]
      · rw [if_neg hc, if_pos hc]

theorem reverseIndexOfAnyLoop_eq_search (find s : Bytes) (i : Nat) :
    reverseIndexOfAnyLoop find s i = searchBack (· ∈ find) s i := by
  induction s generalizing i with
  | nil => rfl
  | cons c s ih => rw [reverseIndexOfAnyLoop, searchBack, ih]

theorem reverseIndexNotOfAnyLoop_eq_search (find s : Bytes) (i : Nat) :
    reverseIndexNotOfAnyLoop find s i = searchBack (· ∉ find) s i := by
  induction s generalizing i with
  | nil => rfl
  | cons c s ih =>
      rw [reverseIndexNotOfAnyLoop, searchBack, ih]
      by_cases hc : c ∈ find
      · rw [if_pos hc, if_neg (not_not.mpr hc)]
      · rw [if_neg hc, if_pos hc]

theorem stringIndexOfAnyCstr_eq (s find : Bytes) (start : Nat) :
    stringIndexOfAnyCstr s find start
      = searchUntil (· = 0) (· ∈ find) (s.drop start) start := by
  rw [stringIndexOfAnyCstr, indexOfAnyLoop_eq_search]
  by_cases hshort : s.length ≤ start
  · rw [List.drop_of_length_le hshort, if_pos hshort]
    split <;> rfl
  · rw [if_neg (by omega), if_neg hshort]

theorem stringIndexNotOfAnyCstr_eq (s find : Bytes) (start : Nat) :
    stringIndexNotOfAnyCstr s find start
      = searchUntil (· = 0) (· ∉ find) (s.drop start) start := by
  rw [stringIndexNotOfAnyCstr, indexNotOfAnyLoop_eq_search]
  by_cases hshort : s.length ≤ start
  · rw [List.drop_of_length_le hshort, if_pos hshort]
    split <;> rfl
  · rw [if_neg (by omega), if_neg hshort]

/-- A search down from a start that may be behind the end. -/
theorem isLast_searchBack_clamp (q : UInt8 → Prop) [DecidablePred q] (s : Bytes) (start : Nat) :
    IsLast (SymbolAt q s) start
      (if s.length = 0 then none
        else
          let start := if s.length ≤ start then s.length - 1 else start
          searchBack q (s.take (start + 1)).reverse start) := by
  have hinside : ∀ i, SymbolAt q s i → i ≤ s.length - 1 := by
    intro i hi
    by_contra hle
    exact not_symbolAt_of_le (by omega) hi
  by_cases hnil : s.length = 0
  · rw [if_pos hnil]
    intro i _
    exact not_symbolAt_of_le (by omega)
  · have hmin : (if s.length ≤ start then s.length - 1 else start)
      = min start (s.length - 1) := by
      split <;> omega
    rw [if_neg hnil, hmin, ← isLast_min hinside]
    exact isLast_searchBack (by omega)

/-- **The searches down** find the last byte, 0 or not. -/
theorem stringReverseIndexOfAnyCstr_isLast (s find : Bytes) (start : Nat) :
    IsLast (SymbolAt (· ∈ find) s) start (stringReverseIndexOfAnyCstr s find start) := by
  simp only [stringReverseIndexOfAnyCstr, reverseIndexOfAnyLoop_eq_search]
  exact isLast_searchBack_clamp (· ∈ find) s start

theorem stringReverseIndexNotOfAnyCstr_isLast (s find : Bytes) (start : Nat) :
    IsLast (SymbolAt (· ∉ find) s) start (stringReverseIndexNotOfAnyCstr s find start) := by
  simp only [stringReverseIndexNotOfAnyCstr, reverseIndexNotOfAnyLoop_eq_search]
  exact isLast_searchBack_clamp (· ∉ find) s start

/-! ## The trims -/

/-- A part that is not empty is the same in place and in another string. -/
theorem stringSetSubstr_eq_self {s : Bytes} {start stop : Nat}
    (h : ¬ (stop ≤ start ∨ s.length ≤ start)) :
    stringSetSubstr s start stop = stringSetSubstrSelf s start stop := by
  rw [stringSetSubstr, stringAppendSubstr, stringSetSubstrSelf, if_neg h, if_neg h,
    List.nil_append]

theorem symbolAt_of_stringIndexNotOfAnyCstr {s find : Bytes} {start i : Nat}
    (h : stringIndexNotOfAnyCstr s find start = some i) : SymbolAt (· ∉ find) s i := by
  rw [stringIndexNotOfAnyCstr_eq] at h
  exact symbolAt_of_searchUntil rfl h

/-- The start is trimmed in the same way in place and in another string. -/
theorem stringTrimStartAnyOfCstrTo_eq (s find : Bytes) :
    stringTrimStartAnyOfCstrTo s find = stringTrimStartAnyOfCstr s find := by
  rw [stringTrimStartAnyOfCstrTo, stringTrimStartAnyOfCstr]
  cases hindex : stringIndexNotOfAnyCstr s find 0 with
  | none => rfl
  | some i =>
      have hlt := (symbolAt_of_stringIndexNotOfAnyCstr hindex).lt
      exact stringSetSubstr_eq_self (by omega)

/-- So is the end. -/
theorem stringTrimEndAnyOfCstrTo_eq (s find : Bytes) :
    stringTrimEndAnyOfCstrTo s find = stringTrimEndAnyOfCstr s find := by
  have hlast := stringReverseIndexNotOfAnyCstr_isLast s find s.length
  rw [stringTrimEndAnyOfCstrTo, stringTrimEndAnyOfCstr]
  cases hindex : stringReverseIndexNotOfAnyCstr s find s.length with
  | none => rfl
  | some i =>
      rw [hindex] at hlast
      have hlt := hlast.2.1.lt
      exact stringSetSubstr_eq_self (by omega)

/-- The trim of the start leaves what the search finds, and nothing where it
finds nothing. -/
theorem stringTrimStartAnyOfCstr_eq_elim (s find : Bytes) :
    stringTrimStartAnyOfCstr s find = (stringIndexNotOfAnyCstr s find 0).elim [] s.drop := by
  rw [stringTrimStartAnyOfCstr]
  cases hindex : stringIndexNotOfAnyCstr s find 0 with
  | none => rfl
  | some i =>
      have hlt := (symbolAt_of_stringIndexNotOfAnyCstr hindex).lt
      show stringSetSubstrSelf s i s.length = s.drop i
      rw [stringSetSubstrSelf, if_neg (by omega), Nat.min_self, List.take_of_length_le]
      rw [List.length_drop]

/-- A 0 hides the first byte with `q` from a search up. -/
abbrev ZeroFirst (q : UInt8 → Prop) (s : Bytes) : Prop :=
  Hidden (· = 0) q s

/-- **The trim of the start** is right exactly if no 0 comes first. -/
theorem stringTrimStartAnyOfCstr_iff (s find : Bytes) :
    stringTrimStartAnyOfCstr s find = s.dropWhile (· ∈ find)
      ↔ ¬ ZeroFirst (· ∉ find) s := by
  have hindex := stringIndexNotOfAnyCstr_eq s find 0
  rw [List.drop_zero] at hindex
  rw [stringTrimStartAnyOfCstr_eq_elim, hindex]
  by_cases hzero : ZeroFirst (· ∉ find) s
  · apply iff_of_false _ (not_not.mpr hzero)
    obtain ⟨c, hc, hcf⟩ := hzero.exists_found
    rw [searchUntil_of_hidden hzero]
    intro hnil
    have hall := List.dropWhile_eq_nil_iff.mp hnil.symm c hc
    exact hcf (by simpa using hall)
  · apply iff_of_true _ hzero
    have hdrop := dropWhile_of_isFirst ((isFirst_searchUntil_iff rfl).mpr hzero)
    simpa using hdrop.symm

theorem stringTrimStartAnyOfCstr_eq {s : Bytes} (h : 0 ∉ s) (find : Bytes) :
    stringTrimStartAnyOfCstr s find = s.dropWhile (· ∈ find) := by
  apply (stringTrimStartAnyOfCstr_iff s find).mpr
  apply not_hidden_of_forall
  rintro c hc rfl
  exact h hc

/-- The trim of the end leaves what stands up to the last byte found. -/
theorem stringTrimEndAnyOfCstr_eq (s find : Bytes) :
    stringTrimEndAnyOfCstr s find = s.rdropWhile (· ∈ find) := by
  have hlast := stringReverseIndexNotOfAnyCstr_isLast s find s.length
  have hdrop := rdropWhile_of_isLast (Nat.le_succ s.length) hlast
  simp only [not_not] at hdrop
  rw [stringTrimEndAnyOfCstr, hdrop]
  cases hindex : stringReverseIndexNotOfAnyCstr s find s.length with
  | none => rfl
  | some i =>
      rw [hindex] at hlast
      have hlt := hlast.2.1.lt
      show stringSetSubstrSelf s 0 (i + 1) = s.take (i + 1)
      rw [stringSetSubstrSelf, if_neg (by omega), List.drop_zero, Nat.min_eq_left hlt,
        Nat.sub_zero]

theorem stringTrimAnyOfCstr_eq {s : Bytes} (h : 0 ∉ s) (find : Bytes) :
    stringTrimAnyOfCstr s find = trim find s := by
  rw [stringTrimAnyOfCstr, stringTrimStartAnyOfCstr_eq h, stringTrimEndAnyOfCstr_eq]
  rfl

/-- **The trim of both ends** is right exactly if no 0 comes first. -/
theorem stringTrimAnyOfCstr_iff (s find : Bytes) :
    stringTrimAnyOfCstr s find = trim find s ↔ ¬ ZeroFirst (· ∉ find) s := by
  rw [stringTrimAnyOfCstr, stringTrimEndAnyOfCstr_eq]
  by_cases hzero : ZeroFirst (· ∉ find) s
  · apply iff_of_false _ (not_not.mpr hzero)
    obtain ⟨c, hc, hcf⟩ := hzero.exists_found
    have hindex := stringIndexNotOfAnyCstr_eq s find 0
    rw [List.drop_zero, searchUntil_of_hidden hzero] at hindex
    rw [stringTrimStartAnyOfCstr_eq_elim, hindex]
    exact fun hnil => hcf (trim_eq_nil.mp hnil.symm c hc)
  · apply iff_of_true _ hzero
    rw [(stringTrimStartAnyOfCstr_iff s find).mpr hzero]
    rfl

/-- What the search from the front finds: nothing where only bytes of the set
stand in front of a 0 or of the end. -/
theorem indexNotOfAnyLoop_cases {find : Bytes} (h : 0 ∉ find) (s : Bytes) (i : Nat) :
    indexNotOfAnyLoop find s i
      = if (s.dropWhile (· ∈ find)).headD 0 = 0 then none
        else some (i + (s.takeWhile (· ∈ find)).length) := by
  induction s generalizing i with
  | nil => rfl
  | cons c s ih =>
      rw [indexNotOfAnyLoop]
      by_cases hzero : c = 0
      · subst hzero
        rw [if_pos rfl, List.dropWhile_cons_of_neg (by simpa using h)]
        rfl
      · rw [if_neg hzero]
        by_cases hc : c ∈ find
        · rw [if_pos hc, ih, List.dropWhile_cons_of_pos (by simpa using hc),
            List.takeWhile_cons_of_pos (by simpa using hc), List.length_cons,
            Nat.add_right_comm, Nat.add_assoc]
        · rw [if_neg hc, List.dropWhile_cons_of_neg (by simpa using hc),
            List.takeWhile_cons_of_neg (by simpa using hc)]
          exact (if_neg hzero).symm

theorem stringIndexNotOfAnyCstr_cases {find : Bytes} (h : 0 ∉ find) (s : Bytes) :
    stringIndexNotOfAnyCstr s find 0
      = if (s.dropWhile (· ∈ find)).headD 0 = 0 then none
        else some (s.takeWhile (· ∈ find)).length := by
  have hloop := indexNotOfAnyLoop_cases h s 0
  rw [Nat.zero_add] at hloop
  cases s with
  | nil => rfl
  | cons c s =>
      rw [stringIndexNotOfAnyCstr, if_neg (by simp), if_neg (by simp), List.drop_zero]
      exact hloop

/-! ## All of them -/

/-- What the searches for a byte of a set, or outside of it, and the trims are
to do with one string, one set and one start. -/
structure AnyRule (s find : Bytes) (start : Nat) : Prop where
  indexOf : IsFirst (SymbolAt (· ∈ find) s) start (stringIndexOfAnyCstr s find start)
  indexNotOf : IsFirst (SymbolAt (· ∉ find) s) start (stringIndexNotOfAnyCstr s find start)
  reverseIndexOf : IsLast (SymbolAt (· ∈ find) s) start
    (stringReverseIndexOfAnyCstr s find start)
  reverseIndexNotOf : IsLast (SymbolAt (· ∉ find) s) start
    (stringReverseIndexNotOfAnyCstr s find start)
  trimStart : stringTrimStartAnyOfCstr s find = s.dropWhile (· ∈ find)
  trimStartTo : stringTrimStartAnyOfCstrTo s find = s.dropWhile (· ∈ find)
  trimEnd : stringTrimEndAnyOfCstr s find = s.rdropWhile (· ∈ find)
  trimEndTo : stringTrimEndAnyOfCstrTo s find = s.rdropWhile (· ∈ find)
  trimAny : stringTrimAnyOfCstr s find = trim find s
  trimAnyTo : stringTrimAnyOfCstrTo s find = trim find s

/-- **The searches and the trims are right** exactly if no 0 hides what the
searches up look for. -/
theorem anyRule_iff {s find : Bytes} {start : Nat} :
    AnyRule s find start
      ↔ ¬ ZeroFirst (· ∈ find) (s.drop start) ∧ ¬ ZeroFirst (· ∉ find) (s.drop start)
        ∧ ¬ ZeroFirst (· ∉ find) s := by
  constructor
  · intro h
    have hof := h.indexOf
    have hnot := h.indexNotOf
    rw [stringIndexOfAnyCstr_eq, isFirst_searchUntil_iff rfl] at hof
    rw [stringIndexNotOfAnyCstr_eq, isFirst_searchUntil_iff rfl] at hnot
    exact ⟨hof, hnot, (stringTrimStartAnyOfCstr_iff s find).mp h.trimStart⟩
  · rintro ⟨hof, hnot, htrim⟩
    have hstart := (stringTrimStartAnyOfCstr_iff s find).mpr htrim
    have hany := (stringTrimAnyOfCstr_iff s find).mpr htrim
    exact {
      indexOf := by
        rw [stringIndexOfAnyCstr_eq]
        exact (isFirst_searchUntil_iff rfl).mpr hof
      indexNotOf := by
        rw [stringIndexNotOfAnyCstr_eq]
        exact (isFirst_searchUntil_iff rfl).mpr hnot
      reverseIndexOf := stringReverseIndexOfAnyCstr_isLast s find start
      reverseIndexNotOf := stringReverseIndexNotOfAnyCstr_isLast s find start
      trimStart := hstart
      trimStartTo := (stringTrimStartAnyOfCstrTo_eq s find).trans hstart
      trimEnd := stringTrimEndAnyOfCstr_eq s find
      trimEndTo := (stringTrimEndAnyOfCstrTo_eq s find).trans (stringTrimEndAnyOfCstr_eq s find)
      trimAny := hany
      trimAnyTo := by
        rw [stringTrimAnyOfCstrTo, stringTrimStartAnyOfCstrTo_eq]
        exact hany }

/-- A 0 in front of a letter: no search up finds the letter, and the trim of
blanks takes everything away. -/
theorem not_anyRule_zero :
    ¬ AnyRule [0, 97] (ascii "a") 0 ∧ ¬ AnyRule [32, 0, 97] (ascii " ") 0 :=
  ⟨fun h => absurd (h.indexOf 1 (Nat.zero_le 1)) (not_not.mpr ⟨97, rfl, by decide⟩),
    fun h => absurd h.trimStart (by decide)⟩

end CWebServer.Strings
