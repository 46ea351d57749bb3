import CWebServer.Lib.Loops
import CWebServer.Lib.Searches
import CWebServer.Streams.Model

/-!
# Strings — Patterns

The searches for a text and for a character, with the loops as they are: an
index is a `size_t`, a loop down is left when the index wraps around, and a
comparison outside of the string is an outcome of its own. A byte of the
string is unsigned and a character is not, so a character from 128 on is not
equal to any byte.
-/

namespace CWebServer.Strings

open CWebServer.Lib CWebServer.Streams

/-! ## The functions -/

/-- How a search ends: with an index or with -1, or in a comparison that reads
outside of the string. -/
inductive SearchOutcome
  | outside
  | returned (i : Option Nat)
deriving DecidableEq, Repr

/-- One round of a loop that goes on while `go i` and returns `i` where
`test i` holds; `test` is `none` where it reads outside of the string. -/
def searchRound (go : Nat → Bool) (test : Nat → Option Bool) (next : Nat → Nat) (i : Nat) :
    Nat ⊕ SearchOutcome :=
  if go i then
    match test i with
    | none => .inr .outside
    | some true => .inr (.returned (some i))
    | some false => .inl (next i)
  else .inr (.returned none)

/-- `!memcmp(s->b.data + i, find, find_len)`. -/
def compareAt (s find : Bytes) (i : Nat) : Option Bool :=
  if i + find.length ≤ s.length then some ((s.drop i).take find.length = find) else none

/-- The value of a `char`. -/
def charValue (c : UInt8) : Int :=
  c.toBitVec.toInt

/-- `s->b.data[i] == find`. -/
def equalAt (s : Bytes) (find : UInt8) (i : Nat) : Option Bool :=
  s[i]?.map fun c => (c.toNat : Int) = charValue find

/-- The search up for a text, its first `fuel` rounds. -/
def indexOfText (s find : Bytes) (start fuel : Nat) : Option SearchOutcome :=
  if s.length < find.length ∨ find.length = 0 then some (.returned none)
  else
    runRounds (searchRound (· ≤ s.length - find.length) (compareAt s find) (sizeAdd · 1)) fuel
      start

def stringIndexOfStr (s find : Bytes) (start fuel : Nat) : Option SearchOutcome :=
  indexOfText s find start fuel

def stringIndexOfCstr (s find : Bytes) (start fuel : Nat) : Option SearchOutcome :=
  indexOfText s (cstr find) start fuel

def stringIndexOfChar (s : Bytes) (find : UInt8) (start fuel : Nat) : Option SearchOutcome :=
  if s.length = 0 then some (.returned none)
  else runRounds (searchRound (· < s.length) (equalAt s find) (sizeAdd · 1)) fuel start

/-- The search down for a text, its first `fuel` rounds. -/
def reverseIndexOfText (s find : Bytes) (start fuel : Nat) : Option SearchOutcome :=
  if s.length < find.length ∨ find.length = 0 then some (.returned none)
  else
    let lastValidIndex := s.length - find.length
    let start := if lastValidIndex < start then lastValidIndex else start
    runRounds (searchRound (· ≠ sizeMax) (compareAt s find) (sizeSub · 1)) fuel start

def stringReverseIndexOfStr (s find : Bytes) (start fuel : Nat) : Option SearchOutcome :=
  reverseIndexOfText s find start fuel

def stringReverseIndexOfCstr (s find : Bytes) (start fuel : Nat) : Option SearchOutcome :=
  reverseIndexOfText s (cstr find) start fuel

def stringReverseIndexOfChar (s : Bytes) (find : UInt8) (start fuel : Nat) :
    Option SearchOutcome :=
  if s.length = 0 then some (.returned none)
  else
    let lastValidIndex := s.length - 1
    let start := if lastValidIndex < start then lastValidIndex else start
    runRounds (searchRound (· ≠ sizeMax) (equalAt s find) (sizeSub · 1)) fuel start

/-! ## The loops -/

section Loops

variable {go : Nat → Bool} {test : Nat → Option Bool} {next : Nat → Nat} {p : Nat → Prop}
  [DecidablePred p]

theorem searchRound_stop {i : Nat} (h : go i = false) :
    searchRound go test next i = .inr (.returned none) := by
  simp [searchRound, h]

theorem searchRound_found {i : Nat} (h : go i = true) (htest : test i = some (decide (p i)))
    (hp : p i) : searchRound go test next i = .inr (.returned (some i)) := by
  simp [searchRound, h, htest, hp]

theorem searchRound_next {i : Nat} (h : go i = true) (htest : test i = some (decide (p i)))
    (hp : ¬ p i) : searchRound go test next i = .inl (next i) := by
  simp [searchRound, h, htest, hp]

variable (go test p) in
/-- **A loop up** to an index `stop` ends with the least index. -/
theorem exists_isFirst_runRounds (stop : Nat) (hstop : stop ≤ sizeMax)
    (hgo : ∀ i, go i = decide (i < stop))
    (htest : ∀ i, i < stop → test i = some (decide (p i))) (hp : ∀ i, stop ≤ i → ¬ p i)
    (start : Nat) :
    ∃ r, IsFirst p start r ∧ ∀ fuel, stop - start < fuel →
      runRounds (searchRound go test (sizeAdd · 1)) fuel start = some (.returned r) := by
  induction hk : stop - start generalizing start with
  | zero =>
      refine ⟨none, fun i hi => hp i (by omega), ?_⟩
      intro fuel hfuel
      exact runRounds_leave (searchRound_stop (by simp [hgo]; omega)) hfuel
  | succ k ih =>
      have hlt : start < stop := by omega
      have hgoing : go start = true := by simp [hgo, hlt]
      by_cases hstart : p start
      · refine ⟨some start, .here hstart, ?_⟩
        intro fuel hfuel
        exact runRounds_leave (searchRound_found hgoing (htest start hlt) hstart) (by omega)
      · have hsucc : sizeAdd start 1 = start + 1 := by
          unfold sizeAdd
          unfold sizeMax at hstop
          omega
        obtain ⟨r, hr, hrun⟩ := ih (start + 1) (by omega)
        refine ⟨r, (isFirst_next hstart r).mpr hr, ?_⟩
        intro fuel hfuel
        obtain ⟨fuel, rfl⟩ := Nat.exists_eq_add_of_le' (show 1 ≤ fuel by omega)
        rw [runRounds_again (searchRound_next hgoing (htest start hlt) hstart), hsucc]
        exact hrun fuel (by omega)

variable (test p) in
/-- **A loop down**, left when the index wraps around, ends with the greatest
index. -/
theorem exists_isLast_runRounds (start : Nat) (hstart : start < sizeMax)
    (htest : ∀ i, i ≤ start → test i = some (decide (p i))) :
    ∃ r, IsLast p start r ∧ ∀ fuel, start + 1 < fuel →
      runRounds (searchRound (· ≠ sizeMax) test (sizeSub · 1)) fuel start
        = some (.returned r) := by
  have hgoing : ∀ i, i < sizeMax → (decide (i ≠ sizeMax)) = true := by
    intro i hi
    simp only [ne_eq, decide_not, Bool.not_eq_true', decide_eq_false_iff_not]
    omega
  induction start with
  | zero =>
      by_cases hp : p 0
      · refine ⟨some 0, .here hp, ?_⟩
        intro fuel hfuel
        exact runRounds_leave (searchRound_found (hgoing 0 hstart) (htest 0 (Nat.le_refl 0)) hp)
          (by omega)
      · refine ⟨none, .zero hp, ?_⟩
        intro fuel hfuel
        obtain ⟨fuel, rfl⟩ := Nat.exists_eq_add_of_le' (show 1 ≤ fuel by omega)
        have hwrap : sizeSub 0 1 = sizeMax := rfl
        rw [runRounds_again (searchRound_next (hgoing 0 hstart) (htest 0 (Nat.le_refl 0)) hp),
          hwrap]
        exact runRounds_leave (searchRound_stop (by simp)) (by omega)
  | succ start ih =>
      by_cases hp : p (start + 1)
      · refine ⟨some (start + 1), .here hp, ?_⟩
        intro fuel hfuel
        exact runRounds_leave (searchRound_found (hgoing _ hstart)
          (htest _ (Nat.le_refl (start + 1))) hp) (by omega)
      · obtain ⟨r, hr, hrun⟩ := ih (by omega) fun i hi => htest i (by omega)
        refine ⟨r, (isLast_next hp r).mpr hr, ?_⟩
        intro fuel hfuel
        obtain ⟨fuel, rfl⟩ := Nat.exists_eq_add_of_le' (show 1 ≤ fuel by omega)
        have hpred : sizeSub (start + 1) 1 = start := if_pos (Nat.le_add_left 1 start)
        rw [runRounds_again (searchRound_next (hgoing _ hstart)
          (htest _ (Nat.le_refl (start + 1))) hp), hpred]
        exact hrun fuel (by omega)

end Loops

/-! ## What they find -/

/-- The text `find`, if it is one, stands in `s` from `i` on. -/
def OccursAt (find s : Bytes) (i : Nat) : Prop :=
  find ≠ [] ∧ find <+: s.drop i

instance (find s : Bytes) : DecidablePred (OccursAt find s) := fun _ =>
  inferInstanceAs (Decidable (_ ∧ _))

theorem OccursAt.le {find s : Bytes} {i : Nat} (h : OccursAt find s i) :
    i + find.length ≤ s.length := by
  have hpos := List.length_pos_of_ne_nil h.1
  have hle := h.2.length_le
  rw [List.length_drop] at hle
  omega

theorem occursAt_singleton {c : UInt8} {s : Bytes} {i : Nat} :
    OccursAt [c] s i ↔ s[i]? = some c := by
  rw [OccursAt, ← List.head?_drop]
  cases s.drop i with
  | nil => simp
  | cons b t => simp [eq_comm]

/-- A search through `s` ends after at most a round for each index and one
more, without a comparison outside of `s` and with an index as in `spec`. -/
def Finds (s : Bytes) (spec : Option Nat → Prop) (search : Nat → Option SearchOutcome) : Prop :=
  ∃ r, spec r ∧ ∀ fuel, s.length < fuel → search fuel = some (.returned r)

theorem Finds.both {s : Bytes} {P Q : Option Nat → Prop} {search : Nat → Option SearchOutcome}
    (h : Finds s P search) (h' : Finds s Q search) : ∃ r, P r ∧ Q r := by
  obtain ⟨r, hr, hrun⟩ := h
  obtain ⟨r', hr', hrun'⟩ := h'
  have heq := (hrun _ (Nat.lt_succ_self _)).symm.trans (hrun' _ (Nat.lt_succ_self _))
  simp only [Option.some.injEq, SearchOutcome.returned.injEq] at heq
  exact ⟨r, hr, heq ▸ hr'⟩

theorem not_occursAt_of_short {find s : Bytes} (h : s.length < find.length ∨ find.length = 0)
    (i : Nat) : ¬ OccursAt find s i := by
  intro hat
  have hpos := List.length_pos_of_ne_nil hat.1
  have hle := hat.le
  omega

theorem compareAt_eq {find s : Bytes} {i : Nat} (hne : find ≠ [])
    (hi : i + find.length ≤ s.length) :
    compareAt s find i = some (decide (OccursAt find s i)) := by
  have hiff : (s.drop i).take find.length = find ↔ OccursAt find s i := by
    rw [OccursAt, and_iff_right hne, List.prefix_iff_eq_take, eq_comm]
  rw [compareAt, if_pos hi, decide_eq_decide.mpr hiff]

theorem indexOfText_finds {s : Bytes} (hs : s.length < sizeMax) (find : Bytes) (start : Nat) :
    Finds s (IsFirst (OccursAt find s) start) (indexOfText s find start) := by
  by_cases hshort : s.length < find.length ∨ find.length = 0
  · refine ⟨none, fun i _ => not_occursAt_of_short hshort i, ?_⟩
    intro fuel _
    exact if_pos hshort
  · have hne : find ≠ [] := fun hnil => hshort (.inr (by rw [hnil]; rfl))
    obtain ⟨r, hr, hrun⟩ := exists_isFirst_runRounds
      (fun i => decide (i ≤ s.length - find.length)) (compareAt s find) (OccursAt find s)
      (s.length - find.length + 1) (by omega)
      (fun i => by rw [decide_eq_decide]; omega)
      (fun i hi => compareAt_eq hne (by omega))
      (fun i hi hat => by
        have hle := hat.le
        omega) start
    refine ⟨r, hr, ?_⟩
    intro fuel hfuel
    rw [indexOfText, if_neg hshort]
    exact hrun fuel (by omega)

theorem reverseIndexOfText_finds {s : Bytes} (hs : s.length < sizeMax) (find : Bytes)
    (start : Nat) :
    Finds s (IsLast (OccursAt find s) start) (reverseIndexOfText s find start) := by
  by_cases hshort : s.length < find.length ∨ find.length = 0
  · refine ⟨none, fun i _ => not_occursAt_of_short hshort i, ?_⟩
    intro fuel _
    exact if_pos hshort
  · have hne : find ≠ [] := fun hnil => hshort (.inr (by rw [hnil]; rfl))
    have hlast : ∀ i, OccursAt find s i → i ≤ s.length - find.length := by
      intro i hat
      have hle := hat.le
      omega
    have hmin : (if s.length - find.length < start then s.length - find.length else start)
        = min start (s.length - find.length) := by
      split <;> omega
    obtain ⟨r, hr, hrun⟩ := exists_isLast_runRounds (compareAt s find) (OccursAt find s)
      (min start (s.length - find.length)) (by omega)
      (fun i hi => compareAt_eq hne (by omega))
    refine ⟨r, (isLast_min hlast r).mp hr, ?_⟩
    intro fuel hfuel
    rw [reverseIndexOfText, if_neg hshort]
    simp only [hmin]
    exact hrun fuel (by omega)

/-! ## Characters -/

/-- A character from 128 on is negative, and no byte is. -/
theorem toNat_eq_charValue_iff (b c : UInt8) :
    (b.toNat : Int) = charValue c ↔ c < 128 ∧ b = c := by
  have hb := b.toNat_lt
  have hc := c.toNat_lt
  rw [charValue, BitVec.toInt_eq_toNat_cond, UInt8.lt_iff_toNat_lt, ← UInt8.toNat_inj]
  simp only [UInt8.toNat_toBitVec]
  have h128 : (128 : UInt8).toNat = 128 := rfl
  split <;> omega

theorem equalAt_eq {s : Bytes} {i : Nat} (c : UInt8) (hi : i < s.length) :
    equalAt s c i = some (decide (c < 128 ∧ OccursAt [c] s i)) := by
  have hiff : ((s[i].toNat : Int) = charValue c) ↔ (c < 128 ∧ OccursAt [c] s i) := by
    rw [toNat_eq_charValue_iff, occursAt_singleton, List.getElem?_eq_getElem hi,
      Option.some.injEq]
  rw [equalAt, List.getElem?_eq_getElem hi, Option.map_some, decide_eq_decide.mpr hiff]

theorem stringIndexOfChar_finds {s : Bytes} (hs : s.length < sizeMax) (c : UInt8) (start : Nat) :
    Finds s (IsFirst (fun i => c < 128 ∧ OccursAt [c] s i) start)
      (stringIndexOfChar s c start) := by
  have houtside : ∀ i, s.length ≤ i → ¬ (c < 128 ∧ OccursAt [c] s i) := by
    intro i hi hat
    have hle := hat.2.le
    rw [List.length_singleton] at hle
    omega
  by_cases hnil : s.length = 0
  · refine ⟨none, fun i _ => houtside i (by omega), ?_⟩
    intro fuel _
    exact if_pos hnil
  · obtain ⟨r, hr, hrun⟩ := exists_isFirst_runRounds
      (fun i => decide (i < s.length)) (equalAt s c) (fun i => c < 128 ∧ OccursAt [c] s i)
      s.length (by omega) (fun _ => rfl) (fun i hi => equalAt_eq c hi) houtside start
    refine ⟨r, hr, ?_⟩
    intro fuel hfuel
    rw [stringIndexOfChar, if_neg hnil]
    exact hrun fuel (by omega)

theorem stringReverseIndexOfChar_finds {s : Bytes} (hs : s.length < sizeMax) (c : UInt8)
    (start : Nat) :
    Finds s (IsLast (fun i => c < 128 ∧ OccursAt [c] s i) start)
      (stringReverseIndexOfChar s c start) := by
  have hlast : ∀ i, (c < 128 ∧ OccursAt [c] s i) → i ≤ s.length - 1 := by
    intro i hat
    have hle := hat.2.le
    rw [List.length_singleton] at hle
    omega
  by_cases hnil : s.length = 0
  · refine ⟨none, ?_, fun fuel _ => if_pos hnil⟩
    intro i _ hat
    have hle := hat.2.le
    rw [List.length_singleton] at hle
    omega
  · have hmin : (if s.length - 1 < start then s.length - 1 else start)
        = min start (s.length - 1) := by
      split <;> omega
    obtain ⟨r, hr, hrun⟩ := exists_isLast_runRounds
      (equalAt s c) (fun i => c < 128 ∧ OccursAt [c] s i) (min start (s.length - 1)) (by omega)
      (fun i hi => equalAt_eq c (by omega))
    refine ⟨r, (isLast_min hlast r).mp hr, ?_⟩
    intro fuel hfuel
    rw [stringReverseIndexOfChar, if_neg hnil]
    simp only [hmin]
    exact hrun fuel (by omega)

/-! ## All of them -/

/-- What the searches are to do with one string, a text, a character and a
start: the least index from `start` on and the greatest one up to it. -/
structure PatternRule (s find : Bytes) (c : UInt8) (start : Nat) : Prop where
  indexOfStr : Finds s (IsFirst (OccursAt find s) start) (stringIndexOfStr s find start)
  indexOfCstr : Finds s (IsFirst (OccursAt (cstr find) s) start) (stringIndexOfCstr s find start)
  indexOfChar : Finds s (IsFirst (OccursAt [c] s) start) (stringIndexOfChar s c start)
  reverseIndexOfStr : Finds s (IsLast (OccursAt find s) start)
    (stringReverseIndexOfStr s find start)
  reverseIndexOfCstr : Finds s (IsLast (OccursAt (cstr find) s) start)
    (stringReverseIndexOfCstr s find start)
  reverseIndexOfChar : Finds s (IsLast (OccursAt [c] s) start)
    (stringReverseIndexOfChar s c start)

/-- **The searches are right** exactly if the character is below 128 or not in
the string. -/
theorem patternRule_iff {s find : Bytes} {c : UInt8} {start : Nat} (hs : s.length < sizeMax) :
    PatternRule s find c start ↔ c < 128 ∨ c ∉ s := by
  have hup := stringIndexOfChar_finds hs c start
  have hdown := stringReverseIndexOfChar_finds hs c start
  constructor
  · intro h
    by_contra hnot
    rw [not_or, not_not] at hnot
    obtain ⟨hlarge, hmem⟩ := hnot
    obtain ⟨k, hk⟩ := List.getElem?_of_mem hmem
    have hat : OccursAt [c] s k := occursAt_singleton.mpr hk
    obtain ⟨r, hr, hr'⟩ := h.indexOfChar.both hup
    obtain ⟨l, hl, hl'⟩ := h.reverseIndexOfChar.both hdown
    -- the code finds nothing in either direction, and `k` is in one of them
    cases r with
    | some i => exact hlarge hr'.2.1.1
    | none =>
        cases l with
        | some i => exact hlarge hl'.2.1.1
        | none =>
            rcases Nat.le_total start k with hle | hle
            · exact hr k hle hat
            · exact hl k hle hat
  · intro h
    have hchar : (fun i => c < 128 ∧ OccursAt [c] s i) = OccursAt [c] s := by
      funext i
      apply propext
      constructor
      · exact And.right
      · intro hat
        exact ⟨h.resolve_right (not_not.mpr (List.mem_of_getElem? (occursAt_singleton.mp hat))),
          hat⟩
    rw [hchar] at hup hdown
    exact {
      indexOfStr := indexOfText_finds hs find start
      indexOfCstr := indexOfText_finds hs (cstr find) start
      indexOfChar := hup
      reverseIndexOfStr := reverseIndexOfText_finds hs find start
      reverseIndexOfCstr := reverseIndexOfText_finds hs (cstr find) start
      reverseIndexOfChar := hdown }

theorem patternRule_words : PatternRule (ascii "abc def geh") (ascii "ef") 32 4 :=
  (patternRule_iff (by decide)).mpr (.inl (by decide))

/-- The byte 200 is not found where it is. -/
theorem not_patternRule_byte : ¬ PatternRule [97, 200] [200] 200 0 := by
  intro h
  obtain ⟨r, hr, hrun⟩ := h.indexOfChar
  have hnone : some (SearchOutcome.returned none) = some (.returned r) :=
    (by decide : stringIndexOfChar [97, 200] 200 0 3 = _).symm.trans (hrun 3 (by decide))
  cases hnone
  exact hr 1 (by decide) (by decide)

end CWebServer.Strings
