import CWebServer.Lib.Lexicographic
import CWebServer.Strings.Model

/-!
# Strings — Compare

`string_compare_cstr_len` on texts that an `int` can count. It compares by
the first difference, and the difference of two characters is cut down to a
`char`: it counts the steps between two bytes around the circle of all 256,
the short way. Bytes that lie opposite each other come before each other, and
three bytes can lie around the circle so that each comes before the next.
-/

namespace CWebServer.Strings

open CWebServer.Lib

/-- `char diff = ac - bc`. -/
def charDiff (x y : UInt8) : Int :=
  (x.toBitVec - y.toBitVec).toInt

/-- `y` lies opposite `x` on the circle of bytes. -/
def Antipodal (x y : UInt8) : Prop :=
  y = x + 128

/-- From `x` on, `y` is reached in less than half the circle. -/
def Ahead (x y : UInt8) : Prop :=
  0 < y - x ∧ y - x < 128

instance (x y : UInt8) : Decidable (Antipodal x y) := inferInstanceAs (Decidable (_ = _))

instance (x y : UInt8) : Decidable (Ahead x y) := inferInstanceAs (Decidable (_ ∧ _))

/-! ## Two bytes -/

theorem charDiff_eq (x y : UInt8) :
    charDiff x y = if (256 - y.toNat + x.toNat) % 256 < 128
      then (((256 - y.toNat + x.toNat) % 256 : Nat) : Int)
      else (((256 - y.toNat + x.toNat) % 256 : Nat) : Int) - 256 := by
  rw [charDiff, BitVec.toInt_eq_toNat_cond, BitVec.toNat_sub]
  simp only [UInt8.toNat_toBitVec]
  split <;> split <;> omega

theorem ahead_iff (x y : UInt8) :
    Ahead x y ↔ 0 < (256 - x.toNat + y.toNat) % 256
      ∧ (256 - x.toNat + y.toNat) % 256 < 128 := by
  rw [Ahead, UInt8.lt_iff_toNat_lt, UInt8.lt_iff_toNat_lt, UInt8.toNat_sub]
  rfl

theorem antipodal_iff (x y : UInt8) : Antipodal x y ↔ y.toNat = (x.toNat + 128) % 256 := by
  rw [Antipodal, ← UInt8.toNat_inj, UInt8.toNat_add]
  rfl

theorem charDiff_ne_zero (x y : UInt8) (h : x ≠ y) : charDiff x y ≠ 0 := by
  have hne : x.toNat ≠ y.toNat := fun heq => h (UInt8.toNat_inj.mp heq)
  have hx := x.toNat_lt
  have hy := y.toNat_lt
  rw [charDiff_eq]
  split <;> omega

/-- A byte that comes before another one. -/
theorem charDiff_neg_iff (x y : UInt8) : charDiff x y < 0 ↔ Ahead x y ∨ Antipodal x y := by
  have hx := x.toNat_lt
  have hy := y.toNat_lt
  rw [charDiff_eq, ahead_iff, antipodal_iff]
  split <;> omega

theorem charDiff_pos_iff (x y : UInt8) : 0 < charDiff x y ↔ Ahead y x := by
  have hx := x.toNat_lt
  have hy := y.toNat_lt
  rw [charDiff_eq, ahead_iff]
  split <;> omega

theorem not_ahead_of_antipodal {x y : UInt8} (h : Antipodal x y) : ¬ Ahead x y := by
  have hx := x.toNat_lt
  rw [antipodal_iff] at h
  rw [ahead_iff]
  omega

theorem ne_of_ahead {x y : UInt8} (h : Ahead x y) : x ≠ y := by
  rintro rfl
  have hx := x.toNat_lt
  rw [ahead_iff] at h
  omega

/-- Only opposite bytes come before each other. -/
theorem opposite_charDiff_iff {x y : UInt8} (h : x ≠ y) :
    OppositeSigns charDiff x y ↔ ¬ Antipodal x y := by
  rcases Int.lt_or_gt_of_ne (charDiff_ne_zero x y h) with hneg | hpos
  · have hbefore := (charDiff_neg_iff x y).mp hneg
    rw [OppositeSigns, Int.sign_eq_neg_one_of_neg hneg, Int.neg_neg, Int.sign_eq_one_iff_pos,
      charDiff_pos_iff]
    constructor
    · exact fun hahead hanti => not_ahead_of_antipodal hanti hahead
    · exact fun hanti => hbefore.resolve_right hanti
  · have hneg : charDiff y x < 0 :=
      (charDiff_neg_iff y x).mpr (.inl ((charDiff_pos_iff x y).mp hpos))
    rw [OppositeSigns, Int.sign_eq_one_of_pos hpos, Int.sign_eq_neg_one_of_neg hneg]
    apply iff_of_true rfl
    intro hanti
    have hlt := (charDiff_neg_iff x y).mpr (.inr hanti)
    omega

/-- Different bytes that come each before the next, and the last one before
the first. -/
theorem cyclic_charDiff_iff {x y z : UInt8} (hxy : ¬ Antipodal x y) (hyz : ¬ Antipodal y z) :
    Cyclic charDiff x y z ↔ Ahead x y ∧ Ahead y z ∧ Ahead z x := by
  rw [Cyclic, charDiff_neg_iff, charDiff_neg_iff, charDiff_pos_iff, or_iff_left hxy,
    or_iff_left hyz]

/-! ## Texts -/

/-- The difference of two lengths fits into an `int`. -/
theorem toInt_length_sub {m n : Nat} (hm : m < 2 ^ 31) (hn : n < 2 ^ 31) :
    (BitVec.ofInt 32 ((m : Int) - n)).toInt = (m : Int) - n := by
  rw [BitVec.toInt_ofInt, Int.bmod_eq_of_le] <;> omega

/-- The comparison of two texts is the one by the first difference. -/
theorem stringCompareCstrLen_eq {mode : StringCompareMode} {a b : Bytes}
    (ha : a.length < 2 ^ 31) (hb : b.length < 2 ^ 31) :
    stringCompareCstrLen mode a b = compareBy charDiff (a.map mode.fold) (b.map mode.fold) := by
  induction a generalizing b with
  | nil =>
      have hends : stringCompareCstrLen mode [] b
          = (BitVec.ofInt 32 (([] : Bytes).length - b.length)).toInt := by
        cases b <;> rfl
      rw [hends, toInt_length_sub ha hb, List.map_nil, compareBy_nil, List.length_map,
        List.length_nil]
      omega
  | cons x a ih =>
      cases b with
      | nil =>
          have hends : stringCompareCstrLen mode (x :: a) []
              = (BitVec.ofInt 32 ((x :: a).length - ([] : Bytes).length)).toInt := rfl
          rw [hends, toInt_length_sub ha hb, List.map_nil, List.map_cons, compareBy_cons_nil,
            List.length_cons, List.length_cons, List.length_map, List.length_nil]
          omega
      | cons y b =>
          rw [stringCompareCstrLen, List.map_cons, List.map_cons]
          rw [List.length_cons] at ha hb
          by_cases hxy : mode.fold x = mode.fold y
          · rw [if_pos hxy, hxy, compareBy_cons_self]
            exact ih (by omega) (by omega)
          · rw [if_neg hxy, compareBy_cons_ne hxy]
            rfl

/-- What an order does on two texts: 0 for equal ones, and the other sign for
the other way around. -/
structure PairRule (mode : StringCompareMode) (a b : Bytes) : Prop where
  equal : stringCompareCstrLen mode a b = 0 ↔ a.map mode.fold = b.map mode.fold
  opposite : (stringCompareCstrLen mode b a).sign = -(stringCompareCstrLen mode a b).sign

/-- What an order does on three texts. -/
structure OrderRule (mode : StringCompareMode) (a b c : Bytes) : Prop where
  left : PairRule mode a b
  right : PairRule mode b c
  outer : PairRule mode a c
  transitive : stringCompareCstrLen mode a b ≤ 0 → stringCompareCstrLen mode b c ≤ 0 →
    stringCompareCstrLen mode a c ≤ 0

/-- Two texts do not differ first in opposite bytes. -/
def NotAntipodal (mode : StringCompareMode) (a b : Bytes) : Prop :=
  ∀ x y, firstDifference (a.map mode.fold) (b.map mode.fold) = some (x, y) → ¬ Antipodal x y

/-- Three texts do not fork into bytes that go around the circle. -/
def NotAround (mode : StringCompareMode) (a b c : Bytes) : Prop :=
  ∀ x y z, fork (a.map mode.fold) (b.map mode.fold) (c.map mode.fold) = some (x, y, z) →
    ¬ (Ahead x y ∧ Ahead y z ∧ Ahead z x)

/-- The bytes of a first difference are different. -/
theorem notAntipodal_iff {mode : StringCompareMode} {a b : Bytes} :
    NotAntipodal mode a b
      ↔ ∀ x y, firstDifference (a.map mode.fold) (b.map mode.fold) = some (x, y) →
          OppositeSigns charDiff x y := by
  constructor
  · intro h x y hfirst
    exact (opposite_charDiff_iff (ne_of_firstDifference hfirst)).mpr (h x y hfirst)
  · intro h x y hfirst
    exact (opposite_charDiff_iff (ne_of_firstDifference hfirst)).mp (h x y hfirst)

theorem pairRule_iff {mode : StringCompareMode} {a b : Bytes} (ha : a.length < 2 ^ 31)
    (hb : b.length < 2 ^ 31) : PairRule mode a b ↔ NotAntipodal mode a b := by
  have hopposite := compareBy_opposite_iff charDiff (a := a.map mode.fold)
    (b := b.map mode.fold)
  rw [← notAntipodal_iff, ← stringCompareCstrLen_eq ha hb, ← stringCompareCstrLen_eq hb ha]
    at hopposite
  constructor
  · exact fun h => hopposite.mp h.opposite
  · intro h
    refine ⟨?_, hopposite.mpr h⟩
    rw [stringCompareCstrLen_eq ha hb, compareBy_eq_zero_iff charDiff_ne_zero]

/-- **The comparison is an order** on three texts exactly if no two of them
differ first in opposite bytes and they do not fork into bytes that go around
the circle. -/
theorem orderRule_iff {mode : StringCompareMode} {a b c : Bytes} (ha : a.length < 2 ^ 31)
    (hb : b.length < 2 ^ 31) (hc : c.length < 2 ^ 31) :
    OrderRule mode a b c
      ↔ NotAntipodal mode a b ∧ NotAntipodal mode b c ∧ NotAntipodal mode a c
        ∧ NotAround mode a b c := by
  have htrans : NotAntipodal mode a b → NotAntipodal mode b c →
      ((stringCompareCstrLen mode a b ≤ 0 → stringCompareCstrLen mode b c ≤ 0 →
        stringCompareCstrLen mode a c ≤ 0) ↔ NotAround mode a b c) := by
    intro hab hbc
    rw [stringCompareCstrLen_eq ha hb, stringCompareCstrLen_eq hb hc,
      stringCompareCstrLen_eq ha hc,
      compareBy_trans_iff charDiff_ne_zero (notAntipodal_iff.mp hab)]
    constructor
    · intro h x y z hfork hround
      obtain ⟨hxy, hyz, hzx⟩ := hround
      have hfirst := firstDifference_of_fork hfork
      have hcyclic : Cyclic charDiff x y z :=
        (cyclic_charDiff_iff (hab x y (hfirst.1 (ne_of_ahead hxy)))
          (hbc y z (hfirst.2 (ne_of_ahead hyz)))).mpr ⟨hxy, hyz, hzx⟩
      exact h x y z hfork (ne_of_ahead hxy) (ne_of_ahead hyz) (ne_of_ahead hzx).symm hcyclic
    · intro h x y z hfork hxy hyz _ hcyclic
      have hfirst := firstDifference_of_fork hfork
      exact h x y z hfork ((cyclic_charDiff_iff (hab x y (hfirst.1 hxy))
        (hbc y z (hfirst.2 hyz))).mp hcyclic)
  constructor
  · intro h
    have hab := (pairRule_iff ha hb).mp h.left
    have hbc := (pairRule_iff hb hc).mp h.right
    exact ⟨hab, hbc, (pairRule_iff ha hc).mp h.outer, (htrans hab hbc).mp h.transitive⟩
  · rintro ⟨hab, hbc, hac, hfork⟩
    exact ⟨(pairRule_iff ha hb).mpr hab, (pairRule_iff hb hc).mpr hbc,
      (pairRule_iff ha hc).mpr hac, (htrans hab hbc).mpr hfork⟩

theorem orderRule_words :
    OrderRule .caseInsensitive (ascii "Accept") (ascii "accept-encoding") (ascii "HOST") := by
  refine (orderRule_iff (by decide) (by decide) (by decide)).mpr ⟨?_, ?_, ?_, ?_⟩
  · intro x y h
    have hnone : (none : Option (UInt8 × UInt8)) = some (x, y) := h
    cases hnone
  · intro x y h
    have hfirst : some ((97 : UInt8), (104 : UInt8)) = some (x, y) := h
    cases hfirst
    decide
  · intro x y h
    have hfirst : some ((97 : UInt8), (104 : UInt8)) = some (x, y) := h
    cases hfirst
    decide
  · intro x y z h
    have hfork : some ((97 : UInt8), (97 : UInt8), (104 : UInt8)) = some (x, y, z) := h
    cases hfork
    decide

/-- An `A` and the byte opposite it come before each other; of `!`, `a` and
the byte 193 each comes before the next and the last before the first. -/
theorem not_orderRule_bytes :
    ¬ OrderRule .caseSensitive [65] [193] [193] ∧ ¬ OrderRule .caseSensitive [33] [97] [193] :=
  ⟨fun h => absurd h.left.opposite (by decide),
    fun h => absurd (h.transitive (by decide) (by decide)) (by decide)⟩

end CWebServer.Strings
