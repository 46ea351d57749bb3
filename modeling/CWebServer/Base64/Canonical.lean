import CWebServer.Base64.RoundTrip
import CWebServer.Base64.Accepts

/-!
# Base64 — Canonical Texts

`base64_decode` does not look at the bits that the last character in front of
the padding has beyond the last byte. What it accepts is therefore more than
what `base64_encode` writes: every accepted text has the data of exactly one
written text, which is the same text with these bits cleared.
-/

namespace CWebServer.Base64

open CWebServer.Strings

/-! ## Vocabulary -/

/-- The value of a character, 0 for one that has none. -/
def valueOf (c : UInt8) : UInt8 := (charToValue c).getD 0

/-- The block with the unused bits of the last character in front of its
padding cleared. -/
def clearBlock (c0 c1 c2 c3 : UInt8) : Bytes :=
  if c2 = padding then [c0, valueToChar (valueOf c1 &&& 0b110000), c2, c3]
  else if c3 = padding then [c0, c1, valueToChar (valueOf c2 &&& 0b111100), c3]
  else [c0, c1, c2, c3]

def clearUnused : Bytes → Bytes
  | c0 :: c1 :: c2 :: c3 :: rest => clearBlock c0 c1 c2 c3 ++ clearUnused rest
  | text => text

/-- The bits of the last character in front of one or two characters of
padding that belong to no byte. -/
def unusedBits (pad : Bytes) : UInt8 := if pad.length = 1 then 0b11 else 0b1111

def UnusedBitsZero (text : Bytes) : Prop :=
  ∀ chars c pad, text = chars ++ c :: pad → c ≠ padding →
    pad = [padding] ∨ pad = [padding, padding] → valueOf c &&& unusedBits pad = 0

/-- What a caller that knows the text takes from the bytes written: one less
for each character of padding. -/
def decodedData (text written : Bytes) : Bytes :=
  written.take (3 * (text.length / 4) - text.count padding)

/-! ## Values and characters -/

theorem valueOf_of_some {c value : UInt8} (h : charToValue c = some value) : valueOf c = value := by
  rw [valueOf, h]
  rfl

/-- A legal value is a 6-bit one, and its character is the one it was found
for. -/
theorem valueToChar_of_legal {c value : UInt8} (h : charToValue c = some value)
    (hlegal : value ≠ illegalValue) : value < 64 ∧ valueToChar value = c ∧ c ≠ padding := by
  have hall : ∀ c : UInt8, valueOf c = illegalValue ∨ charToValue c = none
      ∨ valueOf c < 64 ∧ valueToChar (valueOf c) = c ∧ c ≠ padding :=
    forall_byte (by decide)
  rcases hall c with hc | hc | hc
  · exact absurd ((valueOf_of_some h).symm.trans hc) hlegal
  · rw [h] at hc
    cases hc
  · rw [valueOf_of_some h] at hc
    exact hc

/-- What the encoder makes of the parts of the first value. -/
theorem first_value_parts : ∀ v : UInt8, v < 64 →
    ((v &&& 0b111111) <<< 2 &&& 0b11111100) >>> 2 = v
      ∧ ((v &&& 0b111111) <<< 2 &&& 0b00000011) <<< 4 = 0 :=
  forall_byte (by decide)

/-- What it makes of the parts of the second value. -/
theorem second_value_parts : ∀ v : UInt8, v < 64 →
    ((v &&& 0b110000) >>> 4 &&& 0b11111100) >>> 2 = 0
      ∧ ((v &&& 0b110000) >>> 4 &&& 0b00000011) <<< 4 = v &&& 0b110000
      ∧ ((v &&& 0b001111) <<< 4 &&& 0b11110000) >>> 4 = v &&& 0b001111
      ∧ ((v &&& 0b001111) <<< 4 &&& 0b00001111) <<< 2 = 0
      ∧ (v &&& 0b110000) ||| (v &&& 0b001111) = v :=
  forall_byte (by decide)

/-- What it makes of the parts of the third value. -/
theorem third_value_parts : ∀ v : UInt8, v < 64 →
    ((v &&& 0b111100) >>> 2 &&& 0b11110000) >>> 4 = 0
      ∧ ((v &&& 0b111100) >>> 2 &&& 0b00001111) <<< 2 = v &&& 0b111100
      ∧ ((v &&& 0b000011) <<< 6 &&& 0b11000000) >>> 6 = v &&& 0b000011
      ∧ (v &&& 0b000011) <<< 6 &&& 0b00111111 = 0
      ∧ (v &&& 0b111100) ||| (v &&& 0b000011) = v :=
  forall_byte (by decide)

/-- What it makes of the fourth value. -/
theorem fourth_value_parts : ∀ v : UInt8, v < 64 →
    (v &&& 0b111111 &&& 0b11000000) >>> 6 = 0 ∧ v &&& 0b111111 &&& 0b00111111 = v :=
  forall_byte (by decide)

/-! ## One block -/

section
variable {c0 c1 c2 c3 v0 v1 v2 v3 : UInt8}

/-- The four characters come back from the three bytes. -/
theorem encodeBlock_decoded (h0 : v0 < 64) (h1 : v1 < 64) (h2 : v2 < 64) (h3 : v3 < 64) :
    encodeLoop (decodeBlock v0 v1 v2 v3)
      = [valueToChar v0, valueToChar v1, valueToChar v2, valueToChar v3] := by
  obtain ⟨ha, ha'⟩ := first_value_parts v0 h0
  obtain ⟨hb, hb', hb'', hb''', hb4⟩ := second_value_parts v1 h1
  obtain ⟨hc, hc', hc'', hc''', hc4⟩ := third_value_parts v2 h2
  obtain ⟨hd, hd'⟩ := fourth_value_parts v3 h3
  simp only [decodeBlock, encodeLoop, encodeBlock, or_and, UInt8.shiftLeft_or, UInt8.shiftRight_or,
    Bool.false_eq_true, if_false, List.append_nil]
  rw [ha, hb, ha', hb', hb'', hc, hb''', hc', hc'', hd, hc''', hd']
  simp only [UInt8.or_zero, UInt8.zero_or, hb4, hc4]

/-- In front of one character of padding two bits are dropped. -/
theorem encodeBlock_decoded_two (h0 : v0 < 64) (h1 : v1 < 64) (h2 : v2 < 64) :
    encodeLoop ((decodeBlock v0 v1 v2 0).take 2)
      = [valueToChar v0, valueToChar v1, valueToChar (v2 &&& 0b111100), padding] := by
  obtain ⟨ha, ha'⟩ := first_value_parts v0 h0
  obtain ⟨hb, hb', hb'', hb''', hb4⟩ := second_value_parts v1 h1
  obtain ⟨hc, hc', -⟩ := third_value_parts v2 h2
  have hzero : ((0 : UInt8) &&& 0b11000000) >>> 6 = 0 := by decide
  simp only [decodeBlock, List.take, encodeLoop, encodeBlock, or_and, UInt8.shiftLeft_or,
    UInt8.shiftRight_or, Bool.false_eq_true, if_false, if_true]
  rw [ha, hb, ha', hb', hb'', hc, hb''', hc', hzero]
  simp only [UInt8.or_zero, UInt8.zero_or, hb4]

/-- In front of two of them four bits are dropped. -/
theorem encodeBlock_decoded_one (h0 : v0 < 64) (h1 : v1 < 64) :
    encodeLoop ((decodeBlock v0 v1 0 0).take 1)
      = [valueToChar v0, valueToChar (v1 &&& 0b110000), padding, padding] := by
  obtain ⟨ha, ha'⟩ := first_value_parts v0 h0
  obtain ⟨hb, hb', -⟩ := second_value_parts v1 h1
  have hzero : ((0 : UInt8) &&& 0b11110000) >>> 4 = 0 := by decide
  simp only [decodeBlock, List.take, encodeLoop, encodeBlock, or_and, UInt8.shiftLeft_or,
    UInt8.shiftRight_or, if_true]
  rw [ha, hb, ha', hb', hzero]
  simp only [UInt8.or_zero, UInt8.zero_or]

end

/-! ## Accepted texts, block by block -/

/-- What an accepted block has to say for itself: its values, and which of
them are taken. -/
inductive Taken (last : Bool) (c0 c1 c2 c3 : UInt8) : Bytes → Prop
  | full (h : ∀ c ∈ [c0, c1, c2, c3],
        charToValue c = some (valueOf c) ∧ valueOf c ≠ illegalValue) :
      Taken last c0 c1 c2 c3 (decodeBlock (valueOf c0) (valueOf c1) (valueOf c2) (valueOf c3))
  | padded1 (hlast : last = true) (hpad : c3 = padding)
      (h : ∀ c ∈ [c0, c1, c2], charToValue c = some (valueOf c)
        ∧ valueOf c ≠ illegalValue) :
      Taken last c0 c1 c2 c3 (decodeBlock (valueOf c0) (valueOf c1) (valueOf c2) 0)
  | padded2 (hlast : last = true) (hpad2 : c2 = padding) (hpad : c3 = padding)
      (h : ∀ c ∈ [c0, c1], charToValue c = some (valueOf c) ∧ valueOf c ≠ illegalValue) :
      Taken last c0 c1 c2 c3 (decodeBlock (valueOf c0) (valueOf c1) 0 0)

/-- The first block of an accepted text, and the rest of it. -/
theorem decodeLoop_accepted {c0 c1 c2 c3 : UInt8} {rest : Bytes} {o : Outcome}
    (h : decodeLoop (c0 :: c1 :: c2 :: c3 :: rest) = some o) (hcode : o.code = 0) :
    ∃ block tail, Taken (rest = []) c0 c1 c2 c3 block ∧ decodeLoop rest = some tail
      ∧ tail.code = 0 ∧ o.written = block ++ tail.written := by
  rw [decodeLoop] at h
  simp only [Option.bind_eq_bind, Option.bind_eq_some_iff] at h
  obtain ⟨value0, h0, value1, h1, value2, h2, value3, h3, h⟩ := h
  have e0 := valueOf_of_some h0
  have e1 := valueOf_of_some h1
  have e2 := valueOf_of_some h2
  have e3 := valueOf_of_some h3
  subst e0 e1 e2 e3
  cases hcheck :
    checkBlock (rest = []) c2 c3 (valueOf c0) (valueOf c1) (valueOf c2) (valueOf c3) with
  | none =>
      rw [hcheck] at h
      cases h
      cases hcode
  | some taken =>
      rw [hcheck] at h
      obtain ⟨tail, htail, ho⟩ := Option.bind_eq_some_iff.mp h
      cases ho
      refine ⟨_, tail, ?_, htail, hcode, rfl⟩
      unfold checkBlock at hcheck
      split at hcheck
      · cases hcheck
      rename_i hlegal
      obtain ⟨hl0, hl1⟩ := not_or.mp hlegal
      split at hcheck
      · -- not the last block
        split at hcheck
        · cases hcheck
        · rename_i hlegal'
          obtain ⟨hl2, hl3⟩ := not_or.mp hlegal'
          cases hcheck
          exact .full (by simp [*])
      rename_i hlast
      rw [Bool.not_eq_false] at hlast
      split at hcheck
      · rename_i hpad2
        split at hcheck
        · rename_i hpad
          cases hcheck
          exact .padded2 hlast hpad2 hpad (by simp [*])
        · cases hcheck
      split at hcheck
      · cases hcheck
      rename_i hl2
      split at hcheck
      · rename_i hpad
        cases hcheck
        exact .padded1 hlast hpad (by simp [*])
      split at hcheck
      · cases hcheck
      · rename_i hl3
        cases hcheck
        exact .full (by simp [*])

section
variable {c0 c1 c2 c3 : UInt8} {last : Bool} {block : Bytes}

theorem Taken.length (h : Taken last c0 c1 c2 c3 block) : block.length = 3 := by
  cases h <;> rfl

theorem not_padding_of_legal {c : UInt8}
    (h : charToValue c = some (valueOf c) ∧ valueOf c ≠ illegalValue) : c ≠ padding :=
  (valueToChar_of_legal h.1 h.2).2.2

/-- In front of the last block there is no padding. -/
theorem Taken.no_padding (h : Taken false c0 c1 c2 c3 block) :
    c0 ≠ padding ∧ c1 ≠ padding ∧ c2 ≠ padding ∧ c3 ≠ padding := by
  cases h with
  | full h =>
      exact ⟨not_padding_of_legal (h c0 (by simp)), not_padding_of_legal (h c1 (by simp)),
        not_padding_of_legal (h c2 (by simp)), not_padding_of_legal (h c3 (by simp))⟩
  | padded1 hlast => cases hlast
  | padded2 hlast => cases hlast

theorem Taken.count_le (h : Taken last c0 c1 c2 c3 block) :
    [c0, c1, c2, c3].count padding ≤ 2 := by
  have hhead : ∀ c ∈ [c0, c1], charToValue c = some (valueOf c)
    ∧ valueOf c ≠ illegalValue := by
    cases h with
    | full h => exact fun c hc => h c (by simp at hc ⊢; tauto)
    | padded1 _ _ h => exact fun c hc => h c (by simp at hc ⊢; tauto)
    | padded2 _ _ _ h => exact h
  have h0 := not_padding_of_legal (hhead c0 (by simp))
  have h1 := not_padding_of_legal (hhead c1 (by simp))
  rw [List.count_cons_of_ne h0, List.count_cons_of_ne h1]
  exact List.count_le_length

/-- The block encoded again. -/
theorem Taken.encode (h : Taken last c0 c1 c2 c3 block) :
    encodeLoop (block.take (3 - [c0, c1, c2, c3].count padding)) = clearBlock c0 c1 c2 c3 := by
  cases h with
  | full h =>
      obtain ⟨h0, e0, n0⟩ := valueToChar_of_legal (h c0 (by simp)).1 (h c0 (by simp)).2
      obtain ⟨h1, e1, n1⟩ := valueToChar_of_legal (h c1 (by simp)).1 (h c1 (by simp)).2
      obtain ⟨h2, e2, n2⟩ := valueToChar_of_legal (h c2 (by simp)).1 (h c2 (by simp)).2
      obtain ⟨h3, e3, n3⟩ := valueToChar_of_legal (h c3 (by simp)).1 (h c3 (by simp)).2
      have hcount : [c0, c1, c2, c3].count padding = 0 := by simp [n0, n1, n2, n3]
      rw [hcount, clearBlock, if_neg n2, if_neg n3]
      exact (encodeBlock_decoded h0 h1 h2 h3).trans (by rw [e0, e1, e2, e3])
  | padded1 hlast hpad h =>
      obtain ⟨h0, e0, n0⟩ := valueToChar_of_legal (h c0 (by simp)).1 (h c0 (by simp)).2
      obtain ⟨h1, e1, n1⟩ := valueToChar_of_legal (h c1 (by simp)).1 (h c1 (by simp)).2
      obtain ⟨h2, -, n2⟩ := valueToChar_of_legal (h c2 (by simp)).1 (h c2 (by simp)).2
      have hcount : [c0, c1, c2, c3].count padding = 1 := by simp [n0, n1, n2, hpad]
      rw [hcount, clearBlock, if_neg n2, if_pos hpad, encodeBlock_decoded_two h0 h1 h2,
        e0, e1, hpad]
  | padded2 hlast hpad2 hpad h =>
      obtain ⟨h0, e0, n0⟩ := valueToChar_of_legal (h c0 (by simp)).1 (h c0 (by simp)).2
      obtain ⟨h1, -, n1⟩ := valueToChar_of_legal (h c1 (by simp)).1 (h c1 (by simp)).2
      have hcount : [c0, c1, c2, c3].count padding = 2 := by simp [n0, n1, hpad2, hpad]
      rw [hcount, clearBlock, if_pos hpad2, encodeBlock_decoded_one h0 h1, e0, hpad2, hpad]

end

/-! ## Whole texts -/

theorem eq_nil_of_no_block {text : Bytes} (hlen : text.length % 4 = 0)
    (hshort : ∀ c0 c1 c2 c3 rest, text = c0 :: c1 :: c2 :: c3 :: rest → False) : text = [] := by
  rcases text with _ | ⟨c0, _ | ⟨c1, _ | ⟨c2, _ | ⟨c3, rest⟩⟩⟩⟩
  · rfl
  · simp at hlen
  · simp at hlen
  · simp at hlen
  · exact absurd rfl (hshort c0 c1 c2 c3 rest)

/-- What is accepted, encoded again: the text with the unused bits cleared. -/
theorem encodeLoop_decodedData {text : Bytes} (hlen : text.length % 4 = 0) {o : Outcome}
    (h : decodeLoop text = some o) (hcode : o.code = 0) :
    encodeLoop (decodedData text o.written) = clearUnused text
      ∧ o.written.length = 3 * (text.length / 4)
      ∧ text.count padding ≤ 3 * (text.length / 4) := by
  induction text using decodeLoop.induct generalizing o with
  | case1 c0 c1 c2 c3 rest ih =>
      obtain ⟨block, tail, htaken, htail, htailCode, hwritten⟩ := decodeLoop_accepted h hcode
      have hblocks : (c0 :: c1 :: c2 :: c3 :: rest).length / 4 = rest.length / 4 + 1 := by
        simp only [List.length_cons]
        omega
      have hrest : rest.length % 4 = 0 := by
        simp only [List.length_cons] at hlen
        omega
      obtain ⟨hencode, htailLen, hcount⟩ := ih hrest htail htailCode
      have hcount' : (c0 :: c1 :: c2 :: c3 :: rest).count padding
          = [c0, c1, c2, c3].count padding + rest.count padding := by
        rw [← List.count_append]
        rfl
      have hblockLen := htaken.length
      have htwo := htaken.count_le
      have hdata : decodedData (c0 :: c1 :: c2 :: c3 :: rest) o.written
          = block.take (3 - [c0, c1, c2, c3].count padding) ++ decodedData rest tail.written
            ∧ encodeLoop (block.take (3 - [c0, c1, c2, c3].count padding)
                ++ decodedData rest tail.written)
              = clearBlock c0 c1 c2 c3 ++ encodeLoop (decodedData rest tail.written) := by
        rw [← htaken.encode]
        by_cases hlast : rest = []
        · subst hlast
          cases htail
          simp [decodedData, hwritten, encodeLoop]
        · obtain ⟨n0, n1, n2, n3⟩ := (decide_eq_false hlast ▸ htaken).no_padding
          have hzero : [c0, c1, c2, c3].count padding = 0 := by simp [n0, n1, n2, n3]
          obtain ⟨x, y, z, rfl⟩ := List.length_eq_three.mp hblockLen
          constructor
          · rw [decodedData, decodedData, hcount', hzero, hwritten, hblocks]
            simp only [Nat.sub_zero, Nat.zero_add]
            rw [List.take_of_length_le (Nat.le_of_eq hblockLen), List.take_append, hblockLen]
            rw [List.take_of_length_le (by rw [hblockLen]; omega)]
            congr 2
            omega
          · rw [hzero]
            rfl
      refine ⟨?_, ?_, ?_⟩
      · rw [hdata.1, hdata.2, hencode, clearUnused]
      · rw [hwritten, List.length_append, hblockLen, htailLen, hblocks]
        omega
      · rw [hcount', hblocks]
        omega
  | case2 text hshort =>
      obtain rfl := eq_nil_of_no_block hlen hshort
      cases h
      exact ⟨rfl, rfl, Nat.le_refl _⟩

/-! ## The unused bits -/

theorem length_clearBlock (c0 c1 c2 c3 : UInt8) : (clearBlock c0 c1 c2 c3).length = 4 := by
  unfold clearBlock
  split
  · rfl
  · split <;> rfl

/-- In one block. -/
theorem unusedBitsZero_last {c0 c1 c2 c3 : UInt8} :
    UnusedBitsZero [c0, c1, c2, c3]
      ↔ (c2 ≠ padding → c3 = padding → valueOf c2 &&& 0b11 = 0)
        ∧ (c1 ≠ padding → c2 = padding → c3 = padding → valueOf c1 &&& 0b1111 = 0) := by
  constructor
  · intro h
    constructor
    · rintro hc2 rfl
      exact h [c0, c1] c2 [padding] rfl hc2 (.inl rfl)
    · rintro hc1 rfl rfl
      exact h [c0] c1 [padding, padding] rfl hc1 (.inr rfl)
  · rintro ⟨hone, htwo⟩ chars c pad heq hc (rfl | rfl)
    · have heq' : [c0, c1] ++ [c2, c3] = chars ++ [c, padding] := heq
      obtain ⟨rfl, hlast⟩ := List.append_inj' heq' rfl
      obtain ⟨rfl, rfl⟩ : c2 = c ∧ c3 = padding := by simpa using hlast
      exact hone hc rfl
    · have heq' : [c0] ++ [c1, c2, c3] = chars ++ [c, padding, padding] := heq
      obtain ⟨rfl, hlast⟩ := List.append_inj' heq' rfl
      obtain ⟨rfl, rfl, rfl⟩ : c1 = c ∧ c2 = padding ∧ c3 = padding := by simpa using hlast
      exact htwo hc rfl rfl

/-- In front of other blocks there are none. -/
theorem unusedBitsZero_append (block : Bytes) {rest : Bytes} (hrest : 4 ≤ rest.length) :
    UnusedBitsZero (block ++ rest) ↔ UnusedBitsZero rest := by
  constructor
  · rintro h chars c pad rfl
    exact h (block ++ chars) c pad (List.append_assoc ..).symm
  · intro h chars c pad heq hc hpad
    have hshort : (c :: pad).length ≤ rest.length := by
      have hthree : (c :: pad).length ≤ 3 := by rcases hpad with rfl | rfl <;> simp
      omega
    obtain ⟨chars', hrest'⟩ := List.suffix_of_suffix_length_le
      (heq ▸ List.suffix_append chars (c :: pad)) (List.suffix_append block rest) hshort
    exact h chars' c pad hrest'.symm hc hpad

/-- A legal value without some of its bits has its character if the bits were
zero. -/
theorem cleared_iff {c value : UInt8} (h : charToValue c = some value)
    (hlegal : value ≠ illegalValue) :
    (valueToChar (value &&& 0b111100) = c ↔ value &&& 0b11 = 0)
      ∧ (valueToChar (value &&& 0b110000) = c ↔ value &&& 0b1111 = 0) := by
  obtain ⟨hlt, rfl, -⟩ := valueToChar_of_legal h hlegal
  have hall : ∀ v : UInt8, v < 64 →
      (valueToChar (v &&& 0b111100) = valueToChar v ↔ v &&& 0b11 = 0)
        ∧ (valueToChar (v &&& 0b110000) = valueToChar v ↔ v &&& 0b1111 = 0) :=
    forall_byte (by decide)
  exact hall value hlt

theorem Taken.clearBlock_eq_iff {last : Bool} {c0 c1 c2 c3 : UInt8} {block : Bytes}
    (h : Taken last c0 c1 c2 c3 block) :
    clearBlock c0 c1 c2 c3 = [c0, c1, c2, c3] ↔ UnusedBitsZero [c0, c1, c2, c3] := by
  rw [unusedBitsZero_last]
  cases h with
  | full h =>
      have n2 := not_padding_of_legal (h c2 (by simp))
      have n3 := not_padding_of_legal (h c3 (by simp))
      simp [clearBlock, n2, n3]
  | padded1 hlast hpad h =>
      have hc2 := h c2 (by simp)
      have n2 := not_padding_of_legal hc2
      simp [clearBlock, n2, hpad, (cleared_iff hc2.1 hc2.2).1]
  | padded2 hlast hpad2 hpad h =>
      have hc1 := h c1 (by simp)
      have n1 := not_padding_of_legal hc1
      simp [clearBlock, n1, hpad2, hpad, (cleared_iff hc1.1 hc1.2).2]

/-- An accepted text has nothing to clear if its unused bits are zero. -/
theorem clearUnused_eq_iff {text : Bytes} (hlen : text.length % 4 = 0) {o : Outcome}
    (h : decodeLoop text = some o) (hcode : o.code = 0) :
    clearUnused text = text ↔ UnusedBitsZero text := by
  induction text using decodeLoop.induct generalizing o with
  | case1 c0 c1 c2 c3 rest ih =>
      obtain ⟨block, tail, htaken, htail, htailCode, -⟩ := decodeLoop_accepted h hcode
      have hrest : rest.length % 4 = 0 := by
        simp only [List.length_cons] at hlen
        omega
      have hsplit : clearUnused (c0 :: c1 :: c2 :: c3 :: rest) = [c0, c1, c2, c3] ++ rest
          ↔ clearBlock c0 c1 c2 c3 = [c0, c1, c2, c3] ∧ clearUnused rest = rest := by
        rw [clearUnused]
        constructor
        · intro heq
          exact List.append_inj heq (length_clearBlock c0 c1 c2 c3)
        · rintro ⟨hblock, htext⟩
          rw [hblock, htext]
      refine hsplit.trans ?_
      rw [htaken.clearBlock_eq_iff, ih hrest htail htailCode]
      by_cases hlast : rest = []
      · subst hlast
        have hnil : UnusedBitsZero [] := by
          intro chars c pad heq
          simp at heq
        exact and_iff_left hnil
      · have hfour : 4 ≤ rest.length := by
          have hpos := List.length_pos_iff.mpr hlast
          omega
        obtain ⟨-, -, n2, n3⟩ := (decide_eq_false hlast ▸ htaken).no_padding
        have hblock : UnusedBitsZero [c0, c1, c2, c3] :=
          unusedBitsZero_last.mpr ⟨fun _ h3 => absurd h3 n3, fun _ h2 => absurd h2 n2⟩
        exact (and_iff_right hblock).trans
          (unusedBitsZero_append [c0, c1, c2, c3] hfour).symm
  | case2 text hshort =>
      obtain rfl := eq_nil_of_no_block hlen hshort
      refine ⟨fun _ chars c pad heq => ?_, fun _ => rfl⟩
      simp at heq

/-! ## The calls -/

theorem count_padding_encodeBlock (a b c : UInt8) (padding2 padding3 : Bool) :
    (encodeBlock a b c padding2 padding3).count padding = padding2.toNat + padding3.toNat := by
  have hchar : ∀ v : UInt8, v < 64 → valueToChar v ≠ padding :=
    fun v hv => (charToValue_valueToChar v hv).2.1
  obtain ⟨ha, ha', -⟩ := byte_parts a
  obtain ⟨-, -, hb, hb', -⟩ := byte_parts b
  obtain ⟨-, -, -, -, hc, hc'⟩ := byte_parts c
  have h2 := hchar _ (or_lt_64 hb' hc)
  have h3 := hchar _ hc'
  rw [encodeBlock, List.count_cons_of_ne (hchar _ ha), List.count_cons_of_ne
    (hchar _ (or_lt_64 ha' hb))]
  cases padding2 <;> cases padding3 <;> simp [h2, h3]

/-- Each missing byte of the last block is one character of padding. -/
theorem count_padding_encodeLoop (src : Bytes) :
    (encodeLoop src).count padding + src.length = 3 * ((src.length + 2) / 3) := by
  fun_induction encodeLoop src with
  | case1 => rfl
  | case2 a => simp [count_padding_encodeBlock]
  | case3 a b => simp [count_padding_encodeBlock]
  | case4 a b c src ih =>
      rw [List.count_append, count_padding_encodeBlock]
      simp only [List.length_cons, Bool.toNat_false]
      omega

theorem encodeLoop_injective : Function.Injective encodeLoop := by
  intro a b h
  have hdecoded := decodeLoop_encodeLoop a
  rw [h, decodeLoop_encodeLoop] at hdecoded
  have htext : b ++ _ = a ++ _ := congrArg Outcome.written (Option.some.inj hdecoded)
  have hlen : a.length = b.length := by
    have ha := count_padding_encodeLoop a
    have hb := count_padding_encodeLoop b
    have hblocks := congrArg List.length h
    rw [length_encodeLoop, length_encodeLoop] at hblocks
    rw [h] at ha
    omega
  exact (List.append_inj htext hlen.symm).1.symm

/-- A call that succeeds has run the loop over whole blocks. -/
theorem base64Decode_success {dstLen : Nat} {src : Bytes} {o : Outcome}
    (h : base64Decode dstLen src = some o) (hcode : o.code = 0) :
    (cstr src).length % 4 = 0 ∧ decodeLoop (cstr src) = some o := by
  unfold base64Decode at h
  dsimp only at h
  split at h
  · cases h
    cases hcode
  rename_i hblocks
  split at h
  · cases h
    cases hcode
  · exact ⟨not_not.mp hblocks, h⟩

/-- **Canonical texts**: the data of an accepted text is encoded to the text
with the unused bits cleared, which is the text itself exactly if they were
zero; and two accepted texts have the same data exactly if they differ in
unused bits only. -/
theorem reencoded {dstLen : Nat} {src : Bytes} {o : Outcome} (hlen : (cstr src).length < 2 ^ 64)
    (h : base64Decode dstLen src = some o) (hcode : o.code = 0) :
    base64Encode ((cstr src).length + 1) (decodedData (cstr src) o.written)
        = ⟨0, clearUnused (cstr src) ++ [0]⟩
      ∧ (clearUnused (cstr src) = cstr src ↔ UnusedBitsZero (cstr src))
      ∧ ∀ dstLen' src' o', base64Decode dstLen' src' = some o' → o'.code = 0 →
        (decodedData (cstr src') o'.written = decodedData (cstr src) o.written
          ↔ clearUnused (cstr src') = clearUnused (cstr src)) := by
  obtain ⟨hblocks, hloop⟩ := base64Decode_success h hcode
  obtain ⟨hencode, hwritten, hcount⟩ := encodeLoop_decodedData hblocks hloop hcode
  refine ⟨?_, clearUnused_eq_iff hblocks hloop hcode, ?_⟩
  · have hdata : (decodedData (cstr src) o.written).length ≤ 3 * ((cstr src).length / 4) := by
      rw [decodedData, List.length_take]
      omega
    have hfits : ¬(cstr src).length + 1
        ≤ 4 * (((decodedData (cstr src) o.written).length + 2) / 3) % 2 ^ 64 := by
      omega
    rw [base64Encode_eq (by omega), if_neg hfits, hencode]
  · intro dstLen' src' o' h' hcode'
    obtain ⟨hblocks', hloop'⟩ := base64Decode_success h' hcode'
    obtain ⟨hencode', -⟩ := encodeLoop_decodedData hblocks' hloop' hcode'
    rw [← hencode, ← hencode']
    exact encodeLoop_injective.eq_iff.symm

/-- `QQ==` and `QR==` stand for the same byte, and only the first one is
written for it. -/
theorem reencoded_one_byte :
    base64Encode 5 [65] = ⟨0, ascii "QQ==" ++ [0]⟩
      ∧ ¬UnusedBitsZero (ascii "QR==") := by
  have hcall : base64Decode 3 (ascii "QR==") = some ⟨0, [65, 16, 0]⟩ := by decide
  have h := reencoded (by decide) hcall rfl
  refine ⟨h.1, fun hzero => ?_⟩
  exact absurd (h.2.1.mpr hzero) (by decide)

end CWebServer.Base64
