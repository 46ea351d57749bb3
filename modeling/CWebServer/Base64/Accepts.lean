import CWebServer.Base64.Model

/-!
# Base64 — What Is Accepted

`base64_decode` looks a character up by its value as a signed `char`, so a
byte from 128 on takes it outside the table. As long as that does not happen
it accepts what `base64.h` describes.
-/

namespace CWebServer.Base64

open CWebServer.Strings

/-- The alphabet: `A`-`Z`, `a`-`z`, `0`-`9`, `+` and `/`. -/
def isAlphabet (c : UInt8) : Bool :=
  65 ≤ c && c ≤ 90 || 97 ≤ c && c ≤ 122 || isdigit c || c = 43 || c = 47

/-- Characters of the alphabet, the last one or the last two perhaps being
padding. -/
def WellFormed (text : Bytes) : Prop :=
  ∃ chars pad, text = chars ++ pad ∧ (∀ c ∈ chars, isAlphabet c = true)
    ∧ (pad = [] ∨ pad = [padding] ∨ pad = [padding, padding])

/-- The texts that `base64_decode` is to accept for `dstLen` bytes. -/
def Accepted (dstLen : Nat) (text : Bytes) : Prop :=
  text.length % 4 = 0 ∧ 3 * text.length ≤ 4 * dstLen ∧ WellFormed text

/-- Every block with a byte from 128 on comes after a block with another
character that is none of the alphabet. -/
def HighBytesBehindIllegal (text : Bytes) : Prop :=
  ∀ i, ∀ c : UInt8, text[i]? = some c → 128 ≤ c →
    ∃ j, ∃ d : UInt8, text[j]? = some d ∧ j / 4 < i / 4 ∧ isAlphabet d = false

/-! ## One character -/

/-- A lookup stays inside the table below 128, and finds a value for the
alphabet. -/
theorem charToValue_spec : ∀ c : UInt8,
    (128 ≤ c → charToValue c = none)
      ∧ (c < 128 → ∃ value, charToValue c = some value
          ∧ (value = illegalValue ↔ isAlphabet c = false)) := by
  have h : ∀ c : UInt8, (128 ≤ c → charToValue c = none)
      ∧ (c < 128 → (charToValue c).isSome
          ∧ ((charToValue c).getD 0 = illegalValue ↔ isAlphabet c = false)) :=
    forall_byte (by decide)
  intro c
  refine ⟨(h c).1, ?_⟩
  intro hlow
  obtain ⟨hsome, hvalue⟩ := (h c).2 hlow
  obtain ⟨value, hfound⟩ := Option.isSome_iff_exists.mp hsome
  rw [hfound] at hvalue
  exact ⟨value, hfound, hvalue⟩

/-! ## One block -/

/-- A block that passes: in the last one the fourth character, or the third
and the fourth, may be padding. -/
def LegalBlock (last : Bool) (c0 c1 c2 c3 : UInt8) : Prop :=
  isAlphabet c0 = true ∧ isAlphabet c1 = true
    ∧ (isAlphabet c2 = true ∧ isAlphabet c3 = true
      ∨ last = true ∧ c3 = padding ∧ (isAlphabet c2 = true ∨ c2 = padding))

theorem checkBlock_isSome_iff {c0 c1 c2 c3 value0 value1 value2 value3 : UInt8} (last : Bool)
    (h0 : value0 = illegalValue ↔ isAlphabet c0 = false)
    (h1 : value1 = illegalValue ↔ isAlphabet c1 = false)
    (h2 : value2 = illegalValue ↔ isAlphabet c2 = false)
    (h3 : value3 = illegalValue ↔ isAlphabet c3 = false) :
    (checkBlock last c2 c3 value0 value1 value2 value3).isSome ↔ LegalBlock last c0 c1 c2 c3 := by
  have hpad : isAlphabet padding = false := by decide
  unfold checkBlock LegalBlock
  simp only [h0, h1, h2, h3]
  by_cases hc2 : c2 = padding
  · by_cases hc3 : c3 = padding
    · cases last <;> cases isAlphabet c0 <;> cases isAlphabet c1 <;> simp [hc2, hc3, hpad]
    · cases last <;> cases isAlphabet c0 <;> cases isAlphabet c1 <;> simp [hc2, hc3, hpad]
  · by_cases hc3 : c3 = padding
    · cases last <;> cases isAlphabet c0 <;> cases isAlphabet c1 <;> cases isAlphabet c2 <;>
        simp [hc2, hc3, hpad]
    · cases last <;> cases isAlphabet c0 <;> cases isAlphabet c1 <;> cases isAlphabet c2 <;>
        cases isAlphabet c3 <;> simp [hc2, hc3]

theorem wellFormed_nil : WellFormed [] :=
  ⟨[], [], rfl, by simp, .inl rfl⟩

/-- A text that is the last block. -/
theorem wellFormed_last {c0 c1 c2 c3 : UInt8} :
    WellFormed [c0, c1, c2, c3] ↔ LegalBlock true c0 c1 c2 c3 := by
  constructor
  · rintro ⟨chars, pad, heq, hchars, rfl | rfl | rfl⟩
    · rw [List.append_nil] at heq
      subst heq
      exact ⟨hchars c0 (by simp), hchars c1 (by simp),
        .inl ⟨hchars c2 (by simp), hchars c3 (by simp)⟩⟩
    · have heq' : [c0, c1, c2] ++ [c3] = chars ++ [padding] := heq
      obtain ⟨rfl, hlast⟩ := List.append_inj' heq' rfl
      obtain rfl : c3 = padding := by simpa using hlast
      exact ⟨hchars c0 (by simp), hchars c1 (by simp),
        .inr ⟨rfl, rfl, .inl (hchars c2 (by simp))⟩⟩
    · have heq' : [c0, c1] ++ [c2, c3] = chars ++ [padding, padding] := heq
      obtain ⟨rfl, hlast⟩ := List.append_inj' heq' rfl
      obtain ⟨rfl, rfl⟩ : c2 = padding ∧ c3 = padding := by simpa using hlast
      exact ⟨hchars c0 (by simp), hchars c1 (by simp), .inr ⟨rfl, rfl, .inr rfl⟩⟩
  · rintro ⟨h0, h1, ⟨h2, h3⟩ | ⟨-, rfl, h2 | rfl⟩⟩
    · exact ⟨[c0, c1, c2, c3], [], rfl, by simp [h0, h1, h2, h3], .inl rfl⟩
    · exact ⟨[c0, c1, c2], [padding], rfl, by simp [h0, h1, h2], .inr (.inl rfl)⟩
    · exact ⟨[c0, c1], [padding, padding], rfl, by simp [h0, h1], .inr (.inr rfl)⟩

/-- Well-formed text of whole blocks, block by block. -/
theorem wellFormed_block {c0 c1 c2 c3 : UInt8} {rest : Bytes} (hrest : rest.length % 4 = 0) :
    WellFormed (c0 :: c1 :: c2 :: c3 :: rest)
      ↔ LegalBlock (rest = []) c0 c1 c2 c3 ∧ WellFormed rest := by
  by_cases hlast : rest = []
  · subst hlast
    simp [wellFormed_last, wellFormed_nil]
  constructor
  · rintro ⟨chars, pad, heq, hchars, hpad⟩
    -- the padding lies behind this block
    have hlen : 4 ≤ chars.length := by
      have hpos : 0 < rest.length := List.length_pos_iff.mpr hlast
      have hlengths := congrArg List.length heq
      have hshort : pad.length ≤ 2 := by rcases hpad with rfl | rfl | rfl <;> simp
      simp only [List.length_cons, List.length_append] at hlengths
      omega
    obtain ⟨d0, d1, d2, d3, chars, rfl⟩ :
        ∃ d0 d1 d2 d3 chars', chars = d0 :: d1 :: d2 :: d3 :: chars' := by
      rcases chars with _ | ⟨d0, _ | ⟨d1, _ | ⟨d2, _ | ⟨d3, chars⟩⟩⟩⟩
      · exact absurd hlen (by simp)
      · exact absurd hlen (by simp)
      · exact absurd hlen (by simp)
      · exact absurd hlen (by simp)
      · exact ⟨d0, d1, d2, d3, chars, rfl⟩
    simp only [List.cons_append, List.cons.injEq] at heq
    obtain ⟨rfl, rfl, rfl, rfl, rfl⟩ := heq
    simp only [List.forall_mem_cons] at hchars
    obtain ⟨h0, h1, h2, h3, hchars⟩ := hchars
    exact ⟨⟨h0, h1, .inl ⟨h2, h3⟩⟩, chars, pad, rfl, hchars, hpad⟩
  · rintro ⟨⟨h0, h1, h23⟩, chars, pad, rfl, hchars, hpad⟩
    cases h23 with
    | inl h23 =>
        exact ⟨c0 :: c1 :: c2 :: c3 :: chars, pad, rfl,
          by simpa [h0, h1, h23.1, h23.2] using hchars, hpad⟩
    | inr h23 => exact absurd (of_decide_eq_true h23.1) hlast

/-- A block of the alphabet is legal, and so is no other one but the last. -/
theorem LegalBlock.of_alphabet {last : Bool} {c0 c1 c2 c3 : UInt8}
    (h : ∀ c ∈ [c0, c1, c2, c3], isAlphabet c = true) : LegalBlock last c0 c1 c2 c3 :=
  ⟨h c0 (by simp), h c1 (by simp), .inl ⟨h c2 (by simp), h c3 (by simp)⟩⟩

theorem LegalBlock.alphabet {c0 c1 c2 c3 : UInt8} (h : LegalBlock false c0 c1 c2 c3) :
    ∀ c ∈ [c0, c1, c2, c3], isAlphabet c = true := by
  obtain ⟨h0, h1, ⟨h2, h3⟩ | ⟨hlast, -⟩⟩ := h
  · simp [h0, h1, h2, h3]
  · exact absurd hlast Bool.false_ne_true

/-! ## The loop -/

/-- Bytes from 128 on, block by block. -/
theorem highBytesBehindIllegal_block {block rest : Bytes} (hlen : block.length = 4) :
    HighBytesBehindIllegal (block ++ rest)
      ↔ (∀ c ∈ block, c < 128)
        ∧ ((∃ c ∈ block, isAlphabet c = false) ∨ HighBytesBehindIllegal rest) := by
  constructor
  · intro h
    constructor
    · intro c hc
      by_contra hhigh
      obtain ⟨i, hi, rfl⟩ := List.getElem_of_mem hc
      obtain ⟨j, d, -, hbefore, -⟩ := h i block[i]
        (by rw [List.getElem?_append_left hi, List.getElem?_eq_getElem hi])
        (UInt8.not_lt.mp hhigh)
      omega
    · by_cases hillegal : ∃ c ∈ block, isAlphabet c = false
      · exact .inl hillegal
      · -- the other character then stands in `rest` too
        apply Or.inr
        intro i c hc hhigh
        obtain ⟨j, d, hd, hbefore, hother⟩ := h (4 + i) c
          (by rw [← hlen, List.getElem?_append_right (Nat.le_add_right _ _),
            Nat.add_sub_cancel_left, hc]) hhigh
        by_cases hj : j < 4
        · rw [List.getElem?_append_left (by omega)] at hd
          exact absurd ⟨d, List.mem_of_getElem? hd, hother⟩ hillegal
        · rw [List.getElem?_append_right (by omega), hlen] at hd
          exact ⟨j - 4, d, hd, by omega, hother⟩
  · rintro ⟨hlow, hrest⟩ i c hc hhigh
    by_cases hi : i < 4
    · rw [List.getElem?_append_left (by omega)] at hc
      exact absurd (hlow c (List.mem_of_getElem? hc)) (UInt8.not_lt.mpr hhigh)
    · rw [List.getElem?_append_right (by omega), hlen] at hc
      rcases hrest with ⟨d, hd, hother⟩ | hrest
      · obtain ⟨j, hj, rfl⟩ := List.getElem_of_mem hd
        exact ⟨j, block[j], by rw [List.getElem?_append_left hj, List.getElem?_eq_getElem hj],
          by omega, hother⟩
      · obtain ⟨j, d, hd, hbefore, hother⟩ := hrest (i - 4) c hc hhigh
        refine ⟨4 + j, d, ?_, by omega, hother⟩
        rw [← hlen, List.getElem?_append_right (Nat.le_add_right _ _),
          Nat.add_sub_cancel_left, hd]

theorem highBytesBehindIllegal_nil : HighBytesBehindIllegal [] := by
  intro i c hc
  exact absurd hc (by simp)

/-- A block with a byte from 128 on takes a lookup outside the table. -/
theorem decodeLoop_high {c0 c1 c2 c3 : UInt8} (rest : Bytes)
    (hhigh : ¬∀ c ∈ [c0, c1, c2, c3], c < 128) :
    decodeLoop (c0 :: c1 :: c2 :: c3 :: rest) = none := by
  have hnone (c : UInt8) (hc : ¬c < 128) : charToValue c = none :=
    (charToValue_spec c).1 (UInt8.not_lt.mp hc)
  have hsome (c : UInt8) (hc : c < 128) : ∃ value, charToValue c = some value := by
    obtain ⟨value, hvalue, -⟩ := (charToValue_spec c).2 hc
    exact ⟨value, hvalue⟩
  simp only [List.forall_mem_cons, List.not_mem_nil, false_imp_iff, implies_true, and_true]
    at hhigh
  rw [decodeLoop]
  by_cases h0 : c0 < 128
  · obtain ⟨value0, hvalue0⟩ := hsome c0 h0
    by_cases h1 : c1 < 128
    · obtain ⟨value1, hvalue1⟩ := hsome c1 h1
      by_cases h2 : c2 < 128
      · obtain ⟨value2, hvalue2⟩ := hsome c2 h2
        have h3 : ¬c3 < 128 := fun h3 => hhigh ⟨h0, h1, h2, h3⟩
        simp [hvalue0, hvalue1, hvalue2, hnone c3 h3]
      · simp [hvalue0, hvalue1, hnone c2 h2]
    · simp [hvalue0, hnone c1 h1]
  · simp [hnone c0 h0]

/-- The loop over whole blocks: it stays inside the table where the bytes
from 128 on are out of reach, and accepts the well-formed texts then. -/
theorem decodeLoop_spec (text : Bytes) (hlen : text.length % 4 = 0) :
    (HighBytesBehindIllegal text →
        ∃ o, decodeLoop text = some o ∧ (o.code = 0 ↔ WellFormed text))
      ∧ (¬HighBytesBehindIllegal text → decodeLoop text = none) := by
  induction text using decodeLoop.induct with
  | case1 c0 c1 c2 c3 rest ih =>
      have hrest : rest.length % 4 = 0 := by
        simp only [List.length_cons] at hlen
        omega
      have hhigh := @highBytesBehindIllegal_block [c0, c1, c2, c3] rest rfl
      simp only [List.cons_append, List.nil_append] at hhigh
      by_cases hlow : ∀ c ∈ [c0, c1, c2, c3], c < 128
      · obtain ⟨value0, hvalue0, h0⟩ := (charToValue_spec c0).2 (hlow c0 (by simp))
        obtain ⟨value1, hvalue1, h1⟩ := (charToValue_spec c1).2 (hlow c1 (by simp))
        obtain ⟨value2, hvalue2, h2⟩ := (charToValue_spec c2).2 (hlow c2 (by simp))
        obtain ⟨value3, hvalue3, h3⟩ := (charToValue_spec c3).2 (hlow c3 (by simp))
        have hlegal := checkBlock_isSome_iff (rest = []) h0 h1 h2 h3
        rw [wellFormed_block hrest, ← hlegal, hhigh]
        cases hcheck : checkBlock (rest = []) c2 c3 value0 value1 value2 value3 with
        | none =>
            rw [decodeLoop_refuse rest hvalue0 hvalue1 hvalue2 hvalue3 hcheck]
            refine ⟨fun _ => ⟨_, rfl, by simp⟩, ?_⟩
            -- what refused the block is a character that is none of the alphabet
            intro hnot
            refine absurd ⟨hlow, .inl ?_⟩ hnot
            by_contra hall
            have hlegal' := hlegal.mpr (LegalBlock.of_alphabet (by simpa using hall))
            rw [hcheck] at hlegal'
            exact absurd hlegal' (by simp)
        | some last =>
            rw [hcheck] at hlegal
            rw [decodeLoop_pass rest hvalue0 hvalue1 hvalue2 hvalue3 hcheck]
            -- such a character in a block that passes is padding, and ends the text
            have hrestHigh : (∀ c ∈ [c0, c1, c2, c3], c < 128)
                ∧ ((∃ c ∈ [c0, c1, c2, c3], isAlphabet c = false)
                  ∨ HighBytesBehindIllegal rest)
                ↔ HighBytesBehindIllegal rest := by
              constructor
              · rintro ⟨-, ⟨d, hd, hother⟩ | h⟩
                · by_cases hend : rest = []
                  · rw [hend]
                    exact highBytesBehindIllegal_nil
                  · have hpass := hlegal.mp rfl
                    rw [decide_eq_false hend] at hpass
                    rw [hpass.alphabet d hd] at hother
                    exact absurd hother (by simp)
                · exact h
              · intro h
                exact ⟨hlow, .inr h⟩
            rw [hrestHigh]
            obtain ⟨hstays, hleaves⟩ := ih hrest
            constructor
            · intro h
              obtain ⟨o, ho, hcode⟩ := hstays h
              exact ⟨_, by rw [ho]; rfl, by simpa using hcode⟩
            · intro h
              rw [hleaves h]
              rfl
      · rw [decodeLoop_high rest hlow]
        exact ⟨fun h => absurd (hhigh.mp h).1 hlow, fun _ => rfl⟩
  | case2 text hshort =>
      obtain rfl : text = [] := by
        rcases text with _ | ⟨c0, _ | ⟨c1, _ | ⟨c2, _ | ⟨c3, rest⟩⟩⟩⟩
        · rfl
        · simp at hlen
        · simp at hlen
        · simp at hlen
        · exact absurd rfl (hshort c0 c1 c2 c3 rest)
      exact ⟨fun _ => ⟨⟨0, []⟩, rfl, by simp [wellFormed_nil]⟩,
        fun h => absurd highBytesBehindIllegal_nil h⟩

/-! ## The call -/

/-- What a call on the 0-terminated text at `src` is to do: to stay inside the
table, and to return 0 for the accepted texts only. -/
def AcceptsExactly (dstLen : Nat) (src : Bytes) : Prop :=
  ∃ o, base64Decode dstLen src = some o ∧ (o.code = 0 ↔ Accepted dstLen (cstr src))

/-- **What `base64_decode` accepts**: it does as described unless it comes to a
byte from 128 on, in a text of whole blocks that has enough space. -/
theorem acceptsExactly_iff (dstLen : Nat) (src : Bytes) (hlen : (cstr src).length < 2 ^ 64) :
    AcceptsExactly dstLen src
      ↔ (cstr src).length % 4 ≠ 0 ∨ 4 * dstLen < 3 * (cstr src).length
        ∨ HighBytesBehindIllegal (cstr src) := by
  unfold AcceptsExactly base64Decode Accepted
  dsimp only
  by_cases hblocks : (cstr src).length % 4 = 0
  · have hspace : decodedLen (cstr src).length > dstLen
      ↔ 4 * dstLen < 3 * (cstr src).length := by
      unfold decodedLen
      omega
    rw [if_neg (not_not.mpr hblocks)]
    by_cases hfits : 4 * dstLen < 3 * (cstr src).length
    · rw [if_pos (hspace.mpr hfits)]
      refine ⟨fun _ => .inr (.inl hfits), fun _ => ⟨_, rfl, ?_⟩⟩
      have hshort : ¬3 * (cstr src).length ≤ 4 * dstLen := Nat.not_le.mpr hfits
      simp [hshort]
    · rw [if_neg (mt hspace.mp hfits)]
      obtain ⟨hstays, hleaves⟩ := decodeLoop_spec (cstr src) hblocks
      constructor
      · rintro ⟨o, ho, -⟩
        apply Or.inr
        apply Or.inr
        by_contra hnot
        rw [hleaves hnot] at ho
        exact absurd ho (by simp)
      · intro h
        have hhigh : HighBytesBehindIllegal (cstr src) := by
          rcases h with h | h | h
          · exact absurd hblocks h
          · exact absurd h hfits
          · exact h
        obtain ⟨o, ho, hcode⟩ := hstays hhigh
        refine ⟨o, ho, ?_⟩
        rw [hcode]
        exact ⟨fun h => ⟨hblocks, Nat.not_lt.mp hfits, h⟩, fun h => h.2.2⟩
  · rw [if_pos hblocks]
    exact ⟨fun _ => .inl hblocks, fun _ => ⟨_, rfl, by simp [hblocks]⟩⟩

/-- A text of one block that is accepted. -/
theorem acceptsExactly_padded : AcceptsExactly 3 [65, 81, 61, 61, 0] :=
  (acceptsExactly_iff 3 [65, 81, 61, 61, 0] (by decide)).mpr (.inr (.inr (by
    intro i c hc hhigh
    have hmem := List.mem_of_getElem? hc
    have hlow : ∀ c ∈ cstr [65, 81, 61, 61, 0], c < 128 := forall_mem_of_all (by decide)
    exact absurd (hlow c hmem) (UInt8.not_lt.mpr hhigh))))

/-- The first byte of the text is looked up outside the table. -/
theorem not_acceptsExactly_high : ¬AcceptsExactly 3 [200, 65, 65, 65, 0] := by
  rintro ⟨o, ho, -⟩
  have hnone : base64Decode 3 [200, 65, 65, 65, 0] = none := by decide
  rw [hnone] at ho
  exact absurd ho (by simp)

end CWebServer.Base64
