import CWebServer.Base64.Model

/-!
# Base64 — Round Trip

What `base64_encode` writes is read back by `base64_decode`, block by block:
the two tables are inverse to each other, and regrouping the bits of three
bytes into four values is undone by `decodeBlock`.
-/

namespace CWebServer.Base64

open CWebServer.Strings

/-! ## The tables -/

/-- The character of a 6-bit value has that value again, is no padding and
does not end the text. -/
theorem charToValue_valueToChar : ∀ v : UInt8, v < 64 →
    charToValue (valueToChar v) = some v ∧ valueToChar v ≠ padding ∧ valueToChar v ≠ 0
      ∧ v ≠ illegalValue :=
  forall_byte (by decide)

theorem charToValue_padding : charToValue padding = some illegalValue := by
  decide

/-! ## Regrouping bits -/

/-- The parts of a byte that the encoder makes are 6-bit values. -/
theorem byte_parts : ∀ c : UInt8,
    (c &&& 0b11111100) >>> 2 < 64 ∧ (c &&& 0b00000011) <<< 4 < 64
      ∧ (c &&& 0b11110000) >>> 4 < 64
      ∧ (c &&& 0b00001111) <<< 2 < 64 ∧ (c &&& 0b11000000) >>> 6 < 64
      ∧ c &&& 0b00111111 < 64 :=
  forall_byte (by decide)

/-- What the decoder makes of the parts of the first byte. -/
theorem first_byte_parts : ∀ c : UInt8,
    ((c &&& 0b11111100) >>> 2 &&& 0b111111) <<< 2
        ||| ((c &&& 0b00000011) <<< 4 &&& 0b110000) >>> 4 = c
      ∧ ((c &&& 0b00000011) <<< 4 &&& 0b001111) <<< 4 = 0 :=
  forall_byte (by decide)

/-- What the decoder makes of the parts of the second byte. -/
theorem second_byte_parts : ∀ c : UInt8,
    ((c &&& 0b11110000) >>> 4 &&& 0b110000) >>> 4 = 0
      ∧ ((c &&& 0b11110000) >>> 4 &&& 0b001111) <<< 4
        ||| ((c &&& 0b00001111) <<< 2 &&& 0b111100) >>> 2 = c
      ∧ ((c &&& 0b00001111) <<< 2 &&& 0b000011) <<< 6 = 0 :=
  forall_byte (by decide)

/-- What the decoder makes of the parts of the third byte. -/
theorem third_byte_parts : ∀ c : UInt8,
    ((c &&& 0b11000000) >>> 6 &&& 0b111100) >>> 2 = 0
      ∧ ((c &&& 0b11000000) >>> 6 &&& 0b000011) <<< 6 ||| (c &&& 0b00111111 &&& 0b111111) = c :=
  forall_byte (by decide)

theorem or_and (x y m : UInt8) : (x ||| y) &&& m = (x &&& m) ||| (y &&& m) :=
  UInt8.eq_of_toBitVec_eq BitVec.and_or_distrib_right

theorem or_lt_64 {x y : UInt8} (hx : x < 64) (hy : y < 64) : x ||| y < 64 := by
  rw [UInt8.lt_iff_toNat_lt] at hx hy ⊢
  rw [UInt8.toNat_or]
  exact Nat.or_lt_two_pow (n := 6) hx hy

/-- The three bytes of a block come back from its four values. -/
theorem decodeBlock_values (a b c : UInt8) :
    decodeBlock ((a &&& 0b11111100) >>> 2)
      (((a &&& 0b00000011) <<< 4) ||| ((b &&& 0b11110000) >>> 4))
      (((b &&& 0b00001111) <<< 2) ||| ((c &&& 0b11000000) >>> 6)) (c &&& 0b00111111)
      = [a, b, c] := by
  obtain ⟨ha, ha'⟩ := first_byte_parts a
  obtain ⟨hb, hb', hb''⟩ := second_byte_parts b
  obtain ⟨hc, hc'⟩ := third_byte_parts c
  simp only [decodeBlock, or_and, UInt8.shiftLeft_or, UInt8.shiftRight_or]
  rw [hb, ha', hc, hb'', UInt8.or_zero, ha, UInt8.or_zero, UInt8.zero_or, hb', UInt8.zero_or, hc']

/-! ## Blocks -/

/-- A full block is read back, whatever follows. -/
theorem decodeLoop_full (a b c : UInt8) (text : Bytes) :
    decodeLoop (encodeBlock a b c false false ++ text)
      = (decodeLoop text).map fun rest => ⟨rest.code, [a, b, c] ++ rest.written⟩ := by
  obtain ⟨ha, ha', -⟩ := byte_parts a
  obtain ⟨-, -, hb, hb', -⟩ := byte_parts b
  obtain ⟨-, -, -, -, hc, hc'⟩ := byte_parts c
  obtain ⟨h0, -, -, hl0⟩ := charToValue_valueToChar _ ha
  obtain ⟨h1, -, -, hl1⟩ := charToValue_valueToChar _ (or_lt_64 ha' hb)
  obtain ⟨h2, hp2, -, hl2⟩ := charToValue_valueToChar _ (or_lt_64 hb' hc)
  obtain ⟨h3, hp3, -, hl3⟩ := charToValue_valueToChar _ hc'
  have hblock := decodeLoop_pass text h0 h1 h2 h3 (checkBlock_legal _ hl0 hl1 hl2 hl3 hp2 hp3)
  rw [decodeBlock_values] at hblock
  exact hblock

/-- The last block for two bytes. -/
theorem decodeLoop_two (a b : UInt8) :
    decodeLoop (encodeBlock a b 0 false true) = some ⟨0, [a, b, 0]⟩ := by
  obtain ⟨ha, ha', -⟩ := byte_parts a
  obtain ⟨-, -, hb, hb', -⟩ := byte_parts b
  obtain ⟨h0, -, -, hl0⟩ := charToValue_valueToChar _ ha
  obtain ⟨h1, -, -, hl1⟩ := charToValue_valueToChar _ (or_lt_64 ha' hb)
  obtain ⟨h2, hp2, -, hl2⟩ := charToValue_valueToChar _ (or_lt_64 hb' (byte_parts 0).2.2.2.2.1)
  have hblock := decodeLoop_pass [] h0 h1 h2 charToValue_padding
    (checkBlock_padding3 hl0 hl1 hl2 hp2)
  have hbytes : decodeBlock _ _ _ 0 = [a, b, 0] := decodeBlock_values a b 0
  rw [hbytes] at hblock
  exact hblock

/-- The last block for one byte. -/
theorem decodeLoop_one (a : UInt8) :
    decodeLoop (encodeBlock a 0 0 true true) = some ⟨0, [a, 0, 0]⟩ := by
  obtain ⟨ha, ha', -⟩ := byte_parts a
  obtain ⟨h0, -, -, hl0⟩ := charToValue_valueToChar _ ha
  obtain ⟨h1, -, -, hl1⟩ := charToValue_valueToChar _ (or_lt_64 ha' (byte_parts 0).2.2.1)
  have hblock := decodeLoop_pass [] h0 h1 charToValue_padding charToValue_padding
    (checkBlock_padding2 hl0 hl1)
  have hbytes : decodeBlock _ _ 0 0 = [a, 0, 0] := decodeBlock_values a 0 0
  rw [hbytes] at hblock
  exact hblock

/-- **Encoded bytes are read back**, with zero bytes for the padding. -/
theorem decodeLoop_encodeLoop (src : Bytes) :
    decodeLoop (encodeLoop src)
      = some ⟨0, src ++ List.replicate (3 * ((src.length + 2) / 3) - src.length) 0⟩ := by
  fun_induction encodeLoop src with
  | case1 => rfl
  | case2 a => simp [decodeLoop_one]
  | case3 a b => simp [decodeLoop_two]
  | case4 a b c src ih =>
      have hlen : 3 * (((a :: b :: c :: src).length + 2) / 3) - (a :: b :: c :: src).length
          = 3 * ((src.length + 2) / 3) - src.length := by
        simp only [List.length_cons]
        omega
      rw [decodeLoop_full, ih, hlen]
      rfl

@[simp] theorem length_encodeBlock (a b c : UInt8) (padding2 padding3 : Bool) :
    (encodeBlock a b c padding2 padding3).length = 4 := rfl

theorem length_encodeLoop (src : Bytes) :
    (encodeLoop src).length = 4 * ((src.length + 2) / 3) := by
  fun_induction encodeLoop src with
  | case1 => rfl
  | case2 a => simp
  | case3 a b => simp
  | case4 a b c src ih =>
      rw [List.length_append, ih, length_encodeBlock]
      simp only [List.length_cons]
      omega

theorem valueToChar_ne_zero (v : UInt8) (hv : v < 64) : 0 ≠ valueToChar v :=
  (charToValue_valueToChar v hv).2.2.1.symm

theorem zero_not_mem_encodeBlock (a b c : UInt8) (padding2 padding3 : Bool) :
    0 ∉ encodeBlock a b c padding2 padding3 := by
  obtain ⟨ha, ha', -⟩ := byte_parts a
  obtain ⟨-, -, hb, hb', -⟩ := byte_parts b
  obtain ⟨-, -, -, -, hc, hc'⟩ := byte_parts c
  have h0 := valueToChar_ne_zero _ ha
  have h1 := valueToChar_ne_zero _ (or_lt_64 ha' hb)
  have h2 := valueToChar_ne_zero _ (or_lt_64 hb' hc)
  have h3 := valueToChar_ne_zero _ hc'
  have hpad : (0 : UInt8) ≠ padding := by decide
  cases padding2 <;> cases padding3 <;>
    simp [encodeBlock, h0, h1, h2, h3, hpad]

/-- No character of the encoded text ends it. -/
theorem zero_not_mem_encodeLoop (src : Bytes) : 0 ∉ encodeLoop src := by
  fun_induction encodeLoop src with
  | case1 => exact List.not_mem_nil
  | case2 a => exact zero_not_mem_encodeBlock a 0 0 true true
  | case3 a b => exact zero_not_mem_encodeBlock a b 0 false true
  | case4 a b c src ih =>
      intro hmem
      cases List.mem_append.mp hmem with
      | inl hblock => exact zero_not_mem_encodeBlock _ _ _ _ _ hblock
      | inr hrest => exact ih hrest

/-! ## The calls -/

theorem cstr_text {text : Bytes} (h : 0 ∉ text) (behind : Bytes) :
    cstr (text ++ 0 :: behind) = text := by
  unfold cstr
  rw [List.takeWhile_append_of_pos]
  · simp
  · intro c hc
    have hne : c ≠ 0 := fun hzero => h (hzero ▸ hc)
    simpa using hne

/-- What a round trip of `src` through a destination of `dstLen` bytes is to
be: `blocks` is the number of blocks, the last one perhaps begun only, and
`behind` whatever the memory holds behind the encoded text. -/
def RoundTrip (src : Bytes) (dstLen : Nat) : Prop :=
  let blocks := (src.length + 2) / 3
  let encoded := base64Encode dstLen src
  if dstLen < 4 * blocks + 1 then encoded.code ≠ 0 ∧ encoded.written = []
  else encoded.code = 0 ∧ ∃ text, encoded.written = text ++ [0] ∧ text.length = 4 * blocks
    ∧ 0 ∉ text ∧ ∀ behind decodedLen, 3 * blocks ≤ decodedLen →
        base64Decode decodedLen (encoded.written ++ behind)
          = some ⟨0, src ++ List.replicate (3 * blocks - src.length) 0⟩

theorem base64Decode_encodeLoop {src : Bytes} (hlen : 4 * ((src.length + 2) / 3) < 2 ^ 64)
    (behind : Bytes) {dstLen : Nat} (hdst : 3 * ((src.length + 2) / 3) ≤ dstLen) :
    base64Decode dstLen (encodeLoop src ++ [0] ++ behind)
      = some ⟨0, src ++ List.replicate (3 * ((src.length + 2) / 3) - src.length) 0⟩ := by
  have htext : cstr (encodeLoop src ++ [0] ++ behind) = encodeLoop src := by
    rw [List.append_assoc]
    exact cstr_text (zero_not_mem_encodeLoop src) behind
  have hmod : (encodeLoop src).length % 4 = 0 := by
    rw [length_encodeLoop]
    omega
  have hfits : ¬decodedLen (encodeLoop src).length > dstLen := by
    rw [length_encodeLoop, decodedLen]
    omega
  rw [base64Decode, htext]
  simp only [hmod, ne_eq, not_true_eq_false, if_false, if_neg hfits]
  exact decodeLoop_encodeLoop src

/-- The check of `dst_len` is made for what 64 bits leave of the length of the
text. -/
theorem base64Encode_eq {src : Bytes} (hsrc : src.length + 2 < 2 ^ 64) (dstLen : Nat) :
    base64Encode dstLen src
      = if dstLen ≤ 4 * ((src.length + 2) / 3) % 2 ^ 64 then ⟨1, []⟩
        else ⟨0, encodeLoop src ++ [0]⟩ := by
  have hcheck : (encodedLen src.length + 1) % 2 ^ 64 > dstLen
      ↔ dstLen ≤ 4 * ((src.length + 2) / 3) % 2 ^ 64 := by
    unfold encodedLen
    omega
  unfold base64Encode
  simp only [hcheck]

/-- **Base64 round trip**: the length of the text does not overflow, as an
object has less than 2^63 bytes. -/
theorem roundTrip (src : Bytes) (dstLen : Nat) (hsize : src.length < 2 ^ 63) :
    RoundTrip src dstLen := by
  have hsrc : src.length + 2 < 2 ^ 64 := by omega
  have hover : 4 * ((src.length + 2) / 3) < 2 ^ 64 := by omega
  unfold RoundTrip
  rw [base64Encode_eq hsrc, Nat.mod_eq_of_lt hover]
  by_cases hrefuse : dstLen ≤ 4 * ((src.length + 2) / 3)
  · have hshort : dstLen < 4 * ((src.length + 2) / 3) + 1 := Nat.lt_succ_of_le hrefuse
    simp only [if_pos hrefuse, if_pos hshort]
    exact ⟨Nat.one_ne_zero, trivial⟩
  · have hlong : ¬dstLen < 4 * ((src.length + 2) / 3) + 1 := by omega
    simp only [if_neg hrefuse, if_neg hlong]
    refine ⟨trivial, encodeLoop src, rfl, length_encodeLoop src,
      zero_not_mem_encodeLoop src, ?_⟩
    intro behind decodedLen hdecoded
    exact base64Decode_encodeLoop hover behind hdecoded

/-- Two bytes go through a destination of five. -/
theorem roundTrip_two_bytes : RoundTrip [1, 2] 5 :=
  roundTrip [1, 2] 5 (by decide)

end CWebServer.Base64
