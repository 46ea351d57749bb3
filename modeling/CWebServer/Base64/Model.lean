import CWebServer.Strings.Model

/-!
# Base64 — Model

`base64_encode` and `base64_decode`. A call is described by its return value
and by the bytes it writes from the start of `dst` on; `size_t` is cut down
to 64 bits where the code computes with it.
-/

namespace CWebServer.Base64

open CWebServer.Strings

/-- `BASE64_PADDING`. -/
def padding : UInt8 := 61

/-- `BASE64_ILLEGAL_VALUE`. -/
def illegalValue : UInt8 := 0xff

/-- `BASE64_VALUE_TO_CHAR`. -/
def base64ValueToChar : Bytes :=
  ascii "ABCDEFGHIJKLMNOPQRSTUVWXYZabcdefghijklmnopqrstuvwxyz0123456789+/"

/-- `BASE64_CHAR_TO_VALUE`, which has 256 entries. -/
def base64CharToValue : Bytes :=
  List.replicate 43 0xff
    ++ [62, 0xff, 0xff, 0xff, 63, 52, 53, 54, 55, 56, 57, 58, 59, 60, 61]
    ++ List.replicate 7 0xff
    ++ [0, 1, 2, 3, 4, 5, 6, 7, 8, 9, 10, 11, 12, 13, 14, 15, 16, 17, 18, 19, 20, 21,
      22, 23, 24, 25]
    ++ List.replicate 6 0xff
    ++ [26, 27, 28, 29, 30, 31, 32, 33, 34, 35, 36, 37, 38, 39, 40, 41, 42, 43, 44, 45, 46, 47, 48,
      49, 50, 51]
    ++ List.replicate 133 0xff

/-- What a call leaves behind. -/
structure Outcome where
  code : Nat
  /-- The bytes at `dst[0]`, `dst[1]` and so on. -/
  written : Bytes
deriving DecidableEq, Repr

/-! ## Encoding -/

/-- The character for a 6-bit value. -/
def valueToChar (value : UInt8) : UInt8 :=
  base64ValueToChar.getD value.toNat 0

/-- The body of the loop of `base64_encode`: `dst[0]` to `dst[3]`. -/
def encodeBlock (src0 src1 src2 : UInt8) (padding2 padding3 : Bool) : Bytes :=
  [valueToChar ((src0 &&& 0b11111100) >>> 2),
    valueToChar (((src0 &&& 0b00000011) <<< 4) ||| ((src1 &&& 0b11110000) >>> 4)),
    if padding2 then padding
    else valueToChar (((src1 &&& 0b00001111) <<< 2) ||| ((src2 &&& 0b11000000) >>> 6)),
    if padding3 then padding else valueToChar (src2 &&& 0b00111111)]

/-- The loop of `base64_encode`. -/
def encodeLoop : Bytes → Bytes
  | [] => []
  | [src0] => encodeBlock src0 0 0 true true
  | [src0, src1] => encodeBlock src0 src1 0 false true
  | src0 :: src1 :: src2 :: src => encodeBlock src0 src1 src2 false false ++ encodeLoop src

/-- `expected_dst_len` of `base64_encode`. -/
def encodedLen (srcLen : Nat) : Nat :=
  (srcLen + 2) % 2 ^ 64 / 3 * 4 % 2 ^ 64

def base64Encode (dstLen : Nat) (src : Bytes) : Outcome :=
  if (encodedLen src.length + 1) % 2 ^ 64 > dstLen then ⟨1, []⟩
  else ⟨0, encodeLoop src ++ [0]⟩

/-! ## Decoding -/

/-- `BASE64_CHAR_TO_VALUE[c]` for a plain `char`, which is signed; `none` is
an index outside the table. -/
def charToValue (c : UInt8) : Option UInt8 :=
  let index := c.toBitVec.toInt
  if 0 ≤ index ∧ index ≤ 255 then base64CharToValue[index.toNat]? else none

/-- The third and fourth value of a block after the checks; `none` is
`return 1`. -/
def checkBlock (last : Bool) (src2 src3 value0 value1 value2 value3 : UInt8) :
    Option (UInt8 × UInt8) :=
  if value0 = illegalValue ∨ value1 = illegalValue then none
  else if last = false then
    if value2 = illegalValue ∨ value3 = illegalValue then none else some (value2, value3)
  else if src2 = padding then
    if src3 = padding then some (0, 0) else none
  else if value2 = illegalValue then none
  else if src3 = padding then some (value2, 0)
  else if value3 = illegalValue then none
  else some (value2, value3)

/-- `dst[0]` to `dst[2]`. -/
def decodeBlock (value0 value1 value2 value3 : UInt8) : Bytes :=
  [((value0 &&& 0b111111) <<< 2) ||| ((value1 &&& 0b110000) >>> 4),
    ((value1 &&& 0b001111) <<< 4) ||| ((value2 &&& 0b111100) >>> 2),
    ((value2 &&& 0b000011) <<< 6) ||| (value3 &&& 0b111111)]

/-- The loop of `base64_decode`, for a length that is a multiple of 4. The
four values are looked up before anything is checked; `none` is a lookup
outside the table. -/
def decodeLoop : Bytes → Option Outcome
  | src0 :: src1 :: src2 :: src3 :: src => do
      let value0 ← charToValue src0
      let value1 ← charToValue src1
      let value2 ← charToValue src2
      let value3 ← charToValue src3
      match checkBlock (src = []) src2 src3 value0 value1 value2 value3 with
      | none => some ⟨1, []⟩
      | some (value2, value3) =>
          let rest ← decodeLoop src
          some ⟨rest.code, decodeBlock value0 value1 value2 value3 ++ rest.written⟩
  | _ => some ⟨0, []⟩

/-- `expected_dst_len` of `base64_decode`. -/
def decodedLen (srcLen : Nat) : Nat :=
  (srcLen + 3) % 2 ^ 64 / 4 * 3

/-- `base64_decode` of the 0-terminated text at `src`. -/
def base64Decode (dstLen : Nat) (src : Bytes) : Option Outcome :=
  let text := cstr src
  if text.length % 4 ≠ 0 then some ⟨1, []⟩
  else if decodedLen text.length > dstLen then some ⟨1, []⟩
  else decodeLoop text

/-! ## One block -/

section
variable {src0 src1 src2 src3 value0 value1 value2 value3 : UInt8} (src : Bytes)

theorem checkBlock_legal (last : Bool) (h0 : value0 ≠ illegalValue) (h1 : value1 ≠ illegalValue)
    (h2 : value2 ≠ illegalValue) (h3 : value3 ≠ illegalValue) (hp2 : src2 ≠ padding)
    (hp3 : src3 ≠ padding) :
    checkBlock last src2 src3 value0 value1 value2 value3 = some (value2, value3) := by
  simp [checkBlock, h0, h1, h2, h3, hp2, hp3]

theorem checkBlock_padding3 (h0 : value0 ≠ illegalValue) (h1 : value1 ≠ illegalValue)
    (h2 : value2 ≠ illegalValue) (hp2 : src2 ≠ padding) :
    checkBlock true src2 padding value0 value1 value2 value3 = some (value2, 0) := by
  simp [checkBlock, h0, h1, h2, hp2]

theorem checkBlock_padding2 (h0 : value0 ≠ illegalValue) (h1 : value1 ≠ illegalValue) :
    checkBlock true padding padding value0 value1 value2 value3 = some (0, 0) := by
  simp [checkBlock, h0, h1]

/-- A block that passes the checks. -/
theorem decodeLoop_pass {last2 last3 : UInt8} (h0 : charToValue src0 = some value0)
    (h1 : charToValue src1 = some value1) (h2 : charToValue src2 = some value2)
    (h3 : charToValue src3 = some value3)
    (hcheck : checkBlock (src = []) src2 src3 value0 value1 value2 value3 = some (last2, last3)) :
    decodeLoop (src0 :: src1 :: src2 :: src3 :: src)
      = (decodeLoop src).map fun rest =>
          ⟨rest.code, decodeBlock value0 value1 last2 last3 ++ rest.written⟩ := by
  rw [decodeLoop, h0, h1, h2, h3]
  simp only [Option.bind_eq_bind, Option.bind_some, hcheck]
  cases decodeLoop src <;> rfl

/-- A block that is refused. -/
theorem decodeLoop_refuse (h0 : charToValue src0 = some value0)
    (h1 : charToValue src1 = some value1) (h2 : charToValue src2 = some value2)
    (h3 : charToValue src3 = some value3)
    (hcheck : checkBlock (src = []) src2 src3 value0 value1 value2 value3 = none) :
    decodeLoop (src0 :: src1 :: src2 :: src3 :: src) = some ⟨1, []⟩ := by
  rw [decodeLoop, h0, h1, h2, h3]
  simp only [Option.bind_eq_bind, Option.bind_some, hcheck]

end

end CWebServer.Base64
