import CWebServer.Strings.Model

/-!
# Uri — Coding

Percent coding: `uri_append_encoded_cstr_len` and
`uri_append_decoded_cstr_len`, for a source that is no part of the
destination. The C code compares signed characters; every range it tests
lies below 128, so the comparisons mean the same for bytes.
-/

namespace CWebServer.Uri

open CWebServer.Strings

/-! ## The code -/

/-- The characters that `uri_append_encoded_cstr_len` leaves alone. -/
def isPlain (c : UInt8) : Bool :=
  97 ≤ c && c ≤ 122 || 65 ≤ c && c ≤ 90 || 48 ≤ c && c ≤ 57
    || c ∈ ascii "-._~:/?#[]@!$&'()*+,;="

/-- `encoded[1] += '0'` or `encoded[1] += 'A' - 10`. -/
def hexDigit (n : UInt8) : UInt8 :=
  if n < 10 then n + 48 else n + (65 - 10)

def encodeByte (c : UInt8) : Bytes :=
  if isPlain c then [c] else [37, hexDigit (c / 16), hexDigit (c % 16)]

/-- `uri_append_encoded_cstr_len`. -/
def uriAppendEncodedCstrLen (dst src : Bytes) : Bytes :=
  src.foldl (fun dst c => dst ++ encodeByte c) dst

/-- The value of a hexadecimal digit; `none` is `goto not_escaped`. -/
def hexValue (c : UInt8) : Option UInt8 :=
  if 48 ≤ c && c ≤ 57 then some (c - 48)
  else if 97 ≤ c && c ≤ 102 then some (c - 97 + 10)
  else if 65 ≤ c && c ≤ 70 then some (c - 65 + 10)
  else none

/-- `uri_append_decoded_cstr_len`. A `%` with less than two bytes behind it
is a byte like any other. -/
def uriAppendDecodedCstrLen (dst : Bytes) : Bytes → Bytes
  | [] => dst
  | [a] => dst ++ [a]
  | [a, b] => dst ++ [a, b]
  | a :: h :: l :: s =>
      if a = 37 then
        match hexValue h, hexValue l with
        | some high, some low => uriAppendDecodedCstrLen (dst ++ [high <<< 4 ||| low]) s
        | _, _ => uriAppendDecodedCstrLen (dst ++ [a]) (h :: l :: s)
      else uriAppendDecodedCstrLen (dst ++ [a]) (h :: l :: s)

/-- What is appended for these bytes. -/
def encode (s : Bytes) : Bytes := uriAppendEncodedCstrLen [] s

def decode (s : Bytes) : Bytes := uriAppendDecodedCstrLen [] s

/-! ## Appending -/

theorem uriAppendEncodedCstrLen_eq (dst src : Bytes) :
    uriAppendEncodedCstrLen dst src = dst ++ src.flatMap encodeByte := by
  induction src generalizing dst with
  | nil => simp [uriAppendEncodedCstrLen]
  | cons c src ih =>
      rw [uriAppendEncodedCstrLen, List.foldl_cons, ← uriAppendEncodedCstrLen, ih,
        List.flatMap_cons, List.append_assoc]

theorem encode_eq (s : Bytes) : encode s = s.flatMap encodeByte :=
  uriAppendEncodedCstrLen_eq [] s

@[simp] theorem encode_nil : encode [] = [] := rfl

@[simp] theorem encode_cons (c : UInt8) (s : Bytes) :
    encode (c :: s) = encodeByte c ++ encode s := by
  rw [encode_eq, encode_eq, List.flatMap_cons]

@[simp] theorem encode_append (s t : Bytes) : encode (s ++ t) = encode s ++ encode t := by
  rw [encode_eq, encode_eq, encode_eq, List.flatMap_append]

theorem uriAppendDecodedCstrLen_eq (dst src : Bytes) :
    uriAppendDecodedCstrLen dst src = dst ++ decode src := by
  have hgen : ∀ (dst pre src : Bytes), uriAppendDecodedCstrLen (dst ++ pre) src
      = dst ++ uriAppendDecodedCstrLen pre src := by
    intro dst pre src
    fun_induction uriAppendDecodedCstrLen pre src with
    | case1 pre => rfl
    | case2 pre a => simp [uriAppendDecodedCstrLen]
    | case3 pre a b => simp [uriAppendDecodedCstrLen]
    | case4 pre h l s high low hh hl ih =>
        rw [uriAppendDecodedCstrLen, if_pos rfl, hh, hl]
        simpa using ih
    | case5 pre h l s hnot ih =>
        rw [uriAppendDecodedCstrLen, if_pos rfl]
        split
        · rename_i high low hh hl
          exact absurd hl (hnot high low hh)
        · simpa using ih
    | case6 pre a h l s hne ih =>
        rw [uriAppendDecodedCstrLen, if_neg hne]
        simpa using ih
  have h := hgen dst [] src
  rwa [List.append_nil] at h

@[simp] theorem decode_nil : decode [] = [] := rfl

/-- A byte that is no `%` stands for itself. -/
theorem decode_cons {a : UInt8} (ha : a ≠ 37) (s : Bytes) : decode (a :: s) = a :: decode s := by
  rcases s with _ | ⟨h, _ | ⟨l, s⟩⟩
  · rfl
  · rfl
  · rw [decode, uriAppendDecodedCstrLen, if_neg ha, uriAppendDecodedCstrLen_eq]
    rfl

/-- An escape stands for the byte that its digits give. -/
theorem decode_escape {h l high low : UInt8} (hh : hexValue h = some high)
    (hl : hexValue l = some low) (s : Bytes) :
    decode (37 :: h :: l :: s) = (high <<< 4 ||| low) :: decode s := by
  rw [decode, uriAppendDecodedCstrLen, if_pos rfl, hh, hl]
  exact uriAppendDecodedCstrLen_eq _ _

/-! ## The round trip -/

def isUpperHexDigit (c : UInt8) : Bool :=
  c ∈ ascii "0123456789ABCDEF"

/-- The digits that are written are upper-case ones, and are read back. -/
theorem hexDigit_spec {n : UInt8} (hn : n < 16) :
    isUpperHexDigit (hexDigit n) = true ∧ hexValue (hexDigit n) = some n := by
  have h : ∀ k : Fin 16, isUpperHexDigit (hexDigit (UInt8.ofNat k)) = true
      ∧ hexValue (hexDigit (UInt8.ofNat k)) = some (UInt8.ofNat k) := by decide
  have hlt : n.toNat < 16 := UInt8.lt_iff_toNat_lt.mp hn
  have hdigit := h ⟨n.toNat, hlt⟩
  rwa [UInt8.ofNat_toNat] at hdigit

/-- The two digits of a byte. -/
theorem nibbles (c : UInt8) : c / 16 < 16 ∧ c % 16 < 16 ∧ (c / 16) <<< 4 ||| (c % 16) = c :=
  forall_byte (p := fun c => c / 16 < 16 ∧ c % 16 < 16 ∧ (c / 16) <<< 4 ||| (c % 16) = c)
    (by decide) c

/-- A byte that was encoded is read back, whatever follows. -/
theorem decode_encodeByte (c : UInt8) (s : Bytes) :
    decode (encodeByte c ++ s) = c :: decode s := by
  obtain ⟨hhigh, hlow, heq⟩ := nibbles c
  unfold encodeByte
  split
  · rename_i hplain
    apply decode_cons
    rintro rfl
    exact absurd hplain (by decide)
  · rw [List.cons_append, List.cons_append, List.cons_append,
      decode_escape (hexDigit_spec hhigh).2 (hexDigit_spec hlow).2, heq]
    rfl

/-- **Encoded text is read back**, whatever follows. -/
theorem decode_encode_append (x s : Bytes) : decode (encode x ++ s) = x ++ decode s := by
  induction x with
  | nil => rfl
  | cons c x ih => rw [encode_cons, List.append_assoc, decode_encodeByte, ih, List.cons_append]

@[simp] theorem decode_encode (x : Bytes) : decode (encode x) = x := by
  have hdecode := decode_encode_append x []
  rwa [List.append_nil, decode_nil, List.append_nil] at hdecode

/-! ## What is appended -/

/-- `unreserved` of RFC 3986, section 2.3. -/
def isUnreserved (c : UInt8) : Bool :=
  97 ≤ c && c ≤ 122 || 65 ≤ c && c ≤ 90 || isdigit c || c ∈ ascii "-._~"

/-- `reserved` of RFC 3986, section 2.2. -/
def isReserved (c : UInt8) : Bool :=
  c ∈ ascii ":/?#[]@" || c ∈ ascii "!$&'()*+,;="

/-- Unreserved and reserved characters, and escapes with upper-case digits. -/
inductive PercentCoded : Bytes → Prop
  | nil : PercentCoded []
  | plain {c : UInt8} {s : Bytes} :
      (isUnreserved c || isReserved c) = true → PercentCoded s → PercentCoded (c :: s)
  | escape {h l : UInt8} {s : Bytes} :
      isUpperHexDigit h = true → isUpperHexDigit l = true → PercentCoded s →
        PercentCoded (37 :: h :: l :: s)

/-- The code's set of characters is the two of the RFC. -/
theorem isPlain_eq (c : UInt8) : isPlain c = (isUnreserved c || isReserved c) := by
  have hmarks : ascii "-._~:/?#[]@!$&'()*+,;="
      = ascii "-._~" ++ (ascii ":/?#[]@" ++ ascii "!$&'()*+,;=") := by decide
  simp only [isPlain, isUnreserved, isReserved, isdigit, hmarks, List.mem_append, Bool.decide_or,
    Bool.or_assoc]

theorem percentCoded_encode (x : Bytes) : PercentCoded (encode x) := by
  induction x with
  | nil => exact .nil
  | cons c x ih =>
      rw [encode_cons, encodeByte]
      split
      · rename_i hplain
        exact .plain (isPlain_eq c ▸ hplain) ih
      · obtain ⟨hhigh, hlow, -⟩ := nibbles c
        exact .escape (hexDigit_spec hhigh).1 (hexDigit_spec hlow).1 ih

/-- **Percent coding**: what is appended for `x` is percent-coded text, and
decoding it appends `x`. -/
theorem encoded_text (dst dst' x : Bytes) :
    ∃ text, uriAppendEncodedCstrLen dst x = dst ++ text ∧ PercentCoded text
      ∧ uriAppendDecodedCstrLen dst' text = dst' ++ x := by
  refine ⟨encode x, ?_, percentCoded_encode x, ?_⟩
  · rw [uriAppendEncodedCstrLen_eq, encode_eq]
  · rw [uriAppendDecodedCstrLen_eq, decode_encode]

end CWebServer.Uri
