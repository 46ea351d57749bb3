import Mathlib.Algebra.Group.Int.Defs
import Mathlib.Algebra.Group.Nat.Defs
import Mathlib.Data.List.Basic

/-!
# Strings — Model

The parts of `string.c` that the HTTP code uses, and the two library calls
it applies to text from the network. A `string` is its contents: the bytes
before the terminating 0 that `string_get_length` counts, so a 0 may stand
among them. Capacities and the terminator itself are left out.
-/

namespace CWebServer.Strings

abbrev Bytes := List UInt8

/-- What holds of the 256 bit patterns holds of every byte. -/
theorem forall_byte {p : UInt8 → Prop} (h : ∀ c : BitVec 8, p (UInt8.ofBitVec c)) (c : UInt8) :
    p c :=
  h c.toBitVec

/-- What is checked byte by byte holds of every byte of a text. -/
theorem forall_mem_of_all {p : UInt8 → Prop} [DecidablePred p] {s : List UInt8}
    (h : s.all (fun c => decide (p c)) = true) : ∀ c ∈ s, p c := fun c hc =>
  of_decide_eq_true (List.all_eq_true.mp h c hc)

/-- The bytes of an ASCII literal. -/
def ascii (s : String) : Bytes :=
  s.toList.map fun c => UInt8.ofNat c.toNat

/-- `(size_t)-1`. -/
def sizeMax : Nat := 2 ^ 64 - 1

/-- What a function that takes a 0-terminated string sees of these bytes. -/
def cstr (s : Bytes) : Bytes :=
  s.takeWhile (· ≠ 0)

theorem cstr_cons {c : UInt8} (hc : c ≠ 0) (s : Bytes) : cstr (c :: s) = c :: cstr s := by
  simp [cstr, hc]

theorem cstr_zero_cons (s : Bytes) : cstr (0 :: s) = [] := by
  simp [cstr]

theorem cstr_cstr (s : Bytes) : cstr (cstr s) = cstr s := by
  induction s with
  | nil => rfl
  | cons c s ih =>
      by_cases hc : c = 0
      · rw [hc, cstr_zero_cons]
        rfl
      · rw [cstr_cons hc, cstr_cons hc, ih]

/-- A text without a 0 is its own contents. -/
theorem cstr_eq_self {s : Bytes} (h : 0 ∉ s) : cstr s = s := by
  induction s with
  | nil => rfl
  | cons c s ih =>
      rw [List.mem_cons, not_or] at h
      rw [cstr_cons (Ne.symm h.1), ih h.2]

/-! ## Substrings -/

/-- `string_append_substr`, for a source that is not the destination. -/
def stringAppendSubstr (dst src : Bytes) (start stop : Nat) : Bytes :=
  if stop ≤ start ∨ src.length ≤ start then dst
  else dst ++ (src.drop start).take (min stop src.length - start)

/-- `string_set_substr`, for a source that is not the destination. -/
def stringSetSubstr (src : Bytes) (start stop : Nat) : Bytes :=
  stringAppendSubstr [] src start stop

/-- `string_set_substr` of a string to a part of itself. The C code copies
with `memcpy`; it is taken to move. -/
def stringSetSubstrSelf (s : Bytes) (start stop : Nat) : Bytes :=
  if stop ≤ start ∨ s.length ≤ start then s
  else (s.drop start).take (min stop s.length - start)

/-! ## Searching -/

/-- The loop of `string_index_not_of_any_cstr`; it ends at the first 0. -/
def indexNotOfAnyLoop (find : Bytes) : Bytes → Nat → Option Nat
  | [], _ => none
  | c :: s, i =>
      if c = 0 then none
      else if c ∈ find then indexNotOfAnyLoop find s (i + 1)
      else some i

def stringIndexNotOfAnyCstr (s find : Bytes) (start : Nat) : Option Nat :=
  if s.length = 0 then none
  else if s.length ≤ start then none
  else indexNotOfAnyLoop find (s.drop start) start

/-- `string_trim_start_any_of_cstr` with `dst == src`. -/
def stringTrimStartAnyOfCstr (s find : Bytes) : Bytes :=
  match stringIndexNotOfAnyCstr s find 0 with
  | none => []
  | some i => stringSetSubstrSelf s i s.length

/-- The loop of `string_reverse_index_not_of_any_cstr` over the bytes up to
`i`, the last one first. A 0 is a byte like any other here. -/
def reverseIndexNotOfAnyLoop (find : Bytes) : Bytes → Nat → Option Nat
  | [], _ => none
  | c :: s, i => if c ∈ find then reverseIndexNotOfAnyLoop find s (i - 1) else some i

def stringReverseIndexNotOfAnyCstr (s find : Bytes) (start : Nat) : Option Nat :=
  if s.length = 0 then none
  else
    let start := if s.length ≤ start then s.length - 1 else start
    reverseIndexNotOfAnyLoop find (s.take (start + 1)).reverse start

/-- `string_trim_end_any_of_cstr` with `dst == src`. -/
def stringTrimEndAnyOfCstr (s find : Bytes) : Bytes :=
  match stringReverseIndexNotOfAnyCstr s find s.length with
  | none => []
  | some i => stringSetSubstrSelf s 0 (i + 1)

/-- `string_trim_any_of_cstr` with `dst == src`. -/
def stringTrimAnyOfCstr (s find : Bytes) : Bytes :=
  stringTrimEndAnyOfCstr (stringTrimStartAnyOfCstr s find) find

/-! ## Splitting -/

/-- The `for` loop of `string_split`: the start of the piece after the last
delimiter found, the number of pieces before it, and the pairs written. Every
round advances `i`, so `s.length` rounds are enough. -/
def stringSplitLoop (s delim : Bytes) (capacity maxResults : Nat) :
    (fuel i start count : Nat) → List (Nat × Nat) → Nat × Nat × List (Nat × Nat)
  | 0, _, start, count, results => (start, count, results)
  | fuel + 1, i, start, count, results =>
      if i < s.length - delim.length then
        if (s.drop i).take delim.length = delim then
          let results := if count < capacity then results ++ [(start, i)] else results
          if maxResults ≤ count + 1 + 1 then (i + delim.length, count + 1, results)
          else
            stringSplitLoop s delim capacity maxResults fuel (i + delim.length)
              (i + delim.length) (count + 1) results
        else stringSplitLoop s delim capacity maxResults fuel (i + 1) start count results
      else (start, count, results)

/-- `string_split`: the number of pieces, and the index pairs written to
`results`. `start` is at most the length, as at every call. -/
def stringSplit (s : Bytes) (start : Nat) (delim : Bytes) (capacity maxResults : Nat) :
    Nat × List (Nat × Nat) :=
  let maxResults := if maxResults = 0 then sizeMax else maxResults
  if s.length - start < delim.length then
    (1, if 1 ≤ capacity then [(start, s.length)] else [])
  else
    match stringSplitLoop s delim capacity maxResults s.length start start 0 [] with
    | (start, count, results) =>
        if start < s.length then
          (count + 1,
            if count < capacity ∧ count < maxResults then results ++ [(start, s.length)]
            else results)
        else (count, results)

/-! ## Comparing -/

inductive StringCompareMode
  | caseSensitive
  | caseInsensitive
deriving DecidableEq, Repr

/-- `tolower` in the C locale. -/
def tolower (c : UInt8) : UInt8 :=
  if 65 ≤ c ∧ c ≤ 90 then c + 32 else c

/-- `c >= 'a' && c <= 'z' || c >= 'A' && c <= 'Z'`. -/
def isLetter (c : UInt8) : Bool :=
  97 ≤ c && c ≤ 122 || 65 ≤ c && c ≤ 90

/-- `string_tolower`. -/
def stringTolower (s : Bytes) : Bytes :=
  s.map tolower

def StringCompareMode.fold : StringCompareMode → UInt8 → UInt8
  | .caseSensitive, c => c
  | .caseInsensitive, c => tolower c

/-- `string_compare_cstr_len`. The difference of two characters is a signed
`char`; the difference of the lengths is cut down to an `int`. -/
def stringCompareCstrLen (mode : StringCompareMode) : Bytes → Bytes → Int
  | x :: a, y :: b =>
      if mode.fold x = mode.fold y then stringCompareCstrLen mode a b
      else ((mode.fold x).toBitVec - (mode.fold y).toBitVec).toInt
  | a, b => (BitVec.ofInt 32 (a.length - b.length)).toInt

/-! ## The C library -/

def isspace (c : UInt8) : Bool :=
  c = 32 || (9 ≤ c && c ≤ 13)

def isdigit (c : UInt8) : Bool :=
  48 ≤ c && c ≤ 57

def decimalValue (digits : Bytes) : Nat :=
  digits.foldl (fun n c => n * 10 + (c.toNat - 48)) 0

/-- The sign that `strtoul` accepts: whether the number is negated, and the
rest of the text. -/
def takeSign : Bytes → Bool × Bytes
  | 45 :: s => (true, s)
  | 43 :: s => (false, s)
  | s => (false, s)

/-- `sscanf(text, "%zu", &n) == 1`, and the value of `n` then. Too large a
number becomes `SIZE_MAX`, a negative one wraps around. -/
def sscanfZu (text : Bytes) : Option Nat :=
  match takeSign ((cstr text).dropWhile isspace) with
  | (negative, s) =>
      match s.takeWhile isdigit with
      | [] => none
      | digits =>
          let n := decimalValue digits
          if 2 ^ 64 ≤ n then some sizeMax
          else if negative then some ((2 ^ 64 - n) % 2 ^ 64)
          else some n

/-- The value of a digit in bases up to 16; 16 for no digit. -/
def digitValue (c : UInt8) : Nat :=
  if isdigit c then c.toNat - 48
  else if 97 ≤ c && c ≤ 102 then c.toNat - 87
  else if 65 ≤ c && c ≤ 70 then c.toNat - 55
  else 16

/-- The base that `%i` finds, and the text from its first digit on: `0x` is
left out, while the 0 of an octal number is one of its digits. -/
def basePrefix : Bytes → Nat × Bytes
  | 48 :: x :: s => if x = 120 ∨ x = 88 then (16, s) else (8, 48 :: x :: s)
  | [48] => (8, [48])
  | s => (10, s)

def numberValue (base : Nat) (digits : Bytes) : Nat :=
  digits.foldl (fun n c => n * base + digitValue c) 0

/-- The value that `strtol` gives. -/
def clampLong (z : Int) : Int :=
  max (-(2 ^ 63)) (min z (2 ^ 63 - 1))

/-- A `long` or a count stored into an `int`. -/
def toInt (z : Int) : Int :=
  (BitVec.ofInt 32 z).toInt

theorem toInt_of_lt {n : Nat} (h : n < 2 ^ 31) : toInt (n : Int) = n := by
  rw [toInt, BitVec.toInt_ofInt, Int.bmod_eq_of_le] <;> omega

theorem clampLong_of_lt {n : Nat} (h : n < 2 ^ 31) : clampLong (n : Int) = n := by
  unfold clampLong
  omega

theorem toInt_lt (z : Int) : toInt z < 2 ^ 31 := by
  have hlt := (BitVec.ofInt 32 z).toInt_lt
  exact hlt

/-- `sscanf(text, "%i%n", &value, &n) == 1`, and `value` and `n` then. In glibc
the 0 of a `0x` is a digit: with none behind it the number is 0, and `n` counts
the `x` too. -/
def sscanfI (text : Bytes) : Option (Int × Int) :=
  let s := cstr text
  let signed := takeSign (s.dropWhile isspace)
  let number := basePrefix signed.2
  let digits := number.2.takeWhile (digitValue · < number.1)
  if digits = [] ∧ number.1 ≠ 16 then none
  else
    let value : Int := numberValue number.1 digits
    let n := s.length - (number.2.length - digits.length)
    some (toInt (clampLong (if signed.1 then -value else value)), toInt n)

/-- The decimal digits of a number, as `%zu` prints them. -/
def decimal (n : Nat) : Bytes :=
  ascii (toString n)

/-- `vsnprintf` with this format and no arguments; `none` where a directive
other than `%%` makes the behaviour undefined. -/
def vsnprintfNoArgs : Bytes → Option Bytes
  | 37 :: 37 :: f => (vsnprintfNoArgs f).map (37 :: ·)
  | 37 :: _ => none
  | 0 :: _ => some []
  | c :: f => (vsnprintfNoArgs f).map (c :: ·)
  | [] => some []

theorem vsnprintfNoArgs_directive {f : Bytes} (h : f.head? ≠ some 37) :
    vsnprintfNoArgs (37 :: f) = none := by
  unfold vsnprintfNoArgs
  split <;> simp_all

theorem vsnprintfNoArgs_char {c : UInt8} (hc : c ≠ 37) (h0 : c ≠ 0) (f : Bytes) :
    vsnprintfNoArgs (c :: f) = (vsnprintfNoArgs f).map (c :: ·) := by
  rw [vsnprintfNoArgs]
  · exact fun _ h => absurd h hc
  · exact hc
  · exact h0

end CWebServer.Strings
