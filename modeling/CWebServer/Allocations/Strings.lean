import CWebServer.Lib.Blocks
import CWebServer.Strings.Model

/-!
# Allocations — Strings

`buffer.c` and `string.c` as programs over a heap: which blocks they
allocate, move and free, and where they read and write. What a string holds
is its `text`; the bytes in memory are not looked at here. A `memcpy` of no
bytes counts as no access.
-/

namespace CWebServer.Allocations

open CWebServer.Lib CWebServer.Strings

/-! ## Buffers -/

theorem zero_le_zero : 0 ≤ 0 := Nat.le_refl 0

/-- `buffer`. -/
structure HeapBuffer where
  capacity : Nat
  length : Nat
  data : Option Nat
  length_le : length ≤ capacity
  data_eq_none : data = none ↔ capacity = 0

namespace HeapBuffer

def blocks (b : HeapBuffer) : Multiset Block := blockOf b.data b.capacity

theorem none_iff_zero : (none : Option Nat) = none ↔ 0 = 0 :=
  Iff.intro (fun _ => rfl) fun _ => rfl

/-- `buffer_init`. -/
def init : HeapBuffer := ⟨0, 0, none, zero_le_zero, none_iff_zero⟩

/-- `buffer_dealloc`, which leaves the pointer as it is. -/
def dealloc (b : HeapBuffer) : Alloc Unit := freePointer b.data

/-- A read or a write of `count` bytes at `data + start`. -/
def access (b : HeapBuffer) (start count : Nat) : Alloc Unit :=
  if count = 0 then pure () else accessPointer b.data start count

/-- `buffer_set_capacity`. -/
def setCapacity (b : HeapBuffer) (newCapacity : Nat) :
    Alloc { b' : HeapBuffer //
      b'.capacity = newCapacity ∧ b'.length = min b.length newCapacity } :=
  if hsame : newCapacity = b.capacity then
    pure ⟨b, hsame.symm, by rw [hsame, Nat.min_eq_left b.length_le]⟩
  else if hzero : newCapacity = 0 then do
    freePointer b.data
    pure ⟨init, hzero.symm, by rw [hzero, Nat.min_zero]; rfl⟩
  else do
    let p ← realloc b.data newCapacity
    pure
      ⟨⟨newCapacity, min b.length newCapacity, some p, Nat.min_le_right _ _, by simp [hzero]⟩,
        rfl, rfl⟩

/-- `buffer_ensure_capacity`. -/
def ensureCapacity (b : HeapBuffer) (newCapacity : Nat) :
    Alloc { b' : HeapBuffer // b'.length = b.length ∧ newCapacity ≤ b'.capacity
      ∧ b.capacity ≤ b'.capacity } :=
  if h : b.capacity < newCapacity then do
    let ⟨b', hcapacity, hlength⟩ ← b.setCapacity newCapacity
    pure ⟨b', hlength.trans (Nat.min_eq_left (Nat.le_trans b.length_le (Nat.le_of_lt h))),
      Nat.le_of_eq hcapacity.symm, hcapacity ▸ Nat.le_of_lt h⟩
  else pure ⟨b, rfl, Nat.not_lt.mp h, Nat.le_refl _⟩

/-- `buffer_set_length`. -/
def setLength (b : HeapBuffer) (newLength : Nat) :
    Alloc { b' : HeapBuffer // b'.length = newLength ∧ b.capacity ≤ b'.capacity } :=
  if h : b.length = newLength then pure ⟨b, h, Nat.le_refl _⟩
  else do
    let ⟨b', _, hcapacity, hle⟩ ← b.ensureCapacity newLength
    pure ⟨{ b' with length := newLength, length_le := hcapacity }, rfl, hle⟩

/-- `buffer_clear`. -/
def clear (b : HeapBuffer) :
    Alloc { b' : HeapBuffer // b'.length = 0 ∧ b.capacity ≤ b'.capacity } :=
  b.setLength 0

/-- `buffer_append_bytes`, apart from the bytes. -/
def appendBytes (b : HeapBuffer) (len : Nat) :
    Alloc { b' : HeapBuffer // b'.length = b.length + len } := do
  let ⟨b', hlength, _⟩ ← b.setLength (b.length + len)
  b'.access b.length len
  pure ⟨b', hlength⟩

section
variable (b : HeapBuffer)

@[simp] theorem blocks_init : init.blocks = 0 := rfl

theorem dealloc_spec : Spec b.blocks b.dealloc (fun _ => 0) fun _ => True :=
  freePointer_spec b.data b.capacity

theorem access_spec {start count : Nat} (hle : start + count ≤ b.capacity) :
    Spec b.blocks (b.access start count) (fun _ => b.blocks) fun _ => True := by
  unfold access
  split
  · exact Spec.pure rfl trivial
  · cases hdata : b.data with
    | none =>
        have hzero := b.data_eq_none.mp hdata
        omega
    | some p =>
        have hmem : ⟨p, b.capacity⟩ ∈ b.blocks := by simp [blocks, hdata]
        exact Lib.access_spec hmem hle

theorem setCapacity_spec (n : Nat) :
    Spec b.blocks (b.setCapacity n) (fun b' => b'.1.blocks) fun _ => True := by
  unfold setCapacity
  split
  · exact Spec.pure rfl trivial
  · split
    · exact b.dealloc_spec.bind fun _ _ => Spec.pure rfl trivial
    · exact (realloc_spec b.data b.capacity n).bind fun p _ => Spec.pure rfl trivial

theorem ensureCapacity_spec (n : Nat) :
    Spec b.blocks (b.ensureCapacity n) (fun b' => b'.1.blocks) fun _ => True := by
  unfold ensureCapacity
  split
  · exact (b.setCapacity_spec n).bind fun ⟨_, _, _⟩ _ => Spec.pure rfl trivial
  · exact Spec.pure rfl trivial

theorem setLength_spec (n : Nat) :
    Spec b.blocks (b.setLength n) (fun b' => b'.1.blocks) fun _ => True := by
  unfold setLength
  split
  · exact Spec.pure rfl trivial
  · exact (b.ensureCapacity_spec n).bind fun ⟨_, _, _, _⟩ _ => Spec.pure rfl trivial

theorem appendBytes_spec (n : Nat) :
    Spec b.blocks (b.appendBytes n) (fun b' => b'.1.blocks) fun _ => True := by
  refine (b.setLength_spec (b.length + n)).bind fun ⟨b', hlength, _⟩ _ => ?_
  have hle : b.length + n ≤ b'.capacity := hlength ▸ b'.length_le
  exact (b'.access_spec hle).bind fun _ _ => Spec.pure rfl trivial

end

end HeapBuffer

/-! ## Strings -/

/-- `string`. The length of the buffer counts the terminating 0. -/
structure HeapString where
  text : Bytes
  b : HeapBuffer
  length_eq : b.length = text.length + 1

namespace HeapString

def blocks (s : HeapString) : Multiset Block := s.b.blocks

/-- `string_init`. -/
def init : Alloc { s : HeapString // s.text = [] } := do
  let ⟨b, hlength, _⟩ ← HeapBuffer.init.setLength 1
  b.access 0 1
  pure ⟨⟨[], b, hlength⟩, rfl⟩

/-- `string_dealloc`. -/
def dealloc (s : HeapString) : Alloc Unit := s.b.dealloc

/-- A read of the text and of the 0 behind it. -/
def read (s : HeapString) : Alloc Unit := s.b.access 0 (s.text.length + 1)

/-- `string_clear`. -/
def clear (s : HeapString) : Alloc { s' : HeapString // s'.text = [] } := do
  let ⟨b, hlength, _⟩ ← s.b.setLength 1
  b.access 0 1
  pure ⟨⟨[], b, hlength⟩, rfl⟩

/-- `other` is added and the 0 behind it with it. -/
def appendTerminated (s : HeapString) (other : Bytes) :
    Alloc { s' : HeapString // s'.text = s.text ++ other } := do
  let sLen := s.text.length
  let ⟨b, _⟩ ← s.b.setCapacity (sLen + other.length + 1)
  let ⟨b, hlength, _⟩ ← b.setLength sLen
  let ⟨b, hlength'⟩ ← b.appendBytes (other.length + 1)
  pure ⟨⟨s.text ++ other, b, by rw [hlength', hlength, List.length_append]; rfl⟩, rfl⟩

/-- `other` is added, and a 0 behind it. -/
def appendAndTerminate (s : HeapString) (other : Bytes) :
    Alloc { s' : HeapString // s'.text = s.text ++ other } := do
  let sLen := s.text.length
  let ⟨b, _⟩ ← s.b.setCapacity (sLen + other.length + 1)
  let ⟨b, _⟩ ← b.setLength sLen
  let ⟨b, _⟩ ← b.appendBytes other.length
  let ⟨b, hlength, _⟩ ← b.setLength (sLen + other.length + 1)
  b.access (sLen + other.length) 1
  pure ⟨⟨s.text ++ other, b, by rw [hlength, List.length_append]⟩, rfl⟩

/-- `string_append_cstr`. -/
def appendCstr (s : HeapString) (other : Bytes) :
    Alloc { s' : HeapString // s'.text = s.text ++ cstr other } :=
  s.appendTerminated (cstr other)

/-- `string_set_str`, for another string. -/
def setStr (s other : HeapString) : Alloc { s' : HeapString // s'.text = other.text } := do
  let ⟨s, hs⟩ ← s.clear
  other.read
  let ⟨s, hs'⟩ ← s.appendTerminated other.text
  pure ⟨s, by rw [hs', hs, List.nil_append]⟩

/-- `string_set_cstr`. -/
def setCstr (s : HeapString) (other : Bytes) :
    Alloc { s' : HeapString // s'.text = cstr other } := do
  let ⟨s, hs⟩ ← s.clear
  let ⟨s, hs'⟩ ← s.appendCstr other
  pure ⟨s, by rw [hs', hs, List.nil_append]⟩

/-- `string_set_cstr_len`. -/
def setCstrLen (s : HeapString) (other : Bytes) : Alloc { s' : HeapString // s'.text = other } := do
  let ⟨s, hs⟩ ← s.clear
  let ⟨s, hs'⟩ ← s.appendAndTerminate other
  pure ⟨s, by rw [hs', hs, List.nil_append]⟩

/-- `string_append_cstrf`, for what `vsnprintf` makes of its arguments. The
text is written behind the length, with a 0. -/
def appendCstrf (s : HeapString) (formatted : Bytes) :
    Alloc { s' : HeapString // s'.text = s.text ++ formatted } := do
  let currentLength := s.text.length
  let ⟨b, _⟩ ← s.b.ensureCapacity (currentLength + formatted.length + 1)
  let ⟨b, _⟩ ← b.setLength currentLength
  b.access currentLength (formatted.length + 1)
  let ⟨b, hlength, _⟩ ← b.setLength (currentLength + formatted.length + 1)
  pure ⟨⟨s.text ++ formatted, b, by rw [hlength, List.length_append]⟩, rfl⟩

/-- `string_set_cstrf`. -/
def setCstrf (s : HeapString) (formatted : Bytes) :
    Alloc { s' : HeapString // s'.text = formatted } := do
  let ⟨b, hlength, _⟩ ← s.b.setLength (formatted.length + 1)
  b.access 0 (formatted.length + 1)
  pure ⟨⟨formatted, b, hlength⟩, rfl⟩

/-- The loop of `string_set_length`, `count` rounds from `i` on. -/
def fillLoop (b : HeapBuffer) (i : Nat) : (count : Nat) → Alloc Unit
  | 0 => pure ()
  | count + 1 => do
      b.access i 1
      fillLoop b (i + 1) count

/-- `string_set_length`. -/
def setLength (s : HeapString) (newLen : Nat) (fill : UInt8) :
    Alloc { s' : HeapString //
      s'.text = s.text.take newLen ++ List.replicate (newLen - s.text.length) fill } := do
  let ⟨b, hlength, _⟩ ← s.b.setLength (newLen + 1)
  fillLoop b s.text.length (newLen - s.text.length)
  b.access newLen 1
  pure ⟨⟨s.text.take newLen ++ List.replicate (newLen - s.text.length) fill, b, by
    rw [hlength, List.length_append, List.length_take, List.length_replicate]
    omega⟩, rfl⟩

/-- `string_set_substr` of another string. -/
def setSubstr (s src : HeapString) (start stop : Nat) :
    Alloc { s' : HeapString // s'.text = stringSetSubstr src.text start stop } := do
  let ⟨s, hs⟩ ← s.clear
  if h : stop ≤ start ∨ src.text.length ≤ start then
    pure ⟨s, by simp [hs, stringSetSubstr, stringAppendSubstr, h]⟩
  else do
    let substrLen := min stop src.text.length - start
    src.b.access start substrLen
    let ⟨s, hs'⟩ ← s.appendAndTerminate ((src.text.drop start).take substrLen)
    pure ⟨s, by simp [hs, hs', stringSetSubstr, stringAppendSubstr, h, substrLen]⟩

/-- `string_set_substr` of the string itself. -/
def setSubstrSelf (s : HeapString) (start stop : Nat) :
    Alloc { s' : HeapString // s'.text = stringSetSubstrSelf s.text start stop } :=
  if h : stop ≤ start ∨ s.text.length ≤ start then
    pure ⟨s, by rw [stringSetSubstrSelf, if_pos h]⟩
  else do
    let substrLen := min stop s.text.length - start
    s.b.access start substrLen
    s.b.access 0 substrLen
    s.b.access substrLen 1
    let ⟨b, hlength, _⟩ ← s.b.setLength (substrLen + 1)
    pure ⟨⟨(s.text.drop start).take substrLen, b, by
        rw [hlength, List.length_take, List.length_drop]
        omega⟩,
      by rw [stringSetSubstrSelf, if_neg h]⟩

/-- `string_trim_start_any_of_cstr` of the string itself. -/
def trimStartAnyOfCstr (s : HeapString) (find : Bytes) :
    Alloc { s' : HeapString // s'.text = stringTrimStartAnyOfCstr s.text find } := do
  s.read
  match h : stringIndexNotOfAnyCstr s.text find 0 with
  | none => do
      let ⟨s, hs⟩ ← s.clear
      pure ⟨s, by rw [hs, stringTrimStartAnyOfCstr, h]⟩
  | some i => do
      let ⟨s', hs⟩ ← s.setSubstrSelf i s.text.length
      pure ⟨s', by rw [hs, stringTrimStartAnyOfCstr, h]⟩

section
variable (s other : HeapString)

theorem init_spec : Spec 0 init (fun s => s.1.blocks) fun _ => True := by
  refine (HeapBuffer.init.setLength_spec 1).bind fun ⟨b, hlength, _⟩ _ => ?_
  have hle : 0 + 1 ≤ b.capacity := by
    have := b.length_le
    omega
  exact (b.access_spec hle).bind fun _ _ => Spec.pure rfl trivial

theorem dealloc_spec : Spec s.blocks s.dealloc (fun _ => 0) fun _ => True :=
  s.b.dealloc_spec

/-- The text and its 0 are inside of the block. -/
theorem length_lt : s.text.length + 1 ≤ s.b.capacity :=
  s.length_eq ▸ s.b.length_le

theorem read_spec : Spec s.blocks s.read (fun _ => s.blocks) fun _ => True :=
  s.b.access_spec (by have := s.length_lt; omega)

theorem clear_spec : Spec s.blocks s.clear (fun s' => s'.1.blocks) fun _ => True := by
  refine (s.b.setLength_spec 1).bind fun ⟨b, hlength, _⟩ _ => ?_
  have hle : 0 + 1 ≤ b.capacity := by
    have := b.length_le
    omega
  exact (b.access_spec hle).bind fun _ _ => Spec.pure rfl trivial

theorem appendTerminated_spec (text : Bytes) :
    Spec s.blocks (s.appendTerminated text) (fun s' => s'.1.blocks) fun _ => True := by
  refine (s.b.setCapacity_spec _).bind fun ⟨b, _⟩ _ => ?_
  refine (b.setLength_spec _).bind fun ⟨b, _, _⟩ _ => ?_
  exact (b.appendBytes_spec _).bind fun ⟨b, _⟩ _ => Spec.pure rfl trivial

theorem appendAndTerminate_spec (text : Bytes) :
    Spec s.blocks (s.appendAndTerminate text) (fun s' => s'.1.blocks) fun _ => True := by
  refine (s.b.setCapacity_spec _).bind fun ⟨b, _⟩ _ => ?_
  refine (b.setLength_spec _).bind fun ⟨b, _⟩ _ => ?_
  refine (b.appendBytes_spec _).bind fun ⟨b, _⟩ _ => ?_
  refine (b.setLength_spec _).bind fun ⟨b, hlength, _⟩ _ => ?_
  exact (b.access_spec (hlength ▸ b.length_le)).bind fun _ _ => Spec.pure rfl trivial

theorem setStr_spec : Spec (s.blocks + other.blocks) (s.setStr other)
    (fun s' => s'.1.blocks + other.blocks) fun _ => True := by
  refine s.clear_spec.call other.blocks rfl fun ⟨s, _⟩ _ => ?_
  refine other.read_spec.call s.blocks (add_comm _ _) fun _ _ => ?_
  refine (s.appendTerminated_spec other.text).call other.blocks (add_comm _ _)
    fun ⟨s, _⟩ _ => ?_
  exact Spec.pure rfl trivial

theorem setCstr_spec (text : Bytes) :
    Spec s.blocks (s.setCstr text) (fun s' => s'.1.blocks) fun _ => True := by
  refine s.clear_spec.bind fun ⟨s, _⟩ _ => ?_
  exact (s.appendTerminated_spec (cstr text)).bind fun ⟨s, _⟩ _ => Spec.pure rfl trivial

theorem setCstrLen_spec (text : Bytes) :
    Spec s.blocks (s.setCstrLen text) (fun s' => s'.1.blocks) fun _ => True := by
  refine s.clear_spec.bind fun ⟨s, _⟩ _ => ?_
  exact (s.appendAndTerminate_spec text).bind fun ⟨s, _⟩ _ => Spec.pure rfl trivial

theorem appendCstrf_spec (formatted : Bytes) :
    Spec s.blocks (s.appendCstrf formatted) (fun s' => s'.1.blocks) fun _ => True := by
  refine (s.b.ensureCapacity_spec _).bind fun ⟨b, _, hcapacity, _⟩ _ => ?_
  refine (b.setLength_spec _).bind fun ⟨b', _, hle⟩ _ => ?_
  refine (b'.access_spec (by omega)).bind fun _ _ => ?_
  exact (b'.setLength_spec _).bind fun ⟨b, _, _⟩ _ => Spec.pure rfl trivial

theorem setCstrf_spec (formatted : Bytes) :
    Spec s.blocks (s.setCstrf formatted) (fun s' => s'.1.blocks) fun _ => True := by
  refine (s.b.setLength_spec _).bind fun ⟨b, hlength, _⟩ _ => ?_
  have hle : 0 + (formatted.length + 1) ≤ b.capacity := by
    rw [Nat.zero_add, ← hlength]
    exact b.length_le
  exact (b.access_spec hle).bind fun _ _ => Spec.pure rfl trivial

theorem fillLoop_spec (b : HeapBuffer) {i count : Nat} (hle : i + count ≤ b.capacity) :
    Spec b.blocks (fillLoop b i count) (fun _ => b.blocks) fun _ => True := by
  induction count generalizing i with
  | zero => exact Spec.pure rfl trivial
  | succ count ih =>
      exact (b.access_spec (by omega)).bind fun _ _ => ih (by omega)

theorem setLength_spec (newLen : Nat) (fill : UInt8) :
    Spec s.blocks (s.setLength newLen fill) (fun s' => s'.1.blocks) fun _ => True := by
  refine (s.b.setLength_spec _).bind fun ⟨b, hlength, hle⟩ _ => ?_
  have hcapacity := b.length_le
  have hlt := s.length_lt
  refine (fillLoop_spec b (by omega)).bind fun _ _ => ?_
  exact (b.access_spec (by omega)).bind fun _ _ => Spec.pure rfl trivial

theorem setSubstr_spec (start stop : Nat) :
    Spec (s.blocks + other.blocks) (s.setSubstr other start stop)
      (fun s' => s'.1.blocks + other.blocks) fun _ => True := by
  refine s.clear_spec.call other.blocks rfl fun ⟨s, _⟩ _ => ?_
  dsimp only
  split
  · exact Spec.pure rfl trivial
  · have hle : start + (min stop other.text.length - start) ≤ other.b.capacity := by
      have := other.length_lt
      omega
    refine (other.b.access_spec hle).call s.blocks (add_comm _ _) fun _ _ => ?_
    refine (s.appendAndTerminate_spec _).call other.blocks (add_comm _ _) fun ⟨s, _⟩ _ => ?_
    exact Spec.pure rfl trivial

theorem setSubstrSelf_spec (start stop : Nat) :
    Spec s.blocks (s.setSubstrSelf start stop) (fun s' => s'.1.blocks) fun _ => True := by
  have hlt := s.length_lt
  unfold setSubstrSelf
  split
  · exact Spec.pure rfl trivial
  · refine (s.b.access_spec (by omega)).bind fun _ _ => ?_
    refine (s.b.access_spec (by omega)).bind fun _ _ => ?_
    refine (s.b.access_spec (by omega)).bind fun _ _ => ?_
    exact (s.b.setLength_spec _).bind fun ⟨b, _, _⟩ _ => Spec.pure rfl trivial

theorem trimStartAnyOfCstr_spec (find : Bytes) :
    Spec s.blocks (s.trimStartAnyOfCstr find) (fun s' => s'.1.blocks) fun _ => True := by
  refine s.read_spec.bind fun _ _ => ?_
  split
  · exact s.clear_spec.bind fun ⟨s, _⟩ _ => Spec.pure rfl trivial
  · exact (s.setSubstrSelf_spec _ _).bind fun ⟨s, _⟩ _ => Spec.pure rfl trivial

end

end HeapString

end CWebServer.Allocations
