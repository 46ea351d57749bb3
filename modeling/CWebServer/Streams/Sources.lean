import CWebServer.Streams.BufferStream

/-!
# Streams — Sources

The streams that are read here, by what `stream.h` says of `stream_read`: a
result that is not negative counts the bytes read, 0 of them where no more
are available. How many come with one read is left open.
-/

namespace CWebServer.Streams

open CWebServer.Strings CWebServer.Lib

/-- A stream that is read. -/
structure Input (σ : Type) where
  read : StreamFuncRead σ
  length_le : ∀ s n, (read s n).bytes.length ≤ n
  result_eq : ∀ s n, 0 ≤ (read s n).result → (read s n).result = (read s n).bytes.length

/-- One without errors. `rest` is what it has still to give. -/
structure Source (σ : Type) extends Input σ where
  rest : σ → Bytes
  result_nonneg : ∀ s n, 0 ≤ (read s n).result
  append_rest : ∀ s n, (read s n).bytes ++ rest (read s n).stream = rest s

/-- One that gives at least a byte as long as it has one. -/
structure PromptSource (σ : Type) extends Source σ where
  prompt : ∀ s n, 0 < n → rest s ≠ [] → (read s n).bytes ≠ []

/-! ## Reading into a buffer -/

theorem sizeAdd_sizeOfInt {a b : Nat} (h : a + b < 2 ^ 64) : sizeAdd a (sizeOfInt b) = a + b := by
  rw [sizeAdd, sizeOfInt]
  omega

section

variable {σ : Type} (read : StreamFuncRead σ) (s : σ) (dst : Buffer) (n : Nat)

/-- What is read stands behind the old contents. -/
theorem streamReadBuffer_eq (h : (read s n).result = (read s n).bytes.length) :
    (streamReadBuffer read s dst n).1 = (read s n).bytes.length
      ∧ (streamReadBuffer read s dst n).2.1.contents = dst.contents ++ (read s n).bytes
      ∧ (streamReadBuffer read s dst n).2.1.length = dst.length + (read s n).bytes.length
      ∧ (streamReadBuffer read s dst n).2.2 = (read s n).stream := by
  have hlength : (streamReadBuffer read s dst n).2.1.length
      = dst.length + (read s n).bytes.length := by
    simp only [streamReadBuffer, h]
    split
    · rw [Int.toNat_natCast]
      rfl
    · rename_i hnone
      show dst.length = _
      omega
  have hdata : (streamReadBuffer read s dst n).2.1.data
      = store dst.data dst.length (read s n).bytes := by
    simp only [streamReadBuffer]
    split <;> rfl
  refine ⟨h, ?_, hlength, rfl⟩
  have hbefore : load (store dst.data dst.length (read s n).bytes) 0 dst.length = dst.contents :=
    load_store_outside dst.data (by omega)
  rw [Buffer.contents, hlength, hdata, load_add, Nat.zero_add, hbefore, load_store_self]

end

namespace SizedBuffer

variable (b : SizedBuffer)

theorem room_le : b.room ≤ b.capacity := by
  unfold room
  split <;> omega

theorem room_lt : b.room < 2 ^ 63 := by
  unfold room
  split <;> omega

theorem Sound.room_eq {b : SizedBuffer} (h : b.Sound) : b.room = b.capacity :=
  if_pos h.capacity_lt

@[simp] theorem toBuffer_ensureCapacity (n : Nat) :
    (b.ensureCapacity n).toBuffer = b.toBuffer := by
  unfold ensureCapacity
  split <;> rfl

@[simp] theorem capacity_ensureCapacity (n : Nat) :
    (b.ensureCapacity n).capacity = max b.capacity n := by
  unfold ensureCapacity
  split
  · rename_i hlt
    exact (Nat.max_eq_right (Nat.le_of_lt hlt)).symm
  · rename_i hle
    exact (Nat.max_eq_left (Nat.le_of_not_lt hle)).symm

/-- There is nothing to allocate for a length within the memory. -/
theorem setLength_of_le {length : Nat} (h : length ≤ b.room) :
    b.setLength length = { b with toBuffer := b.toBuffer.setLength length } := by
  have hle := b.room_le
  rw [setLength, ensureCapacity, if_neg (by omega)]

@[simp] theorem toBuffer_reserve (n : Nat) : (b.reserve n).toBuffer = b.toBuffer :=
  b.toBuffer_ensureCapacity _

/-- A request for more than any object has leaves no memory. -/
theorem room_reserve_eq_zero {b : SizedBuffer} {n : Nat} (h : 2 ^ 63 ≤ sizeAdd b.length n) :
    (b.reserve n).room = 0 := by
  have hcapacity := b.capacity_ensureCapacity (sizeAdd b.length n)
  refine if_neg ?_
  rw [reserve]
  omega

end SizedBuffer

section

variable {σ : Type} (read : StreamFuncRead σ) (s : σ) (dst : SizedBuffer) (n : Nat)

/-- What is left of a buffer by a read whose bytes fit. -/
def readInto : SizedBuffer :=
  { dst.reserve n with toBuffer := (streamReadBuffer read s dst.toBuffer n).2.1 }

@[simp] theorem room_readInto : (readInto read s dst n).room = (dst.reserve n).room := rfl

/-- The capacity decides only whether the bytes fit. -/
theorem streamReadSizedBuffer_eq (h : (read s n).result = (read s n).bytes.length) :
    streamReadSizedBuffer read s dst n
      = if (dst.reserve n).room < dst.length + (read s n).bytes.length then none
        else some (((read s n).bytes.length : Int), readInto read s dst n, (read s n).stream) := by
  simp only [streamReadSizedBuffer]
  split
  · rfl
  · rename_i hfits
    have hroom := (dst.reserve n).room_lt
    have hle : dst.length + (read s n).result.toNat ≤ (dst.reserve n).room := by
      rw [h]
      exact Nat.le_of_not_lt hfits
    have hlength : sizeAdd dst.length (sizeOfInt (read s n).result)
        = dst.length + (read s n).result.toNat := by
      rw [h, sizeAdd_sizeOfInt (by omega), Int.toNat_natCast]
    rw [hlength, SizedBuffer.setLength_of_le]
    · simp only [readInto, streamReadBuffer, h, SizedBuffer.toBuffer_reserve]
      split <;> rfl
    · exact hle

end

namespace Source

variable {σ : Type} (src : Source σ) (s : σ) (n : Nat)

theorem result_eq_length : (src.read s n).result = (src.read s n).bytes.length :=
  src.result_eq s n (src.result_nonneg s n)

theorem bytes_eq_take :
    (src.read s n).bytes = (src.rest s).take (src.read s n).bytes.length := by
  rw [← src.append_rest s n, List.take_left]

theorem rest_eq_drop :
    src.rest (src.read s n).stream = (src.rest s).drop (src.read s n).bytes.length := by
  rw [← src.append_rest s n, List.drop_left]

theorem length_bytes_le : (src.read s n).bytes.length ≤ (src.rest s).length := by
  rw [← src.append_rest s n, List.length_append]
  omega

end Source

/-! ## Scripts -/

/-- The bytes to give, and for each read to come how many at most besides the
first one; a read behind the list gets what it asks for. -/
structure Script where
  content : Bytes
  pieces : List Nat

def Script.read : StreamFuncRead Script :=
  fun s n =>
    let n := s.pieces.head?.elim n fun k => min (k + 1) n
    { result := (s.content.take n).length
      bytes := s.content.take n
      stream := { content := s.content.drop n, pieces := s.pieces.tail } }

/-- A script is a source. -/
def scripted : PromptSource Script where
  read := Script.read
  length_le := by
    intro s n
    show (s.content.take (s.pieces.head?.elim n fun k => min (k + 1) n)).length ≤ n
    rw [List.length_take]
    cases s.pieces.head? with
    | none => exact Nat.min_le_left _ _
    | some k =>
        show min (min (k + 1) n) s.content.length ≤ n
        omega
  result_eq := fun _ _ _ => rfl
  rest := Script.content
  result_nonneg := fun _ _ => Int.natCast_nonneg _
  append_rest := fun _ _ => List.take_append_drop _ _
  prompt := by
    intro s n hn hrest hnil
    have hcount : 0 < s.pieces.head?.elim n fun k => min (k + 1) n := by
      cases s.pieces.head? with
      | none => exact hn
      | some k =>
          show 0 < min (k + 1) n
          omega
    rcases List.take_eq_nil_iff.mp hnil with hzero | hempty
    · omega
    · exact hrest hempty

/-! ## Buffer streams -/

/-- A buffer stream whose buffer has less than 2^31 bytes, as a file. -/
structure ReadableBuffer where
  stream : BufferStream
  file : File UInt8
  shows : stream.Shows file
  length_lt : file.contents.length < 2 ^ 31

namespace ReadableBuffer

def read : StreamFuncRead ReadableBuffer :=
  fun s n =>
    { result := (s.stream.read n).result
      bytes := (s.stream.read n).bytes
      stream :=
        { stream := (s.stream.read n).stream
          file := s.file.afterRead n
          shows := (s.shows.read n).2.2.2
          length_lt := s.length_lt } }

theorem bytes_eq (s : ReadableBuffer) (n : Nat) : (read s n).bytes = s.file.read n :=
  (s.shows.read n).1

theorem result_eq (s : ReadableBuffer) (n : Nat) : (read s n).result = (read s n).bytes.length := by
  have hlength := s.file.length_read n
  have hlt := s.length_lt
  rw [bytes_eq]
  exact (s.shows.read n).2.1.trans (toInt_of_lt (by omega))

/-- What `stream_buffer_read` does. -/
theorem read_stream (s : ReadableBuffer) (n : Nat) :
    s.stream.read n =
      { result := (read s n).result
        bytes := (read s n).bytes
        stream := (read s n).stream.stream } :=
  rfl

theorem rest_eq (s : ReadableBuffer) :
    s.file.rest = s.stream.buffer.contents.drop s.stream.position := by
  rw [s.shows.1, s.shows.2]
  rfl

/-- A buffer stream is a source. -/
def source : PromptSource ReadableBuffer where
  read := read
  length_le := by
    intro s n
    rw [bytes_eq, File.length_read]
    exact Nat.min_le_left _ _
  result_eq := fun s n _ => result_eq s n
  rest := fun s => s.file.rest
  result_nonneg := by
    intro s n
    rw [result_eq]
    exact Int.natCast_nonneg _
  append_rest := by
    intro s n
    rw [bytes_eq]
    exact s.file.read_append_rest n
  prompt := by
    intro s n hn hrest hnil
    rw [bytes_eq] at hnil
    rcases List.take_eq_nil_iff.mp hnil with hzero | hempty
    · omega
    · exact hrest hempty

end ReadableBuffer

theorem BufferStream.After.readable {b : Buffer} {s : BufferStream}
    (h : BufferStream.After BufferStream.SizeFits b s) (hb : b.length < 2 ^ 31) :
    ∃ r : ReadableBuffer, r.stream = s := by
  obtain ⟨f, hf⟩ := h.shows
  exact ⟨⟨s, f, hf, hf.length ▸ h.length_lt hb⟩, rfl⟩

end CWebServer.Streams
