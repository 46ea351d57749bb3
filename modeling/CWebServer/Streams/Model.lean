import CWebServer.Lib.Memory
import CWebServer.Strings.Model

/-!
# Streams — Model

`buffer`, and `stream` over a buffer and over another stream that is read
ahead. Objects have less than 2^63 bytes, so a sum of their sizes does not
wrap; where the code adds something else to a `size_t`, the sum is `sizeAdd`.
The block size of `stream_read_all_into_buffer` is no size of an object, so
the buffer that it fills has a capacity. Elsewhere the capacity is left out:
the memory goes on behind the length, with bytes that nobody stored there.
-/

namespace CWebServer.Streams

open CWebServer.Strings CWebServer.Lib

/-! ## Sizes -/

/-- `a + b`. -/
def sizeAdd (a b : Nat) : Nat :=
  (a + b) % 2 ^ 64

/-- `a - b`. -/
def sizeSub (a b : Nat) : Nat :=
  if b ≤ a then a - b else 2 ^ 64 - (b - a)

/-- An `int` stored into a `size_t`. -/
def sizeOfInt (z : Int) : Nat :=
  (z % 2 ^ 64).toNat

/-! ## Buffers -/

/-- `buffer`: the memory at `data`, and how much of it is in use. -/
structure Buffer where
  length : Nat
  data : Nat → UInt8

namespace Buffer

/-- The bytes in use. -/
def contents (b : Buffer) : Bytes :=
  load b.data 0 b.length

/-- `buffer_set_length`. Bytes that come into use are not set. -/
def setLength (b : Buffer) (length : Nat) : Buffer :=
  { b with length }

/-- `buffer_clear`. -/
def clear (b : Buffer) : Buffer :=
  b.setLength 0

/-- `memcpy(b->data + start, src, n)`. -/
def copyTo (b : Buffer) (start : Nat) (src : Bytes) : Buffer :=
  { b with data := store b.data start src }

/-- A buffer with these contents, `junk` behind them. -/
def ofBytes (s : Bytes) (junk : UInt8) : Buffer :=
  { length := s.length, data := fun i => s.getD i junk }

end Buffer

/-- `buffer` with its `capacity`. -/
structure SizedBuffer extends Buffer where
  capacity : Nat

namespace SizedBuffer

/-- How many bytes `data` points to. No object has 2^63 bytes: for such a
capacity `realloc` has returned `NULL`. Memory does not run out otherwise. -/
def room (b : SizedBuffer) : Nat :=
  if b.capacity < 2 ^ 63 then b.capacity else 0

/-- `buffer_ensure_capacity`. -/
def ensureCapacity (b : SizedBuffer) (newCapacity : Nat) : SizedBuffer :=
  if b.capacity < newCapacity then { b with capacity := newCapacity } else b

/-- `buffer_ensure_capacity(dst, len + n)`. -/
def reserve (b : SizedBuffer) (n : Nat) : SizedBuffer :=
  b.ensureCapacity (sizeAdd b.length n)

/-- `buffer_set_length`. -/
def setLength (b : SizedBuffer) (length : Nat) : SizedBuffer :=
  { b.ensureCapacity length with toBuffer := b.toBuffer.setLength length }

/-- A buffer as the calls on it leave it, as long as no `realloc` fails. -/
structure Sound (b : SizedBuffer) : Prop where
  length_le : b.length ≤ b.capacity
  capacity_lt : b.capacity < 2 ^ 63

end SizedBuffer

/-! ## Reading -/

/-- What a call of a `stream_func_read` does: the `int` it returns, the bytes
it stores from `dst` on, and the stream it leaves. -/
structure ReadResult (σ : Type) where
  result : Int
  bytes : Bytes
  stream : σ

/-- `stream_func_read`, for streams of one kind. -/
abbrev StreamFuncRead (σ : Type) :=
  σ → Nat → ReadResult σ

/-- `stream_read_buffer`. -/
def streamReadBuffer {σ : Type} (read : StreamFuncRead σ) (stream : σ) (dst : Buffer) (n : Nat) :
    Int × Buffer × σ :=
  let r := read stream n
  let filled := dst.copyTo dst.length r.bytes
  (r.result, if 0 < r.result then filled.setLength (dst.length + r.result.toNat) else filled,
    r.stream)

/-- `stream_read_buffer` where the capacity counts; `none` is a read that
stores behind the memory of the buffer. -/
def streamReadSizedBuffer {σ : Type} (read : StreamFuncRead σ) (stream : σ) (dst : SizedBuffer)
    (n : Nat) : Option (Int × SizedBuffer × σ) :=
  let reserved := dst.reserve n
  let r := read stream n
  if reserved.room < dst.length + r.bytes.length then none
  else
    let filled := { reserved with toBuffer := reserved.copyTo dst.length r.bytes }
    some (r.result,
      if 0 < r.result then filled.setLength (sizeAdd dst.length (sizeOfInt r.result)) else filled,
      r.stream)

/-- `next_read` of `stream_read_all_into_buffer`. -/
def nextRead (max blockSize total : Nat) : Nat :=
  if 0 < max ∧ max < sizeAdd total blockSize then sizeSub max total else blockSize

/-- One round of the loop of `stream_read_all_into_buffer`: `total`, `dst`
and the stream for the next one, or the value that is returned. -/
def readAllRound {σ : Type} (read : StreamFuncRead σ) (max blockSize : Nat) :
    Nat × SizedBuffer × σ → (Nat × SizedBuffer × σ) ⊕ Option (Int × SizedBuffer × σ)
  | (total, dst, stream) =>
      let n := nextRead max blockSize total
      if n = 0 then .inr (some (toInt total, dst, stream))
      else
        match streamReadSizedBuffer read stream dst n with
        | none => .inr none
        | some (result, dst, stream) =>
            if result < 0 then .inr (some (result, dst, stream))
            else if result = 0 ∨ (0 < max ∧ max ≤ total) then
              .inr (some (toInt total, dst, stream))
            else .inl (sizeAdd total (sizeOfInt result), dst, stream)

/-! ## Buffer streams -/

/-- A `stream` of `stream_init_buffer`. -/
structure BufferStream where
  buffer : Buffer
  position : Nat

namespace BufferStream

/-- `stream_init_buffer`. -/
def init (b : Buffer) : BufferStream :=
  { buffer := b, position := 0 }

/-- `stream_buffer_get_position`. -/
def getPosition (s : BufferStream) : Nat :=
  s.position

/-- `stream_buffer_set_position`: the position it returns, and the stream. -/
def setPosition (s : BufferStream) (pos : Nat) : Nat × BufferStream :=
  let len := s.buffer.length
  let pos := if len = 0 then 0 else if len ≤ pos then len - 1 else pos
  (pos, { s with position := pos })

/-- `stream_buffer_read`. -/
def read : StreamFuncRead BufferStream :=
  fun s n =>
    let remaining := sizeSub s.buffer.length s.position
    let n := if remaining < n then remaining else n
    { result := toInt n
      bytes := load s.buffer.data s.position n
      stream := { s with position := s.position + n } }

/-- `stream_buffer_write`, of the bytes `src`. -/
def write (s : BufferStream) (src : Bytes) : Int × BufferStream :=
  let needsAtLeastLength := s.position + src.length
  let b := if s.buffer.length < needsAtLeastLength then s.buffer.setLength needsAtLeastLength
    else s.buffer
  (toInt src.length, { buffer := b.copyTo s.position src, position := s.position + src.length })

end BufferStream

/-! ## Buffered readers -/

/-- A `stream` of `stream_init_buffered_reader`, over an input of kind `σ`. -/
structure BufferedReader (σ : Type) where
  buffer : Buffer
  position : Nat
  input : σ

namespace BufferedReader

variable {σ : Type}

/-- `stream_init_buffered_reader`. -/
def init (input : σ) (data : Nat → UInt8) : BufferedReader σ :=
  { buffer := { length := 0, data }, position := 0, input }

/-- `stream_buffered_reader_get_position`. -/
def getPosition (s : BufferedReader σ) : Nat :=
  s.position

/-- `stream_buffered_reader_set_position`. -/
def setPosition (s : BufferedReader σ) (pos : Nat) : Nat × BufferedReader σ :=
  let len := s.buffer.length
  let pos := if len < pos then len else pos
  (pos, { s with position := pos })

/-- How much the buffer has behind the position. -/
def available (s : BufferedReader σ) : Nat :=
  sizeSub s.buffer.length s.position

/-- The `stream_read_buffer` in `stream_buffered_reader_read`, for the bytes
of `n` that the buffer does not have: what is available then. The `int` that
it returns is stored into a `size_t`, which is never below 0. -/
def fill (read : StreamFuncRead σ) (s : BufferedReader σ) (n : Nat) : Nat × BufferedReader σ :=
  let (result, buffer, input) := streamReadBuffer read s.input s.buffer (n - s.available)
  (sizeAdd s.available (sizeOfInt result), { s with buffer, input })

/-- `stream_buffered_reader_read`. -/
def read (read : StreamFuncRead σ) : StreamFuncRead (BufferedReader σ) :=
  fun s n =>
    let (available, s) := if s.available < n then fill read s n else (s.available, s)
    let n := if available < n then available else n
    { result := toInt n
      bytes := load s.buffer.data s.position n
      stream := { s with position := s.position + n } }

/-- `stream_buffered_reader_write`. -/
def write (s : BufferedReader σ) (_ : Bytes) : Int × BufferedReader σ :=
  (-1, s)

end BufferedReader

end CWebServer.Streams
