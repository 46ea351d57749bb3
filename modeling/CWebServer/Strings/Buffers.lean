import CWebServer.Lib.Memory
import CWebServer.Streams.Model

/-!
# Strings — Buffers

`buffer.c` and the functions of `string.c` that change a string, with their
memory: capacities, the terminating 0, and what `realloc` leaves behind. The
strings are told apart by their pointers `ι`, so that two arguments can be the
same string. Each write to the memory of a string goes into a log.
-/

namespace CWebServer.Buffers

open CWebServer.Lib CWebServer.Strings
open CWebServer.Streams (sizeAdd sizeSub)

/-! ## Memory -/

/-- `buffer`. `data` are the bytes it points to, which exist below
`capacity`; `block` tells the allocation from earlier ones. -/
structure Buffer where
  capacity : Nat
  length : Nat
  data : Nat → UInt8
  block : Nat

/-- A write of `count` bytes from `start` on to the memory of a string that
had this capacity then. `source` is the string and the offset that `memcpy`
took them from; `readable` tells whether all of them were there. -/
structure Access (ι : Type) where
  string : ι
  capacity : Nat
  start : Nat
  count : Nat
  source : Option (ι × Nat)
  readable : Bool

/-- The write stays inside of the memory, and so does the read. -/
def Access.InBounds {ι : Type} (a : Access ι) : Prop :=
  a.start + a.count ≤ a.capacity ∧ a.readable = true

/-- The bytes are not copied onto each other, which `memcpy` must not do. -/
def Access.Apart {ι : Type} (a : Access ι) : Prop :=
  ∀ offset, a.source = some (a.string, offset) →
    a.count = 0 ∨ offset + a.count ≤ a.start ∨ a.start + a.count ≤ offset

/-- The strings of a program, the number of allocations so far, what is in
the memory of an allocation at first, and the log. -/
structure Memory (ι : Type) where
  buffers : ι → Buffer
  blocks : Nat
  junk : Nat → Nat → UInt8
  accesses : List (Access ι)

/-- What `memcpy` copies: bytes that are in no string, or `s->b.data + offset`
as it was when the pointer was formed. -/
inductive Source (ι : Type)
  | bytes (s : Bytes)
  | data (s : ι) (block offset : Nat)

namespace Memory

variable {ι : Type} [DecidableEq ι]

def setBuffer (m : Memory ι) (s : ι) (b : Buffer) : Memory ι :=
  { m with buffers := Function.update m.buffers s b }

/-- `bytes` are written to the memory of `s`, from `start` on. -/
def write (m : Memory ι) (s : ι) (start : Nat) (bytes : Bytes) (source : Option (ι × Nat))
    (readable : Bool) : Memory ι :=
  let b := m.buffers s
  { m.setBuffer s { b with data := store b.data start bytes } with
    accesses := m.accesses ++
      [{ string := s, capacity := b.capacity, start, count := bytes.length, source, readable }] }

/-- `s->b.data[i] = c`. -/
def storeByte (m : Memory ι) (s : ι) (i : Nat) (c : UInt8) : Memory ι :=
  m.write s i [c] none true

/-- `memcpy(s->b.data + start, source, count)`. -/
def memcpy (m : Memory ι) (s : ι) (start : Nat) (source : Source ι) (count : Nat) : Memory ι :=
  match source with
  | .bytes bytes => m.write s start (bytes.take count) none (count ≤ bytes.length)
  | .data t block offset =>
      let b := m.buffers t
      m.write s start (load b.data offset count) (some (t, offset))
        (block = b.block ∧ offset + count ≤ b.capacity)

/-- `s->b.data + offset`. -/
def pointer (m : Memory ι) (s : ι) (offset : Nat) : Source ι :=
  .data s (m.buffers s).block offset

/-! ## Buffers -/

/-- `buffer_init`. `NULL` counts as an allocation of no bytes. -/
def bufferInit (m : Memory ι) (s : ι) : Memory ι :=
  { m.setBuffer s { capacity := 0, length := 0, data := m.junk m.blocks, block := m.blocks } with
    blocks := m.blocks + 1 }

/-- `buffer_set_capacity`. `realloc` moves the bytes that fit to memory of its
own. -/
def setCapacity (m : Memory ι) (s : ι) (newCapacity : Nat) : Memory ι :=
  let b := m.buffers s
  if newCapacity = b.capacity then m
  else
    { m.setBuffer s
        { capacity := newCapacity
          length := if newCapacity < b.length then newCapacity else b.length
          data := fun i => if i < min b.capacity newCapacity then b.data i else m.junk m.blocks i
          block := m.blocks } with
      blocks := m.blocks + 1 }

/-- `buffer_ensure_capacity`. -/
def ensureCapacity (m : Memory ι) (s : ι) (newCapacity : Nat) : Memory ι :=
  if (m.buffers s).capacity < newCapacity then m.setCapacity s newCapacity else m

/-- `buffer_set_length`. -/
def setLength (m : Memory ι) (s : ι) (newLength : Nat) : Memory ι :=
  if (m.buffers s).length = newLength then m
  else
    let m := m.ensureCapacity s newLength
    m.setBuffer s { m.buffers s with length := newLength }

/-- `buffer_append_bytes`. -/
def appendBytes (m : Memory ι) (s : ι) (source : Source ι) (len : Nat) : Memory ι :=
  let desiredLength := sizeAdd (m.buffers s).length len
  let desiredIndex := (m.buffers s).length
  (m.setLength s desiredLength).memcpy s desiredIndex source len

/-! ## Strings -/

/-- `string_init`. -/
def stringInit (m : Memory ι) (s : ι) : Memory ι :=
  ((m.bufferInit s).setLength s 1).storeByte s 0 0

/-- `string_init_cstr_len`. -/
def stringInitCstrLen (m : Memory ι) (s : ι) (c : Bytes) (len : Nat) : Memory ι :=
  let m := (m.bufferInit s).setCapacity s (sizeAdd len 1)
  let m := m.appendBytes s (.bytes c) len
  let m := m.setLength s (sizeAdd len 1)
  m.storeByte s len 0

/-- `string_get_length`. -/
def stringGetLength (m : Memory ι) (s : ι) : Nat :=
  sizeSub (m.buffers s).length 1

/-- The loop of `string_set_length`, `count` rounds from `i` on. -/
def fillLoop (m : Memory ι) (s : ι) (fill : UInt8) (i : Nat) : (count : Nat) → Memory ι
  | 0 => m
  | count + 1 => (m.storeByte s i fill).fillLoop s fill (i + 1) count

/-- `string_set_length`. -/
def stringSetLength (m : Memory ι) (s : ι) (newLen : Nat) (fill : UInt8) : Memory ι :=
  let oldLen := m.stringGetLength s
  let m := m.setLength s (sizeAdd newLen 1)
  let m := m.fillLoop s fill oldLen (newLen - oldLen)
  m.storeByte s newLen 0

/-- `string_clear`. -/
def stringClear (m : Memory ι) (s : ι) : Memory ι :=
  (m.setLength s 1).storeByte s 0 0

/-- `otherLen` bytes from `other` are added and the 0 behind them with them;
`other` is looked up once the memory is there. -/
def appendTerminated (m : Memory ι) (s : ι) (other : Memory ι → Source ι) (otherLen : Nat) :
    Memory ι :=
  let sLen := m.stringGetLength s
  let m := m.setCapacity s (sizeAdd (sizeAdd sLen otherLen) 1)
  let m := m.setLength s sLen
  m.appendBytes s (other m) (sizeAdd otherLen 1)

/-- `otherLen` bytes from `other` are added, and a 0 behind them. -/
def appendAndTerminate (m : Memory ι) (s : ι) (other : Memory ι → Source ι) (otherLen : Nat) :
    Memory ι :=
  let sLen := m.stringGetLength s
  let m := m.setCapacity s (sizeAdd (sizeAdd sLen otherLen) 1)
  let m := m.setLength s sLen
  let m := m.appendBytes s (other m) otherLen
  let m := m.setLength s (sizeAdd (sizeAdd sLen otherLen) 1)
  m.storeByte s (sizeAdd sLen otherLen) 0

/-- `string_append_str`. -/
def stringAppendStr (m : Memory ι) (s other : ι) : Memory ι :=
  m.appendTerminated s (fun m => m.pointer other 0) (m.stringGetLength other)

/-- `string_append_cstr`. -/
def stringAppendCstr (m : Memory ι) (s : ι) (other : Bytes) : Memory ι :=
  m.appendTerminated s (fun _ => .bytes other) (cstr other).length

/-- `string_append_cstr_len`. -/
def stringAppendCstrLen (m : Memory ι) (s : ι) (other : Bytes) (otherLen : Nat) : Memory ι :=
  m.appendAndTerminate s (fun _ => .bytes other) otherLen

/-- `string_append_substr`. -/
def stringAppendSubstr (m : Memory ι) (dst src : ι) (start stop : Nat) : Memory ι :=
  let srcLen := m.stringGetLength src
  if stop ≤ start ∨ srcLen ≤ start then m
  else
    let stop := if srcLen < stop then srcLen else stop
    m.appendAndTerminate dst (fun m => m.pointer src start) (stop - start)

/-- `string_set_str`. -/
def stringSetStr (m : Memory ι) (s other : ι) : Memory ι :=
  (m.stringClear s).stringAppendStr s other

/-- `string_set_cstr`. -/
def stringSetCstr (m : Memory ι) (s : ι) (other : Bytes) : Memory ι :=
  (m.stringClear s).stringAppendCstr s other

/-- `string_set_cstr_len`. -/
def stringSetCstrLen (m : Memory ι) (s : ι) (other : Bytes) (otherLen : Nat) : Memory ι :=
  (m.stringClear s).stringAppendCstrLen s other otherLen

/-- `string_set_substr`. -/
def stringSetSubstr (m : Memory ι) (dst src : ι) (start stop : Nat) : Memory ι :=
  if dst = src then
    let len := m.stringGetLength dst
    if stop ≤ start ∨ len ≤ start then m
    else
      let stop := if len < stop then len else stop
      let substrLen := stop - start
      let m := m.memcpy dst 0 (m.pointer src start) substrLen
      let m := m.storeByte dst substrLen 0
      m.setLength dst (sizeAdd substrLen 1)
  else (m.stringClear dst).stringAppendSubstr dst src start stop

/-- The loop of `string_tolower` and `string_toupper`, `count` rounds from `i`
on. -/
def mapLoop (m : Memory ι) (f : UInt8 → UInt8) (dst src : ι) (i : Nat) :
    (count : Nat) → Memory ι
  | 0 => m
  | count + 1 =>
      (m.storeByte dst i (f ((m.buffers src).data i))).mapLoop f dst src (i + 1) count

/-- `string_tolower` and `string_toupper`, apart from what they do to a
character. -/
def stringMap (m : Memory ι) (f : UInt8 → UInt8) (dst src : ι) : Memory ι :=
  let len := m.stringGetLength src
  let m := if dst ≠ src then m.stringSetLength dst len 0 else m
  m.mapLoop f dst src 0 len

/-- `c - 'a' + 'A'` for a lower case letter. -/
def toupper (c : UInt8) : UInt8 :=
  if 97 ≤ c ∧ c ≤ 122 then c - 32 else c

def stringTolower (m : Memory ι) (dst src : ι) : Memory ι :=
  m.stringMap tolower dst src

def stringToupper (m : Memory ι) (dst src : ι) : Memory ι :=
  m.stringMap toupper dst src

/-- Memory in which nothing was done yet, full of the byte 7. -/
def untouched : Memory Nat where
  buffers := fun _ => { capacity := 0, length := 0, data := fun _ => 7, block := 0 }
  blocks := 0
  junk := fun _ _ => 7
  accesses := []

end Memory

end CWebServer.Buffers
