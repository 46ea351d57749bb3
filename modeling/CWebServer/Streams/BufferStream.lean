import CWebServer.Http.Response
import CWebServer.Lib.Files
import CWebServer.Lib.Runs
import CWebServer.Streams.Model

/-!
# Streams — BufferStream

A buffer stream is a file: its position stays within the buffer, reads give
what stands behind it and writes replace that. Only seeking is not what a file
has it: the end of a buffer cannot be sought, so a position saved there is not
restored.
-/

namespace CWebServer.Streams

open CWebServer.Strings CWebServer.Lib CWebServer.Runs

/-! ## Contents -/

namespace Buffer

variable (b : Buffer)

@[simp] theorem length_contents : b.contents.length = b.length := length_load _ _ _

theorem load_eq {start n : Nat} (h : start + n ≤ b.length) :
    load b.data start n = (b.contents.drop start).take n := by
  rw [contents, drop_load, take_load, Nat.zero_add, Nat.min_eq_left (by omega)]

end Buffer

/-! ## Files -/

namespace BufferStream

/-- The stream has the contents and the position of a file. -/
def Shows (s : BufferStream) (f : File UInt8) : Prop :=
  s.buffer.contents = f.contents ∧ s.position = f.position

section

variable {s : BufferStream} {f : File UInt8} (h : s.Shows f)
include h

theorem Shows.length : s.buffer.length = f.contents.length := by
  rw [← h.1, Buffer.length_contents]

theorem Shows.position_le : s.position ≤ s.buffer.length := by
  rw [h.length, h.2]
  exact f.position_le

/-- A read is that of the file. -/
theorem Shows.read (n : Nat) :
    (s.read n).bytes = f.read n ∧ (s.read n).result = toInt (f.read n).length
      ∧ (s.read n).stream.buffer = s.buffer ∧ (s.read n).stream.Shows (f.afterRead n) := by
  have hposition := h.position_le
  have hremaining : (if sizeSub s.buffer.length s.position < n
      then sizeSub s.buffer.length s.position else n) = (f.read n).length := by
    rw [File.length_read, ← h.2, ← h.length, sizeSub, if_pos hposition]
    split <;> omega
  have hbytes : load s.buffer.data s.position (f.read n).length = f.read n := by
    have hcount := f.length_read n
    rw [← h.2, ← h.length] at hcount
    rw [s.buffer.load_eq (by omega), h.1, h.2]
    exact (List.prefix_iff_eq_take.mp (List.take_prefix n _)).symm
  have hposition' : s.position + (f.read n).length = (f.afterRead n).position := by rw [h.2]; rfl
  refine ⟨?_, ?_, rfl, h.1, ?_⟩
  · simp only [BufferStream.read, hremaining, hbytes]
  · simp only [BufferStream.read, hremaining]
  · simp only [BufferStream.read, hremaining, hposition']

/-- A write is that of the file. -/
theorem Shows.write (src : Bytes) :
    (s.write src).1 = toInt src.length ∧ (s.write src).2.Shows (f.write src) := by
  have hlength : (s.write src).2.buffer.length
      = max s.buffer.length (s.position + src.length) := by
    simp only [BufferStream.write, Buffer.copyTo, Buffer.setLength]
    split
    · show s.position + src.length = _
      omega
    · omega
  have hdata : (s.write src).2.buffer.data = store s.buffer.data s.position src := by
    simp only [BufferStream.write, Buffer.copyTo, Buffer.setLength]
    split <;> rfl
  have hposition := h.position_le
  refine ⟨rfl, ?_, congrArg (· + src.length) h.2⟩
  rw [Buffer.contents, hlength, hdata, load_store]
  show _ = f.contents.take f.position ++ src ++ f.contents.drop (f.position + src.length)
  rw [← h.1, ← h.2, Buffer.contents, take_load, drop_load, Nat.min_eq_left hposition,
    Nat.zero_add]

/-- Seeking changes the position, which is within the buffer afterwards. -/
theorem Shows.setPosition (pos : Nat) :
    (s.setPosition pos).2.buffer = s.buffer
      ∧ (s.setPosition pos).2.position = (s.setPosition pos).1
      ∧ ∃ hle : (s.setPosition pos).1 ≤ f.contents.length,
        (s.setPosition pos).2.Shows (f.moveTo (s.setPosition pos).1 hle) := by
  have hle : (s.setPosition pos).1 ≤ f.contents.length := by
    rw [← h.length]
    simp only [BufferStream.setPosition]
    split
    · omega
    · split <;> omega
  exact ⟨rfl, rfl, hle, h.1, rfl⟩

end

/-! ## Calls -/

/-- The calls that change a buffer stream. -/
inductive Call
  | read (n : UInt64)
  | write (src : Bytes)
  | setPosition (pos : UInt64)
  /-- What `http_response_clear` does to the body. -/
  | clear

/-- `buffer_clear`, and `stream_set_position` to 0. -/
def clear (s : BufferStream) : BufferStream :=
  ({ s with buffer := s.buffer.clear }.setPosition 0).2

def step (s : BufferStream) : Call → BufferStream
  | .read n => (s.read n.toNat).stream
  | .write src => (s.write src).2
  | .setPosition pos => (s.setPosition pos.toNat).2
  | .clear => s.clear

/-- What is written ends below 2^31. -/
def SizeFits (s : BufferStream) : Call → Prop
  | .write src => s.position + src.length < 2 ^ 31
  | _ => True

/-- The state after calls on a stream for `b`, each of which meets `ok`. -/
def After (ok : BufferStream → Call → Prop) (b : Buffer) (s : BufferStream) : Prop :=
  Reaches (fun s c => some (s.step c)) ok (init b) s

/-- A call on a file leaves a file. -/
theorem Shows.step {s : BufferStream} {f : File UInt8} (h : s.Shows f) (c : Call) :
    ∃ f', (s.step c).Shows f' := by
  cases c with
  | read n => exact ⟨_, (h.read n.toNat).2.2.2⟩
  | write src => exact ⟨_, (h.write src).2⟩
  | setPosition pos =>
      obtain ⟨-, -, hle, hshows⟩ := h.setPosition pos.toNat
      exact ⟨_, hshows⟩
  | clear => exact ⟨.empty, rfl, rfl⟩

/-- **A buffer stream is a file** after any calls. -/
theorem After.shows {ok : BufferStream → Call → Prop} {b : Buffer} {s : BufferStream}
    (h : After ok b s) : ∃ f, s.Shows f := by
  apply h.invariant (I := fun s => ∃ f, s.Shows f)
  · exact ⟨⟨b.contents, 0, Nat.zero_le _⟩, rfl, rfl⟩
  · rintro s c s' ⟨f, hf⟩ - hs
    cases hs
    exact hf.step c

theorem After.length_lt {b : Buffer} {s : BufferStream} (h : After SizeFits b s)
    (hb : b.length < 2 ^ 31) : s.buffer.length < 2 ^ 31 := by
  have hboth : (∃ f, s.Shows f) ∧ s.buffer.length < 2 ^ 31 := by
    apply h.invariant (I := fun s => (∃ f, s.Shows f) ∧ s.buffer.length < 2 ^ 31)
    · exact ⟨⟨⟨b.contents, 0, Nat.zero_le _⟩, rfl, rfl⟩, hb⟩
    · rintro s c s' ⟨⟨f, hf⟩, hlt⟩ hfits hs
      cases hs
      refine ⟨hf.step c, ?_⟩
      cases c with
      | read n =>
          show (s.read n.toNat).stream.buffer.length < _
          rw [(hf.read n.toNat).2.2.1]
          exact hlt
      | write src =>
          have hfits : s.position + src.length < 2 ^ 31 := hfits
          have hwrite := (hf.write src).2.length
          rw [File.write, File.length_write, ← hf.length, ← hf.2] at hwrite
          show (s.write src).2.buffer.length < _
          omega
      | setPosition pos => exact hlt
      | clear => exact Nat.pos_of_ne_zero (by decide)
  exact hboth.2

/-! ## Reads, writes and seeks -/

/-- What the calls on a buffer stream do. -/
structure Rule (s : BufferStream) : Prop where
  position_le : s.position ≤ s.buffer.length
  read : ∀ n : UInt64,
    (s.read n.toNat).bytes = (s.buffer.contents.drop s.position).take
        (min n.toNat (s.buffer.length - s.position))
      ∧ (s.read n.toNat).result = min n.toNat (s.buffer.length - s.position)
      ∧ (s.read n.toNat).stream.buffer = s.buffer
      ∧ (s.read n.toNat).stream.position = s.position + (s.read n.toNat).result
  write : ∀ src, s.SizeFits (.write src) →
    (s.write src).2.buffer.contents = s.buffer.contents.take s.position ++ src
        ++ s.buffer.contents.drop (s.position + src.length)
      ∧ (s.write src).1 = src.length
      ∧ (s.write src).2.buffer.length = max s.buffer.length (s.position + src.length)
      ∧ (s.write src).2.position = s.position + (s.write src).1
  setPosition : ∀ pos : UInt64, (s.setPosition pos.toNat).2.buffer = s.buffer
    ∧ (s.setPosition pos.toNat).2.position = (s.setPosition pos.toNat).1
  clear : s.clear.buffer.contents = [] ∧ s.clear.position = 0

/-- **The calls on a buffer stream** read and write its buffer at the
position, whatever calls came before. -/
theorem after_rule {b : Buffer} {s : BufferStream} (h : After SizeFits b s)
    (hb : b.length < 2 ^ 31) : s.Rule := by
  obtain ⟨f, hf⟩ := h.shows
  have hlt := h.length_lt hb
  have hposition := hf.position_le
  refine ⟨hposition, ?_, ?_, fun pos => ⟨rfl, rfl⟩, rfl, rfl⟩
  · intro n
    obtain ⟨hbytes, hresult, hbuffer, -, hmoved⟩ := hf.read n.toNat
    have hcount := f.length_read n.toNat
    rw [← hf.length, ← hf.2] at hcount
    rw [hcount, toInt_of_lt (by omega)] at hresult
    refine ⟨?_, hresult, hbuffer, ?_⟩
    · rw [hbytes, File.read, ← hf.1, ← hf.2, List.take_eq_take_iff, List.length_drop,
        Buffer.length_contents]
      omega
    · rw [hmoved, hresult]
      show ((f.position + (f.read n.toNat).length : Nat) : Int) = _
      rw [hcount, ← hf.2]
      omega
  · intro src hfits
    have hfits : s.position + src.length < 2 ^ 31 := hfits
    obtain ⟨hresult, hshows⟩ := hf.write src
    rw [toInt_of_lt (by omega)] at hresult
    refine ⟨?_, hresult, ?_, ?_⟩
    · rw [hshows.1, hf.1, hf.2]
      rfl
    · rw [hshows.length, File.write, File.length_write, ← hf.length, ← hf.2]
    · rw [hresult]
      rfl

theorem after_rule_written :
    (((init (.ofBytes (ascii "Hello") 0)).step (.write (ascii "J"))).step (.read 9)).Rule := by
  have hwritten : After SizeFits (.ofBytes (ascii "Hello") 0) _ :=
    Reaches.refl.tail (a := Call.write (ascii "J")) (show 0 + 1 < 2 ^ 31 by decide) rfl
  exact after_rule (hwritten.tail (a := Call.read 9) trivial rfl) (by decide)

/-! ## The body of a response -/

/-- The body of a response and the position of its stream. -/
def bodyFile (r : Http.HttpResponse) : File UInt8 :=
  ⟨r.bodyBuffer, r.bodyPosition, r.bodyPosition_le⟩

/-- The stream of a body does what the response does. -/
theorem Shows.body {s : BufferStream} {r : Http.HttpResponse} (h : s.Shows (bodyFile r))
    (src : Bytes) :
    (s.write src).2.Shows (bodyFile (r.writeBody src)) ∧ s.clear.Shows (bodyFile r.clear) :=
  ⟨(h.write src).2, rfl, rfl⟩

/-! ## Saving a position -/

/-- Seeking the position that the stream has returns it and changes nothing. -/
def RestoresPosition (s : BufferStream) : Prop :=
  s.setPosition s.getPosition = (s.getPosition, s)

/-- It does, but not at the end of a buffer that is not empty. -/
theorem Shows.restoresPosition {s : BufferStream} {f : File UInt8} (h : s.Shows f) :
    s.RestoresPosition ↔ s.position < s.buffer.length ∨ s.buffer.length = 0 := by
  have hposition := h.position_le
  have hsame : s.RestoresPosition ↔ (s.setPosition s.position).1 = s.position := by
    constructor
    · exact fun hrestores => congrArg Prod.fst hrestores
    · intro hpos
      exact Prod.ext hpos (congrArg (fun pos => { s with position := pos }) hpos)
  rw [hsame]
  simp only [BufferStream.setPosition]
  split
  · omega
  · split <;> omega

end BufferStream

end CWebServer.Streams
