import CWebServer.Lib.Runs
import CWebServer.Streams.BufferStream
import CWebServer.Streams.Sources

/-!
# Streams — BufferedReader

A buffered reader keeps what it has read of its input: its buffer is the part
of the input that was consumed, and its position walks over it. This holds as
long as no read of the input fails. The code that such a read returns goes
through a `size_t` and is taken for a number of bytes.
-/

namespace CWebServer.Streams

open CWebServer.Strings CWebServer.Lib CWebServer.Runs

namespace BufferedReader

variable {σ : Type}

/-! ## Calls -/

/-- The calls that change a buffered reader. -/
inductive Call
  | read (n : UInt64)
  | write (src : Bytes)
  | setPosition (pos : UInt64)

def step (read : StreamFuncRead σ) (s : BufferedReader σ) : Call → BufferedReader σ
  | .read n => (BufferedReader.read read s n.toNat).stream
  | .write src => (s.write src).2
  | .setPosition pos => (s.setPosition pos.toNat).2

/-- A read of `n` has to read the input, which fails. -/
def InputFails (read : StreamFuncRead σ) (s : BufferedReader σ) (n : Nat) : Prop :=
  s.available < n ∧ (read s.input (n - s.available)).result < 0

instance (read : StreamFuncRead σ) (s : BufferedReader σ) (n : Nat) :
    Decidable (InputFails read s n) :=
  inferInstanceAs (Decidable (_ ∧ _))

/-- No read of the input fails. -/
def NoFailure (read : StreamFuncRead σ) (s : BufferedReader σ) : Call → Prop
  | .read n => ¬InputFails read s n.toNat
  | _ => True

/-- The state after calls on a reader of `input`, each of which meets `ok`. -/
def After (read : StreamFuncRead σ) (ok : BufferedReader σ → Call → Prop) (input : σ)
    (s : BufferedReader σ) : Prop :=
  ∃ data, Reaches (fun s c => some (s.step read c)) ok (init input data) s

/-! ## One read -/

/-- What is available to a read of `n`, once the input was read for it. -/
def ahead (read : StreamFuncRead σ) (s : BufferedReader σ) (n : Nat) : Nat × BufferedReader σ :=
  if s.available < n then fill read s n else (s.available, s)

theorem ahead_of_le (read : StreamFuncRead σ) {s : BufferedReader σ} {n : Nat}
    (h : n ≤ s.available) : ahead read s n = (s.available, s) :=
  if_neg (by omega)

theorem ahead_position (read : StreamFuncRead σ) (s : BufferedReader σ) (n : Nat) :
    (ahead read s n).2.position = s.position := by
  unfold ahead
  split <;> rfl

theorem read_eq (read : StreamFuncRead σ) (s : BufferedReader σ) (n : Nat) :
    BufferedReader.read read s n =
      { result := toInt (min n (ahead read s n).1 : Nat)
        bytes := load (ahead read s n).2.buffer.data s.position (min n (ahead read s n).1)
        stream := { (ahead read s n).2 with
          position := s.position + min n (ahead read s n).1 } } := by
  have hcount : (if (ahead read s n).1 < n then (ahead read s n).1 else n)
      = min n (ahead read s n).1 := by
    split <;> omega
  rw [← hcount, ← ahead_position read s n]
  rfl

theorem available_eq {s : BufferedReader σ} (hposition : s.position ≤ s.buffer.length) :
    s.available = s.buffer.length - s.position :=
  if_pos hposition

section

variable (input : Input σ) {s : BufferedReader σ} {n : Nat}

/-- What the input gives stands behind the old contents. -/
theorem ahead_of_lt (hn : n < 2 ^ 64) (hlt : s.available < n) (hok : ¬InputFails input.read s n) :
    (ahead input.read s n).2.buffer.contents
        = s.buffer.contents ++ (input.read s.input (n - s.available)).bytes
      ∧ (ahead input.read s n).2.buffer.length
        = s.buffer.length + (input.read s.input (n - s.available)).bytes.length
      ∧ (ahead input.read s n).2.input = (input.read s.input (n - s.available)).stream
      ∧ (ahead input.read s n).1
        = s.available + (input.read s.input (n - s.available)).bytes.length := by
  have hle := input.length_le s.input (n - s.available)
  have hresult : (input.read s.input (n - s.available)).result
      = (input.read s.input (n - s.available)).bytes.length := by
    apply input.result_eq
    by_contra hneg
    exact hok ⟨hlt, by omega⟩
  obtain ⟨-, hcontents, hlength, hinput⟩ := streamReadBuffer_eq input.read s.input s.buffer
    (n - s.available) hresult
  have hahead : ahead input.read s n = fill input.read s n := if_pos hlt
  rw [hahead]
  refine ⟨hcontents, hlength, hinput, ?_⟩
  show sizeAdd s.available (sizeOfInt (input.read s.input (n - s.available)).result) = _
  rw [hresult]
  exact sizeAdd_sizeOfInt (by omega)

/-- All of what is available stands in the buffer behind the position. -/
theorem ahead_available (hn : n < 2 ^ 64) (hposition : s.position ≤ s.buffer.length)
    (hok : ¬InputFails input.read s n) :
    s.buffer.length ≤ (ahead input.read s n).2.buffer.length
      ∧ (ahead input.read s n).1 = (ahead input.read s n).2.buffer.length - s.position := by
  have havailable := available_eq hposition
  rcases Nat.lt_or_ge s.available n with hlt | hge
  · obtain ⟨-, hlength, -, hmore⟩ := ahead_of_lt input hn hlt hok
    omega
  · rw [ahead_of_le input.read hge]
    exact ⟨Nat.le_refl _, havailable⟩

end

/-! ## What was consumed of the input -/

/-- The buffer is what was consumed of `whole`, and the position is in it. -/
structure Caches (src : Source σ) (whole : Bytes) (s : BufferedReader σ) : Prop where
  contents : s.buffer.contents ++ src.rest s.input = whole
  position_le : s.position ≤ s.buffer.length

/-- A read of `n` gives the `k` bytes of `whole` at the position. -/
structure Gives (src : Source σ) (whole : Bytes) (s : BufferedReader σ) (n k : Nat) : Prop where
  le : k ≤ n
  length : (BufferedReader.read src.read s n).bytes.length = k
  bytes : (BufferedReader.read src.read s n).bytes = (whole.drop s.position).take k
  result : (BufferedReader.read src.read s n).result = toInt k
  position : (BufferedReader.read src.read s n).stream.position = s.position + k
  nothing : k = 0 → n = 0 ∨ (src.read s.input n).result = 0

section

variable (src : Source σ) {whole : Bytes} {s : BufferedReader σ} {n : Nat}

theorem not_inputFails : ¬InputFails src.read s n := by
  rintro ⟨-, hneg⟩
  have hnonneg := src.result_nonneg s.input (n - s.available)
  omega

variable {src} (h : Caches src whole s)
include h

/-- What the buffer has behind the position is what `whole` has there. -/
theorem Caches.load_eq {k : Nat} (hk : s.position + k ≤ s.buffer.length) :
    load s.buffer.data s.position k = (whole.drop s.position).take k := by
  have hlength := s.buffer.length_contents
  rw [s.buffer.load_eq hk, ← h.contents, List.drop_append_of_le_length (by omega),
    List.take_append_of_le_length (by rw [List.length_drop]; omega)]

variable (hn : n < 2 ^ 64)
include hn

theorem Caches.ahead : Caches src whole (ahead src.read s n).2 := by
  have hok := not_inputFails src (s := s) (n := n)
  refine ⟨?_, ?_⟩
  · rcases Nat.lt_or_ge s.available n with hlt | hge
    · obtain ⟨hcontents, -, hinput, -⟩ := ahead_of_lt src.toInput hn hlt hok
      rw [hcontents, hinput, List.append_assoc, src.append_rest]
      exact h.contents
    · rw [ahead_of_le src.read hge]
      exact h.contents
  · have hmore := (ahead_available src.toInput hn h.position_le hok).1
    have hposition := h.position_le
    rw [ahead_position]
    omega

theorem Caches.gives : ∃ k, Gives src whole s n k := by
  have hok := not_inputFails src (s := s) (n := n)
  have hread := read_eq src.read s n
  have hposition := h.position_le
  obtain ⟨hmore, havailable⟩ := ahead_available src.toInput hn hposition hok
  have hload := (h.ahead hn).load_eq (k := min n (BufferedReader.ahead src.read s n).1)
    (by rw [ahead_position]; omega)
  rw [ahead_position] at hload
  refine ⟨min n (BufferedReader.ahead src.read s n).1, Nat.min_le_left _ _, ?_, ?_, ?_, ?_, ?_⟩
  · rw [hread, length_load]
  · rw [hread]
    exact hload
  · rw [hread]
  · rw [hread]
  · intro hnone
    rcases Nat.lt_or_ge s.available n with hlt | hge
    · obtain ⟨-, -, -, hcount⟩ := ahead_of_lt src.toInput hn hlt hok
      have hempty : s.available = 0 := by omega
      rw [hempty, Nat.sub_zero] at hcount
      right
      rw [src.result_eq_length]
      omega
    · rw [ahead_of_le src.read hge] at hnone
      have hnone : min n s.available = 0 := hnone
      left
      omega

theorem Caches.afterRead : Caches src whole (BufferedReader.read src.read s n).stream := by
  have hok := not_inputFails src (s := s) (n := n)
  have hposition := h.position_le
  obtain ⟨hmore, havailable⟩ := ahead_available src.toInput hn hposition hok
  rw [read_eq]
  refine ⟨(h.ahead hn).contents, ?_⟩
  show s.position + _ ≤ (BufferedReader.ahead src.read s n).2.buffer.length
  omega

end

theorem position_le_setPosition (s : BufferedReader σ) (pos : Nat) :
    (s.setPosition pos).2.position ≤ s.buffer.length := by
  simp only [BufferedReader.setPosition]
  split <;> omega

theorem Caches.step {src : Source σ} {whole : Bytes} {s : BufferedReader σ}
    (h : Caches src whole s) (c : Call) : Caches src whole (s.step src.read c) := by
  cases c with
  | read n => exact h.afterRead n.toNat_lt
  | write data => exact h
  | setPosition pos => exact ⟨h.contents, position_le_setPosition s pos.toNat⟩

theorem After.caches {src : Source σ} {x : σ} {s : BufferedReader σ}
    (h : After src.read Always x s) : Caches src (src.rest x) s := by
  obtain ⟨data, hreaches⟩ := h
  apply hreaches.invariant (I := Caches src (src.rest x))
  · exact ⟨rfl, Nat.le_refl 0⟩
  · intro s c s' hcaches _ hs
    cases hs
    exact hcaches.step c

/-- **A buffered reader gives what its input gives**, from any position in it
that was read before. -/
theorem after_gives {src : Source σ} {x : σ} {s : BufferedReader σ}
    (h : After src.read Always x s) :
    Caches src (src.rest x) s ∧ ∀ n : UInt64, ∃ k, Gives src (src.rest x) s n.toNat k :=
  ⟨h.caches, fun n => h.caches.gives n.toNat_lt⟩

/-- A read of 3 that the input cuts to 2, then a seek back. -/
theorem after_gives_seek :
    Caches scripted.toSource (ascii "Hello")
        (((init ⟨ascii "Hello", [1]⟩ fun _ => 0).step scripted.read (.read 3)).step
          scripted.read (.setPosition 1))
      ∧ ∀ n : UInt64, ∃ k, Gives scripted.toSource (ascii "Hello")
        (((init ⟨ascii "Hello", [1]⟩ fun _ => 0).step scripted.read (.read 3)).step
          scripted.read (.setPosition 1)) n.toNat k := by
  have hread : Reaches (fun s c => some (step scripted.read s c)) Always
      (init ⟨ascii "Hello", [1]⟩ fun _ => 0) _ :=
    Reaches.refl.tail (a := Call.read 3) trivial rfl
  have hseek : After scripted.read Always ⟨ascii "Hello", [1]⟩ _ :=
    ⟨_, hread.tail (a := Call.setPosition 1) trivial rfl⟩
  exact after_gives hseek

/-! ## Errors of the input -/

/-- A read reports that the input failed, and changes nothing then. What it
copies is within the buffer. -/
structure ErrorRule (read : StreamFuncRead σ) (s : BufferedReader σ) (n : Nat) : Prop where
  failed : InputFails read s n → (BufferedReader.read read s n).result < 0
    ∧ (BufferedReader.read read s n).stream.position = s.position
    ∧ (BufferedReader.read read s n).stream.buffer.contents = s.buffer.contents
  within : s.position + (BufferedReader.read read s n).bytes.length
    ≤ (BufferedReader.read read s n).stream.buffer.length

section

variable (input : Input σ) {s : BufferedReader σ} {n : Nat}

theorem errorRule_of_position_le (hn : n < 2 ^ 64) (hposition : s.position ≤ s.buffer.length)
    (hok : ¬InputFails input.read s n) : ErrorRule input.read s n := by
  refine ⟨fun hfails => absurd hfails hok, ?_⟩
  obtain ⟨hmore, havailable⟩ := ahead_available input hn hposition hok
  rw [read_eq, length_load]
  show s.position + _ ≤ (ahead input.read s n).2.buffer.length
  omega

/-- A failed read moves the position or returns 0. -/
theorem not_errorRule_of_inputFails (read : StreamFuncRead σ) (hfails : InputFails read s n) :
    ¬ErrorRule read s n := by
  intro hrule
  obtain ⟨hnegative, hposition, -⟩ := hrule.failed hfails
  rw [read_eq] at hnegative hposition
  have hposition : s.position + min n (ahead read s n).1 = s.position := hposition
  have hzero : min n (ahead read s n).1 = 0 := by omega
  rw [hzero] at hnegative
  have hnegative : toInt 0 < 0 := hnegative
  exact absurd hnegative (by decide)

theorem position_le_step (hposition : s.position ≤ s.buffer.length) {c : Call}
    (hok : NoFailure input.read s c) :
    (s.step input.read c).position ≤ (s.step input.read c).buffer.length := by
  cases c with
  | read n =>
      have hwithin := (errorRule_of_position_le input n.toNat_lt hposition hok).within
      rw [read_eq, length_load] at hwithin
      show (BufferedReader.read input.read s n.toNat).stream.position ≤ _
      rw [step, read_eq]
      exact hwithin
  | write src => exact hposition
  | setPosition pos => exact position_le_setPosition s pos.toNat

end

/-- As long as no read of the input fails, the position is within the buffer. -/
theorem After.position_le {input : Input σ} {x : σ} {s : BufferedReader σ}
    (h : After input.read (NoFailure input.read) x s) : s.position ≤ s.buffer.length := by
  obtain ⟨data, hreaches⟩ := h
  apply hreaches.invariant (I := fun s => s.position ≤ s.buffer.length)
  · exact Nat.le_refl 0
  · intro s c s' hposition hok hs
    cases hs
    exact position_le_step input hposition hok

/-- **Errors of the input** are never reported: the rule holds as long as
there are none, and fails at the first one. -/
theorem errorRule_iff {input : Input σ} {x : σ} {s : BufferedReader σ}
    (h : After input.read (NoFailure input.read) x s) (n : UInt64) :
    ErrorRule input.read s n.toNat ↔ ¬InputFails input.read s n.toNat := by
  constructor
  · intro hrule hfails
    exact not_errorRule_of_inputFails input.read hfails hrule
  · exact errorRule_of_position_le input n.toNat_lt h.position_le

theorem errorRule_iff_scripted :
    ErrorRule scripted.read
        ((init ⟨ascii "Hello", [1]⟩ fun _ => 0).step scripted.read (.read 3)) 4
      ↔ ¬InputFails scripted.read
        ((init ⟨ascii "Hello", [1]⟩ fun _ => 0).step scripted.read (.read 3)) 4 := by
  have hok : NoFailure scripted.read (init ⟨ascii "Hello", [1]⟩ fun _ => 0) (.read 3) :=
    fun hfails => absurd hfails.2 (by decide)
  have hread : After scripted.read (NoFailure scripted.read) ⟨ascii "Hello", [1]⟩ _ :=
    ⟨_, Reaches.refl.tail hok rfl⟩
  exact errorRule_iff hread 4

/-- An input of which every read fails. -/
def failing : Input Unit where
  read := fun _ _ => { result := -1, bytes := [], stream := () }
  length_le := fun _ n => Nat.zero_le n
  result_eq := fun _ _ h => absurd h (by decide)

/-- The -1 that the input returns becomes 2^64 - 1 available bytes: 5 bytes
are copied from behind an empty buffer. -/
theorem not_errorRule :
    InputFails failing.read (init () fun _ => 0) 5
      ∧ (BufferedReader.read failing.read (init () fun _ => 0) 5).result = 5
      ∧ (BufferedReader.read failing.read (init () fun _ => 0) 5).stream.position = 5
      ∧ (BufferedReader.read failing.read (init () fun _ => 0) 5).stream.buffer.length = 0
      ∧ ¬ErrorRule failing.read (init () fun _ => 0) 5 := by
  refine ⟨by decide, by decide, by decide, by decide, ?_⟩
  intro hrule
  exact absurd hrule.within (by decide)

/-! ## Saving a position -/

/-- Seeking the position that the stream has returns it and changes nothing. -/
def RestoresPosition (s : BufferedReader σ) : Prop :=
  s.setPosition s.getPosition = (s.getPosition, s)

theorem restoresPosition_iff_position_le (s : BufferedReader σ) :
    s.RestoresPosition ↔ s.position ≤ s.buffer.length := by
  constructor
  · intro hrestores
    have hsame : s = (s.setPosition s.position).2 := (congrArg Prod.snd hrestores).symm
    rw [hsame]
    exact position_le_setPosition s s.position
  · intro hposition
    have hpos : (if s.buffer.length < s.position then s.buffer.length else s.position)
        = s.position := if_neg (by omega)
    exact Prod.ext hpos (congrArg (fun pos => { s with position := pos }) hpos)

end BufferedReader

/-- **Saving a position** and restoring it changes nothing, but at the end of
a buffer stream that is not empty, and behind the buffer of a buffered reader,
where only a failed read of the input gets it. -/
theorem restoresPosition_iff {b : Buffer} {s : BufferStream} (h : BufferStream.After Always b s)
    {σ : Type} (input : Input σ) (x : σ) (r : BufferedReader σ) :
    (s.RestoresPosition ↔ s.position < s.buffer.length ∨ s.buffer.length = 0)
      ∧ (r.RestoresPosition ↔ r.position ≤ r.buffer.length)
      ∧ (BufferedReader.After input.read (BufferedReader.NoFailure input.read) x r →
        r.RestoresPosition) := by
  obtain ⟨f, hf⟩ := h.shows
  have hiff := r.restoresPosition_iff_position_le
  refine ⟨hf.restoresPosition, hiff, ?_⟩
  exact fun hr => hiff.mpr hr.position_le

theorem restoresPosition_iff_start :
    ((BufferStream.init (.ofBytes [] 0)).RestoresPosition ↔ 0 < 0 ∨ 0 = 0)
      ∧ (BufferedReader.init (⟨ascii "Hello", []⟩ : Script) fun _ => 0).RestoresPosition := by
  have hstart : BufferStream.After Always (.ofBytes [] 0) (BufferStream.init (.ofBytes [] 0)) :=
    Reaches.refl
  have hboth := restoresPosition_iff hstart scripted.toInput ⟨ascii "Hello", []⟩
    (BufferedReader.init ⟨ascii "Hello", []⟩ fun _ => 0)
  exact ⟨hboth.1, hboth.2.2 ⟨_, .refl⟩⟩

/-- After writing "ab" the position is 2, and seeking 2 moves to 1. -/
theorem not_restoresPosition :
    ∃ s : BufferStream, BufferStream.After Always (.ofBytes [] 0) s
      ∧ s.getPosition = 2 ∧ (s.setPosition 2).1 = 1 ∧ ¬s.RestoresPosition := by
  have hwritten : BufferStream.After Always (.ofBytes [] 0) _ :=
    Reaches.refl.tail (a := BufferStream.Call.write (ascii "ab")) trivial rfl
  refine ⟨_, hwritten, by decide, by decide, ?_⟩
  intro hrestores
  have hmoved : (1 : Nat) = 2 := congrArg Prod.fst hrestores
  cases hmoved

end CWebServer.Streams
