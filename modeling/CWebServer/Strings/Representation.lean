import CWebServer.Lib.Delimiters
import CWebServer.Strings.Buffers

/-!
# Strings — Representation

A string represents its contents: its buffer has them and a 0 behind them,
within the capacity. Each function that changes a string takes off the 0,
resizes and writes, and restores this; with sums of sizes that do not wrap,
what it does to the contents is what it does to a list of bytes, and no write
leaves the memory of the string.
-/

namespace CWebServer.Buffers

open CWebServer.Lib CWebServer.Strings
open CWebServer.Streams (sizeAdd sizeSub)

/-! ## Writes to one string -/

section Only

variable {ι : Type} {P : Access ι → Prop} {s : ι} {m m' m'' : Memory ι}

/-- `m'` comes after `m` by writes to `s` only, each of them with `P`. -/
structure Only (P : Access ι → Prop) (s : ι) (m m' : Memory ι) : Prop where
  frame : ∀ t, t ≠ s → m'.buffers t = m.buffers t
  log : ∃ new, m'.accesses = m.accesses ++ new ∧ ∀ a ∈ new, P a

theorem Only.refl (m : Memory ι) : Only P s m m :=
  ⟨fun _ _ => rfl, [], (List.append_nil _).symm, fun _ h => absurd h List.not_mem_nil⟩

theorem Only.trans (h : Only P s m m') (h' : Only P s m' m'') : Only P s m m'' := by
  obtain ⟨new, hnew, hp⟩ := h.log
  obtain ⟨new', hnew', hp'⟩ := h'.log
  refine ⟨fun t ht => (h'.frame t ht).trans (h.frame t ht), new ++ new', ?_, ?_⟩
  · rw [hnew', hnew, List.append_assoc]
  · intro a ha
    rcases List.mem_append.mp ha with ha | ha
    · exact hp a ha
    · exact hp' a ha

theorem Only.of_accesses (hframe : ∀ t, t ≠ s → m'.buffers t = m.buffers t)
    (h : m'.accesses = m.accesses) : Only P s m m' :=
  ⟨hframe, [], by rw [h, List.append_nil], fun _ h => absurd h List.not_mem_nil⟩

/-- What held of the log so far holds of all of it. -/
theorem Only.forall_accesses (h : Only P s m m') (hold : ∀ a ∈ m.accesses, P a) :
    ∀ a ∈ m'.accesses, P a := by
  obtain ⟨new, hnew, hp⟩ := h.log
  intro a ha
  rw [hnew] at ha
  rcases List.mem_append.mp ha with ha | ha
  · exact hold a ha
  · exact hp a ha

end Only

/-- A write that is in bounds and copies no bytes onto each other. -/
def Access.Proper {ι : Type} (a : Access ι) : Prop :=
  a.InBounds ∧ a.Apart

/-- The first bytes of a buffer are `w`. -/
structure Front (b : Buffer) (w : Bytes) : Prop where
  room : w.length ≤ b.capacity
  bytes : load b.data 0 w.length = w

theorem Front.mono {b : Buffer} {v w : Bytes} (h : Front b w) (hv : v <+: w) : Front b v := by
  have htake := congrArg (List.take v.length) h.bytes
  rw [take_load, Nat.min_eq_left hv.length_le, ← List.prefix_iff_eq_take.mp hv] at htake
  exact ⟨Nat.le_trans hv.length_le h.room, htake⟩

theorem Front.load {b : Buffer} {w : Bytes} (h : Front b w) {start n : Nat}
    (hn : start + n ≤ w.length) : Lib.load b.data start n = (w.drop start).take n := by
  have hdrop : (Lib.load b.data 0 w.length).drop start
      = Lib.load b.data start (w.length - start) := by
    rw [drop_load, Nat.zero_add]
  rw [h.bytes] at hdrop
  rw [hdrop, take_load, Nat.min_eq_left (by omega)]

/-- **The representation**: the contents of a string and how its buffer has
them. -/
structure Represents (b : Buffer) (w : Bytes) : Prop where
  one_le : 1 ≤ b.length
  le_capacity : b.length ≤ b.capacity
  terminated : b.data (b.length - 1) = 0
  contents : load b.data 0 (b.length - 1) = w

theorem Represents.length {b : Buffer} {w : Bytes} (h : Represents b w) :
    b.length = w.length + 1 := by
  have hlength := congrArg List.length h.contents
  rw [length_load] at hlength
  have hone := h.one_le
  omega

theorem Represents.unique {b : Buffer} {v w : Bytes} (h : Represents b v) (h' : Represents b w) :
    v = w :=
  h.contents.symm.trans h'.contents

theorem Represents.front {b : Buffer} {w : Bytes} (h : Represents b w) : Front b (w ++ [0]) := by
  have hlength := h.length
  have hcap := h.le_capacity
  have hterminated := h.terminated
  have hcontents := h.contents
  rw [hlength, Nat.add_sub_cancel] at hterminated hcontents
  refine ⟨?_, ?_⟩
  · rw [List.length_append, List.length_singleton]
    omega
  · rw [List.length_append, List.length_singleton, load_add, hcontents, Nat.zero_add]
    simp [load, hterminated]

/-- A buffer with the contents and the 0 in front, cut off behind them. -/
theorem represents_of_front {b : Buffer} {w : Bytes} (h : Front b (w ++ [0]))
    (hlength : b.length = w.length + 1) : Represents b w := by
  have hroom := h.room
  have hcontents := (h.mono (List.prefix_append w [0])).bytes
  have hterminated : load b.data w.length 1 = ((w ++ [0]).drop w.length).take 1 :=
    h.load (by simp)
  rw [List.length_append, List.length_singleton] at hroom
  rw [List.drop_left] at hterminated
  have hbyte : [b.data w.length] = [0] := hterminated
  refine ⟨by omega, by omega, ?_, ?_⟩
  · rw [hlength, Nat.add_sub_cancel]
    exact List.singleton_inj.mp hbyte
  · rw [hlength, Nat.add_sub_cancel]
    exact hcontents

/-- The string and the offset that a pointer goes to. -/
def Source.origin {ι : Type} : Source ι → Option (ι × Nat)
  | .bytes _ => none
  | .data t _ offset => some (t, offset)

namespace Memory

variable {ι : Type} [DecidableEq ι] (m : Memory ι) (s : ι)

@[simp] theorem setBuffer_buffers_self (b : Buffer) : (m.setBuffer s b).buffers s = b := by
  simp [setBuffer]

@[simp] theorem setBuffer_accesses (b : Buffer) : (m.setBuffer s b).accesses = m.accesses := rfl

variable {s} in
theorem setBuffer_buffers_of_ne {t : ι} (h : t ≠ s) (b : Buffer) :
    (m.setBuffer s b).buffers t = m.buffers t := by
  simp [setBuffer, h]

/-! ## Resizing -/

theorem setCapacity_of_eq {n : Nat} (h : n = (m.buffers s).capacity) : m.setCapacity s n = m :=
  if_pos h

theorem setCapacity_of_ne {n : Nat} (h : n ≠ (m.buffers s).capacity) :
    (m.setCapacity s n).buffers s =
      { capacity := n
        length := if n < (m.buffers s).length then n else (m.buffers s).length
        data := fun i =>
          if i < min (m.buffers s).capacity n then (m.buffers s).data i else m.junk m.blocks i
        block := m.blocks } := by
  rw [setCapacity, if_neg h]
  exact m.setBuffer_buffers_self s _

@[simp] theorem setCapacity_capacity (n : Nat) :
    ((m.setCapacity s n).buffers s).capacity = n := by
  by_cases h : n = (m.buffers s).capacity
  · rw [m.setCapacity_of_eq s h, h]
  · rw [m.setCapacity_of_ne s h]

theorem setCapacity_length {n : Nat} (h : (m.buffers s).length ≤ (m.buffers s).capacity) :
    ((m.setCapacity s n).buffers s).length = min (m.buffers s).length n := by
  by_cases hn : n = (m.buffers s).capacity
  · rw [m.setCapacity_of_eq s hn]
    omega
  · rw [m.setCapacity_of_ne s hn]
    show (if n < (m.buffers s).length then n else (m.buffers s).length) = _
    split <;> omega

variable {m s}

/-- `realloc` keeps the bytes that fit. -/
theorem setCapacity_front {w : Bytes} (h : Front (m.buffers s) w) {n : Nat} (hn : w.length ≤ n) :
    Front ((m.setCapacity s n).buffers s) w := by
  by_cases hsame : n = (m.buffers s).capacity
  · rwa [m.setCapacity_of_eq s hsame]
  · rw [m.setCapacity_of_ne s hsame]
    refine ⟨hn, ?_⟩
    conv => rhs; rw [← h.bytes]
    apply load_congr
    intro i _ hi
    have hroom := h.room
    exact if_pos (by omega)

variable (m s)

theorem setLength_of_le {n : Nat} (h : n ≤ (m.buffers s).capacity) :
    (m.setLength s n).buffers s = { m.buffers s with length := n } := by
  unfold setLength
  by_cases hsame : (m.buffers s).length = n
  · rw [if_pos hsame, ← hsame]
  · have hensure : m.ensureCapacity s n = m := if_neg (by omega)
    rw [if_neg hsame]
    simp only [hensure, setBuffer_buffers_self]

theorem setLength_of_lt {n : Nat} (h : (m.buffers s).capacity < n)
    (hlength : (m.buffers s).length ≤ (m.buffers s).capacity) :
    (m.setLength s n).buffers s = { (m.setCapacity s n).buffers s with length := n } := by
  have hsame : ¬ (m.buffers s).length = n := by omega
  have hensure : m.ensureCapacity s n = m.setCapacity s n := if_pos h
  unfold setLength
  rw [if_neg hsame]
  simp only [hensure, setBuffer_buffers_self]

@[simp] theorem setLength_length (n : Nat) : ((m.setLength s n).buffers s).length = n := by
  unfold setLength
  by_cases hsame : (m.buffers s).length = n
  · rw [if_pos hsame, hsame]
  · rw [if_neg hsame]
    simp only [setBuffer_buffers_self]

theorem setLength_capacity {n : Nat} (h : (m.buffers s).length ≤ (m.buffers s).capacity) :
    ((m.setLength s n).buffers s).capacity = max (m.buffers s).capacity n := by
  rcases Nat.lt_or_ge (m.buffers s).capacity n with hlt | hle
  · rw [m.setLength_of_lt s hlt h]
    show ((m.setCapacity s n).buffers s).capacity = _
    rw [setCapacity_capacity]
    omega
  · rw [m.setLength_of_le s hle]
    show (m.buffers s).capacity = _
    omega

variable {m s}

/-- A new length takes no bytes away. -/
theorem setLength_front {w : Bytes} (h : Front (m.buffers s) w) (n : Nat)
    (hlength : (m.buffers s).length ≤ (m.buffers s).capacity) :
    Front ((m.setLength s n).buffers s) w := by
  rcases Nat.lt_or_ge (m.buffers s).capacity n with hlt | hle
  · have hfront := setCapacity_front h (n := n) (by have hroom := h.room; omega)
    rw [m.setLength_of_lt s hlt hlength]
    exact ⟨hfront.room, hfront.bytes⟩
  · rw [m.setLength_of_le s hle]
    exact ⟨h.room, h.bytes⟩

variable {P : Access ι → Prop}

theorem only_setCapacity (m : Memory ι) (s : ι) (n : Nat) : Only P s m (m.setCapacity s n) := by
  unfold setCapacity
  by_cases h : n = (m.buffers s).capacity
  · rw [if_pos h]
    exact .refl m
  · rw [if_neg h]
    exact .of_accesses (fun t ht => m.setBuffer_buffers_of_ne ht _) rfl

theorem only_setLength (m : Memory ι) (s : ι) (n : Nat) : Only P s m (m.setLength s n) := by
  unfold setLength
  by_cases h : (m.buffers s).length = n
  · rw [if_pos h]
    exact .refl m
  · have hensure : Only P s m (m.ensureCapacity s n) := by
      by_cases hlt : (m.buffers s).capacity < n
      · rw [ensureCapacity, if_pos hlt]
        exact only_setCapacity m s n
      · rw [ensureCapacity, if_neg hlt]
        exact .refl m
    rw [if_neg h]
    exact hensure.trans (.of_accesses (fun t ht => setBuffer_buffers_of_ne _ ht _) rfl)

/-- Resizing writes nothing. -/
theorem setLength_accesses (m : Memory ι) (s : ι) (n : Nat) :
    (m.setLength s n).accesses = m.accesses := by
  obtain ⟨new, hnew, hnone⟩ := (only_setLength (P := fun _ => False) m s n).log
  rw [hnew, List.eq_nil_iff_forall_not_mem.mpr hnone, List.append_nil]

/-! ## Writing -/

theorem write_buffers_self (m : Memory ι) (s : ι) (start : Nat) (bytes : Bytes)
    (source : Option (ι × Nat)) (readable : Bool) :
    (m.write s start bytes source readable).buffers s
      = { m.buffers s with data := store (m.buffers s).data start bytes } :=
  m.setBuffer_buffers_self s _

theorem storeByte_buffers_self (m : Memory ι) (s : ι) (i : Nat) (c : UInt8) :
    (m.storeByte s i c).buffers s
      = { m.buffers s with data := store (m.buffers s).data i [c] } :=
  write_buffers_self m s i [c] none true

theorem only_write {start : Nat} {bytes : Bytes} {source : Option (ι × Nat)} {readable : Bool}
    (h : P ⟨s, (m.buffers s).capacity, start, bytes.length, source, readable⟩) :
    Only P s m (m.write s start bytes source readable) := by
  refine ⟨fun t ht => m.setBuffer_buffers_of_ne ht _, _, rfl, ?_⟩
  intro a ha
  rw [List.mem_singleton] at ha
  rwa [ha]

/-- Bytes written behind the first ones. -/
theorem write_front {w : Bytes} (h : Front (m.buffers s) w) (bytes : Bytes)
    (hroom : w.length + bytes.length ≤ (m.buffers s).capacity) (source : Option (ι × Nat))
    (readable : Bool) :
    Front ((m.write s w.length bytes source readable).buffers s) (w ++ bytes) := by
  rw [write_buffers_self]
  refine ⟨by rwa [List.length_append], ?_⟩
  show load (store (m.buffers s).data w.length bytes) 0 (w ++ bytes).length = w ++ bytes
  rw [List.length_append, load_add, Nat.zero_add, load_store_self,
    load_store_outside _ (by omega), h.bytes]

/-- A byte written into the memory is a proper write. -/
theorem only_storeByte {i : Nat} (hi : i < (m.buffers s).capacity) (c : UInt8) :
    Only Access.Proper s m (m.storeByte s i c) := by
  apply only_write
  exact ⟨⟨hi, rfl⟩, fun offset h => by cases h⟩

/-- The bytes that are to be copied are there. -/
def Supplies (m : Memory ι) : Source ι → Bytes → Prop
  | .bytes b, v => v <+: b
  | .data t block offset, v =>
      block = (m.buffers t).block ∧ offset + v.length ≤ (m.buffers t).capacity ∧
        load (m.buffers t).data offset v.length = v

omit [DecidableEq ι] in
/-- A pointer that was just formed. -/
theorem supplies_pointer {t : ι} {offset : Nat} {v : Bytes} :
    m.Supplies (m.pointer t offset) v ↔ offset + v.length ≤ (m.buffers t).capacity ∧
      load (m.buffers t).data offset v.length = v :=
  and_iff_right rfl

theorem memcpy_eq_write {source : Source ι} {v : Bytes} (h : m.Supplies source v) (start : Nat) :
    m.memcpy s start source v.length = m.write s start v (source.origin) true := by
  cases source with
  | bytes b =>
      have hread : decide (v.length ≤ b.length) = true := decide_eq_true h.length_le
      show m.write s start (b.take v.length) none (decide (v.length ≤ b.length)) = _
      rw [hread, ← List.prefix_iff_eq_take.mp h]
      rfl
  | data t block offset =>
      obtain ⟨hblock, hroom, hload⟩ := h
      have hread : decide (block = (m.buffers t).block
          ∧ offset + v.length ≤ (m.buffers t).capacity) = true :=
        decide_eq_true ⟨hblock, hroom⟩
      show m.write s start (load (m.buffers t).data offset v.length) (some (t, offset))
        (decide (block = (m.buffers t).block
          ∧ offset + v.length ≤ (m.buffers t).capacity)) = _
      rw [hread, hload]
      rfl

/-- A length within the capacity moves no memory. -/
theorem supplies_setLength {n : Nat} (hn : n ≤ (m.buffers s).capacity) {source : Source ι}
    {v : Bytes} (h : m.Supplies source v) : (m.setLength s n).Supplies source v := by
  cases source with
  | bytes b => exact h
  | data t block offset =>
      by_cases hts : t = s
      · subst hts
        rw [Supplies, m.setLength_of_le t hn]
        exact h
      · have hframe := (only_setLength (P := fun _ => True) m s n).frame t hts
        rw [Supplies, hframe]
        exact h

/-- **`buffer_append_bytes`** with enough memory: the bytes behind those that
count. -/
theorem appendBytes_spec {w v : Bytes} {source : Source ι} (h : Front (m.buffers s) w)
    (hlength : (m.buffers s).length = w.length)
    (hroom : w.length + v.length ≤ (m.buffers s).capacity) (hsize : w.length + v.length < 2 ^ 64)
    (hsource : m.Supplies source v)
    (hapart : ∀ offset, source.origin = some (s, offset) → offset + v.length ≤ w.length) :
    let m' := m.appendBytes s source v.length
    Front (m'.buffers s) (w ++ v) ∧ (m'.buffers s).length = w.length + v.length ∧
      (m'.buffers s).capacity = (m.buffers s).capacity ∧ Only Access.Proper s m m' := by
  have hsum : sizeAdd w.length v.length = w.length + v.length := Nat.mod_eq_of_lt hsize
  have happend : m.appendBytes s source v.length
      = (m.setLength s (w.length + v.length)).write s w.length v (source.origin) true := by
    rw [appendBytes, hlength, hsum, memcpy_eq_write (supplies_setLength hroom hsource)]
  have hbuffer := m.setLength_of_le s hroom
  have hfront := setLength_front h (w.length + v.length) (by omega)
  have hcap : ((m.setLength s (w.length + v.length)).buffers s).capacity
      = (m.buffers s).capacity := by rw [hbuffer]
  intro m'
  rw [show m' = _ from happend]
  refine ⟨write_front hfront _ (by omega) _ _, ?_, ?_,
    (only_setLength m s _).trans (only_write ?_)⟩
  · rw [write_buffers_self]
    exact m.setLength_length s _
  · rw [write_buffers_self]
    exact hcap
  · refine ⟨⟨by rw [hcap]; exact hroom, rfl⟩, ?_⟩
    intro offset horigin
    exact .inr (.inl (hapart offset horigin))

/-! ## Functions with one string -/

/-- After some writes to `s`, each of them proper, it represents `w`. -/
structure Becomes (s : ι) (w : Bytes) (m m' : Memory ι) : Prop where
  represents : Represents (m'.buffers s) w
  only : Only Access.Proper s m m'

omit [DecidableEq ι] in
theorem stringGetLength_eq {w : Bytes} (h : Represents (m.buffers s) w) :
    m.stringGetLength s = w.length := by
  have hone := h.one_le
  have hlength := h.length
  rw [stringGetLength, sizeSub, if_pos hone, hlength, Nat.add_sub_cancel]

/-- The length for the contents and the 0, and then the 0. -/
theorem terminate_spec {w : Bytes} (h : Front (m.buffers s) w)
    (hlength : (m.buffers s).length ≤ (m.buffers s).capacity) :
    Becomes s w m ((m.setLength s (w.length + 1)).storeByte s w.length 0) := by
  have hfront := setLength_front h (w.length + 1) hlength
  have hcap := m.setLength_capacity s (n := w.length + 1) hlength
  refine ⟨represents_of_front (write_front hfront [0] ?_ _ _) ?_, ?_⟩
  · rw [List.length_singleton]
    omega
  · rw [storeByte_buffers_self]
    exact m.setLength_length s _
  · exact (only_setLength m s _).trans (only_storeByte (by omega) 0)

theorem front_nil (b : Buffer) : Front b [] :=
  ⟨Nat.zero_le _, rfl⟩

theorem bufferInit_buffers_self (m : Memory ι) (s : ι) :
    ((m.bufferInit s).buffers s).length = 0 ∧ ((m.bufferInit s).buffers s).capacity = 0 := by
  have hbuffer : (m.bufferInit s).buffers s
      = { capacity := 0, length := 0, data := m.junk m.blocks, block := m.blocks } :=
    m.setBuffer_buffers_self s _
  rw [hbuffer]
  exact ⟨rfl, rfl⟩

theorem only_bufferInit (m : Memory ι) (s : ι) : Only P s m (m.bufferInit s) :=
  .of_accesses (fun _ ht => m.setBuffer_buffers_of_ne ht _) rfl

theorem stringInit_spec (m : Memory ι) (s : ι) : Becomes s [] m (m.stringInit s) := by
  obtain ⟨hlength, hcap⟩ := bufferInit_buffers_self m s
  have hset := terminate_spec (front_nil ((m.bufferInit s).buffers s)) (by omega)
  exact ⟨hset.represents, (only_bufferInit m s).trans hset.only⟩

theorem stringClear_spec {w : Bytes} (h : Represents (m.buffers s) w) :
    Becomes s [] m (m.stringClear s) :=
  terminate_spec (front_nil (m.buffers s)) h.le_capacity

theorem stringInitCstrLen_spec (m : Memory ι) (s : ι) {c : Bytes} {len : Nat}
    (hlen : len ≤ c.length) (hsize : len + 1 < 2 ^ 64) :
    Becomes s (c.take len) m (m.stringInitCstrLen s c len) := by
  have hsum : sizeAdd len 1 = len + 1 := Nat.mod_eq_of_lt hsize
  have htake : (c.take len).length = len := List.length_take_of_le hlen
  obtain ⟨hlength, hcap⟩ := bufferInit_buffers_self m s
  have hlength' : (((m.bufferInit s).setCapacity s (len + 1)).buffers s).length = 0 := by
    rw [setCapacity_length _ s (by omega), hlength, Nat.zero_min]
  have hcap' := (m.bufferInit s).setCapacity_capacity s (len + 1)
  have hsource : ((m.bufferInit s).setCapacity s (len + 1)).Supplies (.bytes c) (c.take len) :=
    List.take_prefix len c
  obtain ⟨hfront, hlength'', hcap'', honly⟩ := appendBytes_spec (w := []) (front_nil _) hlength'
    (by rw [List.length_nil, htake, hcap']; omega) (by rw [List.length_nil, htake]; omega) hsource
    (fun _ h => by cases h)
  rw [htake] at hfront hlength'' hcap'' honly
  have hset := terminate_spec hfront (by rw [hlength'', hcap'', hcap']; simp)
  simp only [List.nil_append, htake] at hset
  have hinit : m.stringInitCstrLen s c len
      = ((((m.bufferInit s).setCapacity s (len + 1)).appendBytes s (.bytes c) len).setLength s
          (len + 1)).storeByte s len 0 := by
    rw [stringInitCstrLen, hsum]
  rw [hinit]
  exact ⟨hset.represents, (((only_bufferInit m s).trans (only_setCapacity _ s _)).trans
    honly).trans hset.only⟩

/-! ## Appending -/

/-- The memory for `n` bytes more, and the 0 chopped off. -/
def chop (m : Memory ι) (s : ι) (len n : Nat) : Memory ι :=
  (m.setCapacity s (len + n + 1)).setLength s len

theorem chop_spec {w : Bytes} (h : Represents (m.buffers s) w) (n : Nat) :
    let m' := m.chop s w.length n
    Front (m'.buffers s) w ∧ (m'.buffers s).length = w.length ∧
      (m'.buffers s).capacity = w.length + n + 1 ∧ Only P s m m' := by
  have hcap := m.setCapacity_capacity s (w.length + n + 1)
  have hlength := m.setCapacity_length s (n := w.length + n + 1) h.le_capacity
  have hfront := setCapacity_front (h.front.mono (List.prefix_append w [0]))
    (n := w.length + n + 1) (by omega)
  refine ⟨setLength_front hfront _ (by omega), setLength_length _ s _, ?_,
    (only_setCapacity m s _).trans (only_setLength _ s _)⟩
  rw [chop, setLength_capacity _ s (by omega), hcap]
  omega

/-- **Appending with the 0**: `other` has it behind its contents. -/
theorem appendTerminated_spec {w v : Bytes} {other : Memory ι → Source ι}
    (h : Represents (m.buffers s) w) (hsize : w.length + v.length + 1 < 2 ^ 64)
    (hsource : (m.chop s w.length v.length).Supplies
      (other (m.chop s w.length v.length)) (v ++ [0]))
    (hapart : ∀ offset, (other (m.chop s w.length v.length)).origin = some (s, offset) →
      offset + (v.length + 1) ≤ w.length) :
    Becomes s (w ++ v) m (m.appendTerminated s other v.length) := by
  obtain ⟨hfront, hlength, hcap, honly⟩ := chop_spec (P := Access.Proper) h v.length
  have hlast : (v ++ [0]).length = v.length + 1 := List.length_append
  obtain ⟨hfront', hlength', -, honly'⟩ := appendBytes_spec hfront hlength (by omega) (by omega)
    hsource (by rwa [hlast])
  have hsum : sizeAdd (sizeAdd w.length v.length) 1 = w.length + v.length + 1 := by
    unfold sizeAdd
    omega
  have hsum' : sizeAdd v.length 1 = v.length + 1 := Nat.mod_eq_of_lt (by omega)
  have happend : m.appendTerminated s other v.length
      = (m.chop s w.length v.length).appendBytes s (other (m.chop s w.length v.length))
          (v.length + 1) := by
    rw [appendTerminated, stringGetLength_eq h, hsum, hsum']
    rfl
  rw [happend]
  rw [hlast] at hfront' hlength' honly'
  rw [← List.append_assoc] at hfront'
  refine ⟨represents_of_front hfront' ?_, honly.trans honly'⟩
  rw [hlength', List.length_append]
  omega

/-- **Appending and then the 0.** -/
theorem appendAndTerminate_spec {w v : Bytes} (other : Memory ι → Source ι)
    (h : Represents (m.buffers s) w) (hsize : w.length + v.length + 1 < 2 ^ 64)
    (hsource : (m.chop s w.length v.length).Supplies (other (m.chop s w.length v.length)) v)
    (hapart : ∀ offset, (other (m.chop s w.length v.length)).origin = some (s, offset) →
      offset + v.length ≤ w.length) :
    Becomes s (w ++ v) m (m.appendAndTerminate s other v.length) := by
  obtain ⟨hfront, hlength, hcap, honly⟩ := chop_spec (P := Access.Proper) h v.length
  obtain ⟨hfront', hlength', hcap', honly'⟩ := appendBytes_spec hfront hlength (by omega)
    (by omega) hsource hapart
  have hset := terminate_spec hfront' (by omega)
  have hsum : sizeAdd w.length v.length = w.length + v.length := Nat.mod_eq_of_lt (by omega)
  have hsum' : sizeAdd (w.length + v.length) 1 = w.length + v.length + 1 :=
    Nat.mod_eq_of_lt (by omega)
  have happend : m.appendAndTerminate s other v.length
      = ((((m.chop s w.length v.length).appendBytes s (other (m.chop s w.length v.length))
          v.length).setLength s (w.length + v.length + 1)).storeByte s (w.length + v.length)
            0) := by
    rw [appendAndTerminate, stringGetLength_eq h, hsum, hsum']
    rfl
  rw [List.length_append] at hset
  rw [happend]
  exact ⟨hset.represents, (honly.trans honly').trans hset.only⟩

/-- Another string is as it was. -/
theorem chop_buffers_of_ne {t : ι} (ht : t ≠ s) (len n : Nat) :
    (m.chop s len n).buffers t = m.buffers t :=
  ((only_setLength (P := fun _ => True) _ s _).frame t ht).trans
    ((only_setCapacity (P := fun _ => True) m s _).frame t ht)

theorem stringAppendStr_spec {other : ι} {w v : Bytes} (hne : other ≠ s)
    (h : Represents (m.buffers s) w) (hother : Represents (m.buffers other) v)
    (hsize : w.length + v.length + 1 < 2 ^ 64) :
    Becomes s (w ++ v) m (m.stringAppendStr s other) := by
  have hfront := hother.front
  rw [stringAppendStr, stringGetLength_eq hother]
  apply appendTerminated_spec h hsize
  · rw [supplies_pointer, chop_buffers_of_ne hne, Nat.zero_add]
    exact ⟨hfront.room, hfront.bytes⟩
  · intro offset horigin
    cases horigin
    exact absurd rfl hne

/-- The bytes up to the terminating 0 and that 0 stand at the front. -/
theorem cstr_append_zero_isPrefix {c : Bytes} (h : 0 ∈ c) : cstr c ++ [0] <+: c := by
  obtain ⟨x, y, rfl, hx⟩ := List.eq_append_cons_of_mem h
  have hcut := (takeWhile_append_mark (p := fun b => decide (b ≠ 0)) (c := 0) rfl x y).1
  have hself := cstr_eq_self hx
  unfold cstr at hself ⊢
  rw [hcut, hself]
  exact ⟨y, by simp⟩

theorem stringAppendCstr_spec {w c : Bytes} (h : Represents (m.buffers s) w) (hc : 0 ∈ c)
    (hsize : w.length + (cstr c).length + 1 < 2 ^ 64) :
    Becomes s (w ++ cstr c) m (m.stringAppendCstr s c) :=
  appendTerminated_spec h hsize (cstr_append_zero_isPrefix hc) fun _ horigin => by cases horigin

theorem stringAppendCstrLen_spec {w c : Bytes} {len : Nat} (h : Represents (m.buffers s) w)
    (hlen : len ≤ c.length) (hsize : w.length + len + 1 < 2 ^ 64) :
    Becomes s (w ++ c.take len) m (m.stringAppendCstrLen s c len) := by
  have htake : (c.take len).length = len := List.length_take_of_le hlen
  have happend := appendAndTerminate_spec (v := c.take len) (fun _ => .bytes c) h
    (by omega) (List.take_prefix len c) (fun _ horigin => by cases horigin)
  rw [htake] at happend
  exact happend

/-- `string_append_substr`, also of a string to itself. -/
theorem stringAppendSubstr_spec {src : ι} {w u : Bytes} {start stop : Nat}
    (h : Represents (m.buffers s) w) (hsrc : Represents (m.buffers src) u)
    (hsize : (Strings.stringAppendSubstr w u start stop).length + 1 < 2 ^ 64) :
    Becomes s (Strings.stringAppendSubstr w u start stop) m
      (m.stringAppendSubstr s src start stop) := by
  unfold Strings.stringAppendSubstr at hsize ⊢
  unfold stringAppendSubstr
  rw [stringGetLength_eq hsrc]
  by_cases hempty : stop ≤ start ∨ u.length ≤ start
  · rw [if_pos hempty]
    simp only [if_pos hempty]
    exact ⟨h, .refl m⟩
  · rw [if_neg hempty] at hsize ⊢
    have hstop : (if u.length < stop then u.length else stop) = min stop u.length := by
      split <;> omega
    have hlength : ((u.drop start).take (min stop u.length - start)).length
        = min stop u.length - start := by
      rw [List.length_take, List.length_drop]
      omega
    have hfront : Front ((m.chop s w.length (min stop u.length - start)).buffers src) u := by
      by_cases hself : src = s
      · subst hself
        rw [← h.unique hsrc]
        exact (chop_spec (P := Access.Proper) h _).1
      · rw [chop_buffers_of_ne hself]
        exact hsrc.front.mono (List.prefix_append u [0])
    have hroom := hfront.room
    have happend := appendAndTerminate_spec (fun m => m.pointer src start)
      (v := (u.drop start).take (min stop u.length - start)) h
      (by rw [List.length_append, hlength] at hsize; omega)
      (by
        rw [hlength, supplies_pointer, hlength]
        exact ⟨by omega, hfront.load (by omega)⟩)
      (by
        intro offset horigin
        rw [hlength]
        have hpair : (src, start) = (s, offset) := Option.some.inj horigin
        obtain ⟨rfl, rfl⟩ := Prod.mk.inj hpair
        rw [h.unique hsrc]
        omega)
    rw [hlength] at happend
    simp only [if_neg hempty, hstop]
    exact happend

/-! ## Setting -/

theorem stringSetStr_spec {other : ι} {w v : Bytes} (hne : other ≠ s)
    (h : Represents (m.buffers s) w) (hother : Represents (m.buffers other) v)
    (hsize : v.length + 1 < 2 ^ 64) : Becomes s v m (m.stringSetStr s other) := by
  have hclear := stringClear_spec h
  rw [← hclear.only.frame other hne] at hother
  have happend := stringAppendStr_spec hne hclear.represents hother (by simpa using hsize)
  exact ⟨happend.represents, hclear.only.trans happend.only⟩

theorem stringSetCstr_spec {w c : Bytes} (h : Represents (m.buffers s) w) (hc : 0 ∈ c)
    (hsize : (cstr c).length + 1 < 2 ^ 64) : Becomes s (cstr c) m (m.stringSetCstr s c) := by
  have hclear := stringClear_spec h
  have happend := stringAppendCstr_spec hclear.represents hc (by simpa using hsize)
  exact ⟨happend.represents, hclear.only.trans happend.only⟩

theorem stringSetCstrLen_spec {w c : Bytes} {len : Nat} (h : Represents (m.buffers s) w)
    (hlen : len ≤ c.length) (hsize : len + 1 < 2 ^ 64) :
    Becomes s (c.take len) m (m.stringSetCstrLen s c len) := by
  have hclear := stringClear_spec h
  have happend := stringAppendCstrLen_spec hclear.represents hlen (by simpa using hsize)
  exact ⟨happend.represents, hclear.only.trans happend.only⟩

theorem stringSetSubstr_spec {src : ι} {w u : Bytes} {start stop : Nat} (hne : src ≠ s)
    (h : Represents (m.buffers s) w) (hsrc : Represents (m.buffers src) u)
    (hsize : (Strings.stringSetSubstr u start stop).length + 1 < 2 ^ 64) :
    Becomes s (Strings.stringSetSubstr u start stop) m (m.stringSetSubstr s src start stop) := by
  have hclear := stringClear_spec h
  rw [← hclear.only.frame src hne] at hsrc
  have happend := stringAppendSubstr_spec hclear.represents hsrc hsize
  rw [stringSetSubstr, if_neg (Ne.symm hne)]
  exact ⟨happend.represents, hclear.only.trans happend.only⟩

/-! ## Loops over the bytes -/

theorem fillLoop_spec (fill : UInt8) {w : Bytes} (count : Nat) (h : Front (m.buffers s) w)
    (hroom : w.length + count ≤ (m.buffers s).capacity) :
    let m' := m.fillLoop s fill w.length count
    Front (m'.buffers s) (w ++ List.replicate count fill) ∧
      (m'.buffers s).length = (m.buffers s).length ∧
      (m'.buffers s).capacity = (m.buffers s).capacity ∧ Only Access.Proper s m m' := by
  induction count generalizing m w with
  | zero =>
      rw [List.replicate_zero, List.append_nil]
      exact ⟨h, rfl, rfl, .refl m⟩
  | succ count ih =>
      have hnext : Front ((m.storeByte s w.length fill).buffers s) (w ++ [fill]) :=
        write_front h [fill] (by rw [List.length_singleton]; omega) _ _
      have hbuffer := storeByte_buffers_self m s w.length fill
      have hlast : (w ++ [fill]).length = w.length + 1 := List.length_append
      have hcap : ((m.storeByte s w.length fill).buffers s).capacity
          = (m.buffers s).capacity := by rw [hbuffer]
      obtain ⟨hfront, hlength, hcap', honly⟩ := ih hnext (by omega)
      rw [hlast] at hfront hlength hcap' honly
      refine ⟨?_, ?_, ?_, (only_storeByte (by omega) fill).trans honly⟩
      · rw [List.append_assoc, List.singleton_append, ← List.replicate_succ] at hfront
        exact hfront
      · exact hlength.trans (by rw [hbuffer])
      · exact hcap'.trans hcap

/-- The contents that `string_set_length` leaves. -/
def setLengthContents (w : Bytes) (newLen : Nat) (fill : UInt8) : Bytes :=
  w.take newLen ++ List.replicate (newLen - w.length) fill

theorem length_setLengthContents (w : Bytes) (newLen : Nat) (fill : UInt8) :
    (setLengthContents w newLen fill).length = newLen := by
  rw [setLengthContents, List.length_append, List.length_take, List.length_replicate]
  omega

theorem stringSetLength_spec {w : Bytes} {newLen : Nat} (h : Represents (m.buffers s) w)
    (fill : UInt8) (hsize : newLen + 1 < 2 ^ 64) :
    Becomes s (setLengthContents w newLen fill) m (m.stringSetLength s newLen fill) := by
  have hsum : sizeAdd newLen 1 = newLen + 1 := Nat.mod_eq_of_lt hsize
  have hfront := setLength_front (h.front.mono (List.prefix_append w [0])) (newLen + 1)
    h.le_capacity
  have hcap := m.setLength_capacity s (n := newLen + 1) h.le_capacity
  have hlength := m.setLength_length s (newLen + 1)
  have hlength' := length_setLengthContents w newLen fill
  have hfill : let m' := (m.setLength s (newLen + 1)).fillLoop s fill w.length (newLen - w.length)
      Front (m'.buffers s) (setLengthContents w newLen fill) ∧
        (m'.buffers s).length = newLen + 1 ∧
        (m'.buffers s).capacity = max (m.buffers s).capacity (newLen + 1) ∧
        Only Access.Proper s (m.setLength s (newLen + 1)) m' := by
    rcases Nat.le_total w.length newLen with hle | hle
    · obtain ⟨hfront', hlen', hcap', honly⟩ := fillLoop_spec fill (newLen - w.length)
        hfront (by omega)
      rw [setLengthContents, List.take_of_length_le hle]
      exact ⟨hfront', hlen'.trans hlength, hcap'.trans hcap, honly⟩
    · rw [setLengthContents, Nat.sub_eq_zero_of_le hle, List.replicate_zero, List.append_nil]
      exact ⟨hfront.mono (List.take_prefix newLen w), hlength, hcap, .refl _⟩
  obtain ⟨hfront', hlen', hcap', honly⟩ := hfill
  have hset := write_front hfront' [0] (by
    rw [hlength', hcap', List.length_singleton]
    omega) none true
  rw [hlength'] at hset
  have hmemory : m.stringSetLength s newLen fill
      = ((m.setLength s (newLen + 1)).fillLoop s fill w.length (newLen - w.length)).storeByte s
          newLen 0 := by
    rw [stringSetLength, stringGetLength_eq h, hsum]
  rw [hmemory]
  refine ⟨represents_of_front hset ?_, ((only_setLength m s _).trans honly).trans
    (only_storeByte (by omega) 0)⟩
  rw [storeByte_buffers_self]
  exact hlen'.trans (by rw [hlength'])

/-- **The loop of `string_tolower`**, in place or not: a byte is read before
it is overwritten. -/
theorem mapLoop_spec (f : UInt8 → UInt8) {src : ι} {u : Bytes} {i count : Nat}
    (hu : load (m.buffers src).data i count = u) (hroom : i + count ≤ (m.buffers s).capacity) :
    let m' := m.mapLoop f s src i count
    m'.buffers s = { m.buffers s with data := store (m.buffers s).data i (u.map f) } ∧
      Only Access.Proper s m m' := by
  induction count generalizing m i u with
  | zero =>
      subst hu
      rw [load_zero, List.map_nil, store_nil]
      exact ⟨rfl, .refl m⟩
  | succ count ih =>
      have hsplit := load_add (m.buffers src).data i 1 count
      have hone : load (m.buffers src).data i 1 = [(m.buffers src).data i] := rfl
      rw [Nat.add_comm 1 count, hu, hone, List.singleton_append] at hsplit
      have hbuffer := storeByte_buffers_self m s i (f ((m.buffers src).data i))
      have hwrite : Only Access.Proper s m (m.storeByte s i (f ((m.buffers src).data i))) :=
        only_storeByte (by omega) _
      have hrest : load ((m.storeByte s i (f ((m.buffers src).data i))).buffers src).data (i + 1)
          count = load (m.buffers src).data (i + 1) count := by
        by_cases hself : src = s
        · subst hself
          rw [hbuffer]
          exact load_store_outside _ (.inr (Nat.le_refl (i + 1)))
        · rw [hwrite.frame src hself]
      obtain ⟨hfinal, honly⟩ := ih hrest (by
        rw [hbuffer]
        show i + 1 + count ≤ (m.buffers s).capacity
        omega)
      refine ⟨?_, hwrite.trans honly⟩
      rw [hsplit, List.map_cons]
      refine Eq.trans hfinal ?_
      rw [hbuffer]
      have hstore := store_append (m.buffers s).data i [f ((m.buffers src).data i)]
        ((load (m.buffers src).data (i + 1) count).map f)
      exact congrArg (fun data => { m.buffers s with data := data }) hstore

/-- What the loop leaves of a string with as many bytes as it goes through. -/
theorem becomes_mapLoop (f : UInt8 → UInt8) {src : ι} {w u : Bytes}
    (h : Represents (m.buffers s) w) (hsrc : Represents (m.buffers src) u)
    (hlength : w.length = u.length) :
    Becomes s (u.map f) m (m.mapLoop f s src 0 u.length) := by
  have hbytes := (hsrc.front.mono (List.prefix_append u [0])).bytes
  have hcap := h.le_capacity
  rw [h.length, hlength] at hcap
  obtain ⟨hbuffer, honly⟩ := mapLoop_spec f hbytes
    (show 0 + u.length ≤ (m.buffers s).capacity by omega)
  refine ⟨?_, honly⟩
  have hmap : (u.map f).length = u.length := List.length_map f
  have hlen := h.length
  rw [hlength] at hlen
  have hterminated := h.terminated
  rw [hbuffer]
  refine ⟨h.one_le, h.le_capacity, ?_, ?_⟩
  · show store (m.buffers s).data 0 (u.map f) ((m.buffers s).length - 1) = 0
    rw [store_outside _ (.inr (by omega))]
    exact hterminated
  · show load (store (m.buffers s).data 0 (u.map f)) 0 ((m.buffers s).length - 1) = u.map f
    have hall := load_store_self (m.buffers s).data 0 (u.map f)
    rw [hmap] at hall
    rw [hlen, Nat.add_sub_cancel]
    exact hall

/-- `string_tolower` and `string_toupper`, in place or not. -/
theorem stringMap_spec (f : UInt8 → UInt8) {src : ι} {w u : Bytes}
    (h : Represents (m.buffers s) w) (hsrc : Represents (m.buffers src) u)
    (hsize : u.length + 1 < 2 ^ 64) : Becomes s (u.map f) m (m.stringMap f s src) := by
  unfold stringMap
  rw [stringGetLength_eq hsrc]
  by_cases hself : s = src
  · subst hself
    have hmap := becomes_mapLoop f h hsrc (congrArg List.length (h.unique hsrc))
    simpa using hmap
  · have hset := stringSetLength_spec h 0 hsize
    rw [← hset.only.frame src (Ne.symm hself)] at hsrc
    have hmap := becomes_mapLoop f hset.represents hsrc (length_setLengthContents w u.length 0)
    simp only [if_pos hself]
    exact ⟨hmap.represents, hset.only.trans hmap.only⟩

end Memory

end CWebServer.Buffers
