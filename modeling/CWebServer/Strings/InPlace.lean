import CWebServer.Strings.Any
import CWebServer.Strings.Representation

/-!
# Strings — InPlace

The calls that may have one string as source and destination, against the same
calls with a destination of its own. In place, a part of a string is copied to
its front with `memcpy`, which must not overlap, and an empty part leaves the
string as it is where another destination is cleared. What a trim leaves is
what `Strings.Any` says of the bytes, as long as the `memcpy` moves them.
-/

namespace CWebServer.Buffers

open CWebServer.Lib CWebServer.Strings
open CWebServer.Streams (sizeAdd)

variable {ι : Type} [DecidableEq ι]

/-! ## The trims -/

namespace Memory

/-- The bytes that `string_get_length` counts. -/
def contents (m : Memory ι) (s : ι) : Bytes :=
  load (m.buffers s).data 0 (m.stringGetLength s)

/-- `string_get_cstr`, up to the terminating 0. -/
def stringGetCstr (m : Memory ι) (s : ι) : Bytes :=
  cstr (load (m.buffers s).data 0 (m.buffers s).capacity)

/-- The trims of the start; `find` is a 0-terminated string. -/
def trimStart (m : Memory ι) (dst src : ι) (find : Bytes) : Memory ι :=
  match stringIndexNotOfAnyCstr (m.contents src) find 0 with
  | none => m.stringClear dst
  | some i => m.stringSetSubstr dst src i (m.stringGetLength src)

/-- The trims of the end. -/
def trimEnd (m : Memory ι) (dst src : ι) (find : Bytes) : Memory ι :=
  match stringReverseIndexNotOfAnyCstr (m.contents src) find (m.stringGetLength src) with
  | none => m.stringClear dst
  | some i => m.stringSetSubstr dst src 0 (sizeAdd i 1)

def stringTrimStartChar (m : Memory ι) (dst src : ι) (find : UInt8) : Memory ι :=
  m.trimStart dst src (cstr [find, 0])

def stringTrimStartAnyOfStr (m : Memory ι) (dst src find : ι) : Memory ι :=
  m.trimStart dst src (m.stringGetCstr find)

def stringTrimStartAnyOfCstr (m : Memory ι) (dst src : ι) (find : Bytes) : Memory ι :=
  m.trimStart dst src (cstr find)

def stringTrimEndChar (m : Memory ι) (dst src : ι) (find : UInt8) : Memory ι :=
  m.trimEnd dst src (cstr [find, 0])

def stringTrimEndAnyOfStr (m : Memory ι) (dst src find : ι) : Memory ι :=
  m.trimEnd dst src (m.stringGetCstr find)

def stringTrimEndAnyOfCstr (m : Memory ι) (dst src : ι) (find : Bytes) : Memory ι :=
  m.trimEnd dst src (cstr find)

def stringTrimChar (m : Memory ι) (dst src : ι) (find : UInt8) : Memory ι :=
  (m.stringTrimStartChar dst src find).stringTrimEndChar dst dst find

def stringTrimAnyOfStr (m : Memory ι) (dst src find : ι) : Memory ι :=
  (m.stringTrimStartAnyOfStr dst src find).stringTrimEndAnyOfStr dst dst find

def stringTrimAnyOfCstr (m : Memory ι) (dst src : ι) (find : Bytes) : Memory ι :=
  (m.stringTrimStartAnyOfCstr dst src find).stringTrimEndAnyOfCstr dst dst find

end Memory

/-! ## Calls -/

/-- The characters that a trim looks for. -/
inductive Find (ι : Type)
  | char (c : UInt8)
  | anyOfStr (find : ι)
  | anyOfCstr (find : Bytes)

/-- They are a 0-terminated string. -/
def Find.cstr (m : Memory ι) : Find ι → Bytes
  | char c => Strings.cstr [c, 0]
  | anyOfStr find => m.stringGetCstr find
  | anyOfCstr find => Strings.cstr find

/-- The calls with a destination and a source, apart from these two. -/
inductive InPlaceCall (ι : Type)
  | setSubstr (start stop : Nat)
  | appendSubstr (start stop : Nat)
  | tolower
  | toupper
  | trimStart (find : Find ι)
  | trimEnd (find : Find ι)
  | trim (find : Find ι)

namespace InPlaceCall

def run (m : Memory ι) (dst src : ι) : InPlaceCall ι → Memory ι
  | setSubstr start stop => m.stringSetSubstr dst src start stop
  | appendSubstr start stop => m.stringAppendSubstr dst src start stop
  | tolower => m.stringTolower dst src
  | toupper => m.stringToupper dst src
  | trimStart (.char c) => m.stringTrimStartChar dst src c
  | trimStart (.anyOfStr find) => m.stringTrimStartAnyOfStr dst src find
  | trimStart (.anyOfCstr find) => m.stringTrimStartAnyOfCstr dst src find
  | trimEnd (.char c) => m.stringTrimEndChar dst src c
  | trimEnd (.anyOfStr find) => m.stringTrimEndAnyOfStr dst src find
  | trimEnd (.anyOfCstr find) => m.stringTrimEndAnyOfCstr dst src find
  | trim (.char c) => m.stringTrimChar dst src c
  | trim (.anyOfStr find) => m.stringTrimAnyOfStr dst src find
  | trim (.anyOfCstr find) => m.stringTrimAnyOfCstr dst src find

theorem run_trimStart (m : Memory ι) (dst src : ι) (find : Find ι) :
    run m dst src (trimStart find) = m.trimStart dst src (find.cstr m) := by
  cases find <;> rfl

theorem run_trimEnd (m : Memory ι) (dst src : ι) (find : Find ι) :
    run m dst src (trimEnd find) = m.trimEnd dst src (find.cstr m) := by
  cases find <;> rfl

theorem run_trim (m : Memory ι) (dst src : ι) (find : Find ι) :
    run m dst src (trim find)
      = (m.trimStart dst src (find.cstr m)).trimEnd dst dst
          (find.cstr (m.trimStart dst src (find.cstr m))) := by
  cases find <;> rfl

end InPlaceCall

/-- What a call in place is to do, with `d` a copy of `s`: it leaves in `s`
what the call with the destination `d` leaves there, and copies no bytes onto
each other. -/
structure InPlaceRule (m : Memory ι) (s d : ι) (call : InPlaceCall ι) : Prop where
  same : ∃ w, Represents ((call.run m s s).buffers s) w
    ∧ Represents ((call.run m d s).buffers d) w
  apart : ∀ a ∈ (call.run m s s).accesses.drop m.accesses.length, a.Apart

/-- Where it does: the part of `w` is not empty and does not reach over its
own start, there is nothing left to be copied, or nothing is copied at all. -/
def InPlaceCall.Harmless (w : Bytes) (m : Memory ι) : InPlaceCall ι → Prop
  | setSubstr start stop =>
      w = [] ∨ start < stop ∧ start < w.length ∧ min stop w.length - start ≤ start
  | appendSubstr _ _ | tolower | toupper => True
  | trimStart find =>
      let rest := w.dropWhile (· ∈ find.cstr m)
      rest = [] ∨ rest.head? = some 0 ∨ 2 * rest.length ≤ w.length
  | trimEnd find => ∀ c ∈ w, c ∈ find.cstr m
  | trim find =>
      let rest := w.dropWhile (· ∈ find.cstr m)
      rest = [] ∨ rest.head? = some 0

/-! ## One call at a time -/

section Calls

variable {m : Memory ι} {s d : ι} {w : Bytes}

omit [DecidableEq ι] in
/-- The accesses of a call that are new. -/
theorem drop_accesses {P : Access ι → Prop} {m' : Memory ι} (h : Only P s m m') :
    ∀ a ∈ m'.accesses.drop m.accesses.length, P a := by
  obtain ⟨new, hnew, hp⟩ := h.log
  rw [hnew, List.drop_left]
  exact hp

/-- Calls that leave the same in both strings by proper writes. -/
theorem inPlaceRule_of_becomes {call : InPlaceCall ι} {v : Bytes}
    (h : Memory.Becomes s v m (call.run m s s)) (h' : Memory.Becomes d v m (call.run m d s)) :
    InPlaceRule m s d call :=
  ⟨⟨v, h.represents, h'.represents⟩, fun a ha => (drop_accesses h.only a ha).2⟩

/-- Bytes written to the front, a 0 behind them and the length for both. -/
theorem overwrite_spec {v : Bytes} (source : Option (ι × Nat))
    (hroom : v.length + 1 ≤ (m.buffers s).capacity) :
    let cap := (m.buffers s).capacity
    let m' := ((m.write s 0 v source true).storeByte s v.length 0).setLength s (v.length + 1)
    Represents (m'.buffers s) v ∧ (∀ t, t ≠ s → m'.buffers t = m.buffers t) ∧
      m'.accesses = m.accesses
        ++ [⟨s, cap, 0, v.length, source, true⟩, ⟨s, cap, v.length, 1, none, true⟩] := by
  have hfront := Memory.write_front (Memory.front_nil (m.buffers s)) v
    (by rw [List.length_nil]; omega) source true
  rw [List.nil_append, List.length_nil] at hfront
  have hbuffer := Memory.write_buffers_self m s 0 v source true
  have hcap : ((m.write s 0 v source true).buffers s).capacity = (m.buffers s).capacity := by
    rw [hbuffer]
  have hzero := Memory.write_front hfront [0]
    (by rw [hcap, List.length_singleton]; exact hroom) none true
  have hcap' : (((m.write s 0 v source true).storeByte s v.length 0).buffers s).capacity
      = (m.buffers s).capacity := by
    rw [Memory.storeByte_buffers_self]
    exact hcap
  have hset := Memory.setLength_of_le ((m.write s 0 v source true).storeByte s v.length 0) s
    (n := v.length + 1) (by rw [hcap']; exact hroom)
  refine ⟨represents_of_front ?_ (Memory.setLength_length _ s _), ?_, ?_⟩
  · rw [hset]
    exact ⟨hzero.room, hzero.bytes⟩
  · intro t ht
    have hlength := (Memory.only_setLength (P := fun _ => True)
      ((m.write s 0 v source true).storeByte s v.length 0) s (v.length + 1)).frame t ht
    exact (hlength.trans (Memory.setBuffer_buffers_of_ne _ ht _)).trans
      (Memory.setBuffer_buffers_of_ne _ ht _)
  · rw [Memory.setLength_accesses]
    show (m.accesses ++ [_])
      ++ [⟨s, ((m.write s 0 v source true).buffers s).capacity, v.length, 1, none, true⟩] = _
    rw [hcap, List.append_assoc]
    rfl

/-- An empty part of a string leaves it as it is. -/
theorem stringSetSubstr_self_of_empty {start stop : Nat} (h : Represents (m.buffers s) w)
    (hpart : stop ≤ start ∨ w.length ≤ start) : m.stringSetSubstr s s start stop = m := by
  unfold Memory.stringSetSubstr
  rw [if_pos rfl, Memory.stringGetLength_eq h]
  exact if_pos hpart

/-- **A part of a string to its front**: what it leaves, and the `memcpy` and
the 0 it writes. -/
theorem stringSetSubstr_self (start stop : Nat) (h : Represents (m.buffers s) w)
    (hpart : ¬ (stop ≤ start ∨ w.length ≤ start)) (hsize : w.length + 1 < 2 ^ 64) :
    let n := min stop w.length - start
    let cap := (m.buffers s).capacity
    let m' := m.stringSetSubstr s s start stop
    Represents (m'.buffers s) (stringSetSubstr w start stop) ∧
      (∀ t, t ≠ s → m'.buffers t = m.buffers t) ∧
      m'.accesses = m.accesses
        ++ [⟨s, cap, 0, n, some (s, start), true⟩, ⟨s, cap, n, 1, none, true⟩] := by
  have hstop : (if w.length < stop then w.length else stop) = min stop w.length := by
    split <;> omega
  have hlength : ((w.drop start).take (min stop w.length - start)).length
      = min stop w.length - start := by
    rw [List.length_take, List.length_drop]
    omega
  have hpartOf : stringSetSubstr w start stop
      = (w.drop start).take (min stop w.length - start) := by
    rw [stringSetSubstr, stringAppendSubstr, if_neg hpart, List.nil_append]
  have hsum : sizeAdd (min stop w.length - start) 1 = min stop w.length - start + 1 :=
    Nat.mod_eq_of_lt (by omega)
  have hcap := h.le_capacity
  rw [h.length] at hcap
  have hfront := h.front.mono (List.prefix_append w [0])
  have hsource : m.Supplies (m.pointer s start)
      ((w.drop start).take (min stop w.length - start)) := by
    rw [Memory.supplies_pointer, hlength]
    exact ⟨by omega, hfront.load (by omega)⟩
  have hcopy := Memory.memcpy_eq_write (s := s) hsource 0
  have hover := overwrite_spec (m := m) (s := s)
    (v := (w.drop start).take (min stop w.length - start)) (some (s, start))
    (by rw [hlength]; omega)
  rw [hlength] at hcopy hover
  rw [hpartOf]
  unfold Memory.stringSetSubstr
  rw [if_pos rfl, Memory.stringGetLength_eq h]
  simp only [if_neg hpart, hstop, hsum]
  rw [hcopy]
  exact hover

/-- The `memcpy` of a part overlaps unless the part is as short as what stands
in front of it. -/
theorem stringSetSubstr_self_apart_iff (start stop : Nat) (h : Represents (m.buffers s) w)
    (hpart : ¬ (stop ≤ start ∨ w.length ≤ start)) (hsize : w.length + 1 < 2 ^ 64) :
    (∀ a ∈ (m.stringSetSubstr s s start stop).accesses.drop m.accesses.length, a.Apart)
      ↔ min stop w.length - start ≤ start := by
  rw [(stringSetSubstr_self start stop h hpart hsize).2.2, List.drop_left]
  constructor
  · intro hapart
    have hcopy : min stop w.length - start = 0 ∨ start + (min stop w.length - start) ≤ 0
        ∨ 0 + (min stop w.length - start) ≤ start := hapart _ List.mem_cons_self start rfl
    omega
  · intro hle a ha
    rcases List.mem_cons.mp ha with rfl | ha
    · intro offset horigin
      cases horigin
      exact .inr (.inr (by show 0 + (min stop w.length - start) ≤ start; omega))
    · rw [List.mem_singleton] at ha
      subst ha
      intro offset horigin
      cases horigin

theorem length_stringSetSubstr_le (w : Bytes) (start stop : Nat) :
    (stringSetSubstr w start stop).length ≤ w.length := by
  unfold stringSetSubstr stringAppendSubstr
  split
  · exact Nat.zero_le _
  · rw [List.nil_append, List.length_take, List.length_drop]
    omega

/-- **A part in place**: an empty one does harm, and so does one that overlaps
the front. -/
theorem inPlaceRule_setSubstr_iff {start stop : Nat} (hs : Represents (m.buffers s) w)
    (hd : Represents (m.buffers d) w) (hne : d ≠ s) (hsize : w.length + 1 < 2 ^ 64) :
    InPlaceRule m s d (.setSubstr start stop)
      ↔ InPlaceCall.Harmless w m (.setSubstr start stop : InPlaceCall ι) := by
  have hle := length_stringSetSubstr_le w start stop
  have hother : Memory.Becomes d (stringSetSubstr w start stop) m
      (m.stringSetSubstr d s start stop) :=
    Memory.stringSetSubstr_spec (Ne.symm hne) hd hs (by omega)
  by_cases hpart : stop ≤ start ∨ w.length ≤ start
  · have hself := stringSetSubstr_self_of_empty hs hpart
    have hempty : stringSetSubstr w start stop = [] := by
      rw [stringSetSubstr, stringAppendSubstr, if_pos hpart]
    constructor
    · intro h
      obtain ⟨v, hv, hv'⟩ := h.same
      have hv : Represents ((m.stringSetSubstr s s start stop).buffers s) v := hv
      have hv' : Represents ((m.stringSetSubstr d s start stop).buffers d) v := hv'
      rw [hself] at hv
      left
      rw [hs.unique hv, hv'.unique hother.represents, hempty]
    · intro h
      have hnil : w = [] := by
        rcases h with h | ⟨hlt, hlt', -⟩
        · exact h
        · omega
      rw [hempty] at hother
      apply inPlaceRule_of_becomes (v := []) _ hother
      show Memory.Becomes s [] m (m.stringSetSubstr s s start stop)
      rw [hself]
      exact ⟨hnil ▸ hs, .refl m⟩
  · have hrep := (stringSetSubstr_self start stop hs hpart hsize).1
    have hapart := stringSetSubstr_self_apart_iff start stop hs hpart hsize
    constructor
    · intro h
      have hle := hapart.mp h.apart
      exact .inr ⟨by omega, by omega, hle⟩
    · intro h
      refine ⟨⟨_, hrep, hother.represents⟩, hapart.mpr ?_⟩
      rcases h with hnil | ⟨-, -, hle⟩
      · rw [hnil, List.length_nil] at hpart
        omega
      · exact hle

/-- The rule is about what a call does only. -/
theorem InPlaceRule.congr {call call' : InPlaceCall ι} (hrule : InPlaceRule m s d call)
    (h : ∀ dst, call.run m dst s = call'.run m dst s) : InPlaceRule m s d call' := by
  obtain ⟨hsame, hapart⟩ := hrule
  rw [h s, h d] at hsame
  rw [h s] at hapart
  exact ⟨hsame, hapart⟩

theorem inPlaceRule_congr {call call' : InPlaceCall ι}
    (h : ∀ dst, call.run m dst s = call'.run m dst s) :
    InPlaceRule m s d call ↔ InPlaceRule m s d call' :=
  ⟨fun hrule => hrule.congr h, fun hrule => hrule.congr fun dst => (h dst).symm⟩

/-- Clearing does no harm. -/
theorem inPlaceRule_of_clear {call : InPlaceCall ι} {v v' : Bytes}
    (hs : Represents (m.buffers s) v) (hd : Represents (m.buffers d) v')
    (h : ∀ dst, call.run m dst s = m.stringClear dst) : InPlaceRule m s d call := by
  apply inPlaceRule_of_becomes (v := [])
  · rw [h s]
    exact Memory.stringClear_spec hs
  · rw [h d]
    exact Memory.stringClear_spec hd

omit [DecidableEq ι] in
theorem contents_eq (h : Represents (m.buffers s) w) : m.contents s = w := by
  have hcontents := h.contents
  rw [h.length, Nat.add_sub_cancel] at hcontents
  rw [Memory.contents, Memory.stringGetLength_eq h]
  exact hcontents

theorem zero_notMem_cstr (s : Bytes) : 0 ∉ cstr s := by
  intro h
  simpa using List.mem_takeWhile_imp h

omit [DecidableEq ι] in
theorem zero_notMem_findCstr (find : Find ι) : 0 ∉ find.cstr m := by
  cases find with
  | char c => exact zero_notMem_cstr _
  | anyOfStr f => exact zero_notMem_cstr _
  | anyOfCstr b => exact zero_notMem_cstr _

theorem headD_eq_zero_iff (s : Bytes) : s.headD 0 = 0 ↔ s = [] ∨ s.head? = some 0 := by
  cases s with
  | nil => simp
  | cons c s => simp

/-- The start of a string that is trimmed: cleared, or a part of it copied. -/
theorem trimStart_cases {find : Bytes} (h0 : 0 ∉ find) (h : Represents (m.buffers s) w)
    (dst : ι) :
    let rest := w.dropWhile (· ∈ find)
    m.trimStart dst s find = if rest.headD 0 = 0 then m.stringClear dst
      else m.stringSetSubstr dst s (w.length - rest.length) w.length := by
  have hsplit :=
    congrArg List.length (List.takeWhile_append_dropWhile (p := (· ∈ find)) (l := w))
  rw [List.length_append] at hsplit
  have hindex : (w.takeWhile (· ∈ find)).length
    = w.length - (w.dropWhile (· ∈ find)).length := by
    omega
  unfold Memory.trimStart
  rw [contents_eq h, Memory.stringGetLength_eq h, stringIndexNotOfAnyCstr_cases h0, hindex]
  by_cases hzero : (w.dropWhile (· ∈ find)).headD 0 = 0
  · simp only [if_pos hzero]
  · simp only [if_neg hzero]

theorem length_pos_of_headD_ne {t : Bytes} (h : t.headD 0 ≠ 0) : 0 < t.length := by
  cases t with
  | nil => exact absurd rfl h
  | cons c t => exact Nat.succ_pos _

/-- **A trim of the start in place** does no harm if nothing is left, or if
what is left is no longer than what is trimmed. -/
theorem inPlaceRule_trimStart_iff {find : Find ι} (hs : Represents (m.buffers s) w)
    (hd : Represents (m.buffers d) w) (hne : d ≠ s) (hsize : w.length + 1 < 2 ^ 64) :
    InPlaceRule m s d (.trimStart find) ↔ InPlaceCall.Harmless w m (.trimStart find) := by
  have hcases := trimStart_cases (zero_notMem_findCstr (m := m) find) hs
  have hle : (w.dropWhile (· ∈ find.cstr m)).length ≤ w.length :=
    (List.dropWhile_suffix _).length_le
  by_cases hzero : (w.dropWhile (· ∈ find.cstr m)).headD 0 = 0
  · have hclear : ∀ dst, (InPlaceCall.trimStart find).run m dst s = m.stringClear dst := by
      intro dst
      rw [InPlaceCall.run_trimStart, hcases, if_pos hzero]
    apply iff_of_true (inPlaceRule_of_clear hs hd hclear)
    rcases (headD_eq_zero_iff _).mp hzero with hnil | hhead
    · exact .inl hnil
    · exact .inr (.inl hhead)
  · have hpos := length_pos_of_headD_ne hzero
    have hpart : ∀ dst, (InPlaceCall.trimStart find).run m dst s
        = (InPlaceCall.setSubstr (w.length - (w.dropWhile (· ∈ find.cstr m)).length)
            w.length).run m dst s := by
      intro dst
      rw [InPlaceCall.run_trimStart, hcases, if_neg hzero]
      rfl
    rw [inPlaceRule_congr hpart, inPlaceRule_setSubstr_iff hs hd hne hsize]
    have hnot := mt (headD_eq_zero_iff _).mpr hzero
    rw [not_or] at hnot
    have hw : w ≠ [] := by
      rintro rfl
      exact hnot.1 rfl
    simp only [InPlaceCall.Harmless, hw, hnot.1, hnot.2, false_or]
    omega

/-- The end of a string that is trimmed: cleared, or copied onto itself. -/
theorem trimEnd_cases (find : Bytes) (h : Represents (m.buffers s) w)
    (hsize : w.length + 1 < 2 ^ 64) :
    (∀ c ∈ w, c ∈ find) ∧ (∀ dst, m.trimEnd dst s find = m.stringClear dst)
      ∨ ∃ k, SymbolAt (· ∉ find) w k ∧
          ∀ dst, m.trimEnd dst s find = m.stringSetSubstr dst s 0 (k + 1) := by
  have hlast := stringReverseIndexNotOfAnyCstr_isLast w find w.length
  unfold Memory.trimEnd
  rw [contents_eq h, Memory.stringGetLength_eq h]
  cases hindex : stringReverseIndexNotOfAnyCstr w find w.length with
  | none =>
      rw [hindex] at hlast
      left
      refine ⟨?_, fun dst => rfl⟩
      intro c hc
      obtain ⟨k, hk, rfl⟩ := List.getElem_of_mem hc
      by_contra hnot
      exact hlast k (Nat.le_of_lt hk) ⟨_, List.getElem?_eq_getElem hk, hnot⟩
  | some k =>
      rw [hindex] at hlast
      have hlt := hlast.2.1.lt
      have hsum : sizeAdd k 1 = k + 1 := Nat.mod_eq_of_lt (by omega)
      right
      refine ⟨k, hlast.2.1, ?_⟩
      intro dst
      simp only [hsum]

omit [DecidableEq ι] in
/-- The front of a string copied onto itself. -/
theorem not_harmless_front {k : Nat} (hk : k < w.length) :
    ¬ InPlaceCall.Harmless w m (.setSubstr 0 (k + 1) : InPlaceCall ι) := by
  rintro (rfl | ⟨-, -, hle⟩)
  · exact absurd hk (Nat.not_lt_zero k)
  · omega

/-- **A trim of the end in place** does no harm only if nothing is left. -/
theorem inPlaceRule_trimEnd_iff {find : Find ι} (hs : Represents (m.buffers s) w)
    (hd : Represents (m.buffers d) w) (hne : d ≠ s) (hsize : w.length + 1 < 2 ^ 64) :
    InPlaceRule m s d (.trimEnd find) ↔ InPlaceCall.Harmless w m (.trimEnd find) := by
  rcases trimEnd_cases (find.cstr m) hs hsize with ⟨hall, hclear⟩ | ⟨k, hk, hpart⟩
  · apply iff_of_true _ hall
    apply inPlaceRule_of_clear hs hd
    intro dst
    rw [InPlaceCall.run_trimEnd, hclear]
  · have hcall : ∀ dst, (InPlaceCall.trimEnd find).run m dst s
        = (InPlaceCall.setSubstr 0 (k + 1)).run m dst s := by
      intro dst
      rw [InPlaceCall.run_trimEnd, hpart]
      rfl
    rw [inPlaceRule_congr hcall, inPlaceRule_setSubstr_iff hs hd hne hsize]
    apply iff_of_false (not_harmless_front hk.lt)
    intro hall
    obtain ⟨c, hget, hc⟩ := hk
    exact hc (hall c (List.mem_of_getElem? hget))

omit [DecidableEq ι] in
/-- The characters to look for, after a change to a string that they are not
in. -/
theorem find_cstr_congr {find : Find ι} {m' : Memory ι} (hfind : find ≠ .anyOfStr s)
    (hframe : ∀ t, t ≠ s → m'.buffers t = m.buffers t) : find.cstr m' = find.cstr m := by
  cases find with
  | char c => rfl
  | anyOfStr f =>
      have hf : f ≠ s := fun heq => hfind (congrArg Find.anyOfStr heq)
      show cstr (load (m'.buffers f).data 0 (m'.buffers f).capacity) = _
      rw [hframe f hf]
      rfl
  | anyOfCstr b => rfl

omit [DecidableEq ι] in
/-- The bytes of a string up to a 0, found through its memory. -/
theorem stringGetCstr_eq (h : Represents (m.buffers s) w) : m.stringGetCstr s = cstr w := by
  have hfront := h.front
  have hroom := hfront.room
  have hcap : (m.buffers s).capacity
      = (w ++ [0]).length + ((m.buffers s).capacity - (w ++ [0]).length) := by omega
  rw [Memory.stringGetCstr, hcap, load_add, hfront.bytes, List.append_assoc, List.singleton_append]
  exact (takeWhile_append_mark (p := fun b => decide (b ≠ 0)) rfl w _).1

/-- A string that is trimmed by its own characters is cleared. -/
theorem headD_dropWhile_cstr (w : Bytes) : (w.dropWhile (· ∈ cstr w)).headD 0 = 0 := by
  have hstop : ∀ c, (w.dropWhile fun b => decide (b ≠ 0)).head? = some c → c = 0 := by
    intro c hc
    have hhead := List.head?_dropWhile_not (fun b => decide (b ≠ 0)) w
    rw [hc] at hhead
    simpa using hhead
  have hdrop := (takeWhile_append_stop (p := fun b => decide (b ∈ cstr w)) (w := cstr w)
    (s := w.dropWhile fun b => decide (b ≠ 0)) (fun c hc => decide_eq_true hc) (fun c hc => by
      rw [hstop c hc]
      exact decide_eq_false (zero_notMem_cstr w))).2
  have hsplit : cstr w ++ w.dropWhile (fun b => decide (b ≠ 0)) = w :=
    List.takeWhile_append_dropWhile
  rw [hsplit] at hdrop
  rw [hdrop]
  cases hrest : w.dropWhile (fun b => decide (b ≠ 0)) with
  | nil => rfl
  | cons c t => exact hstop c (by rw [hrest]; rfl)

/-- A suffix as a part. -/
theorem stringSetSubstr_suffix {rest : Bytes} (h : rest <:+ w) (hpos : 0 < rest.length) :
    stringSetSubstr w (w.length - rest.length) w.length = rest := by
  have hle := h.length_le
  have hdrop := List.suffix_iff_eq_drop.mp h
  rw [stringSetSubstr, stringAppendSubstr, if_neg (by omega), List.nil_append, ← hdrop,
    Nat.min_self, Nat.sub_sub_self hle, List.take_length]

/-- Where the trim of the start leaves something, the trim of the end copies it
onto itself. -/
theorem not_apart_trim {find : Find ι} (hs : Represents (m.buffers s) w)
    (hsize : w.length + 1 < 2 ^ 64)
    (hrest : (w.dropWhile (· ∈ find.cstr m)).headD 0 ≠ 0) :
    ¬ ∀ a ∈ ((InPlaceCall.trim find).run m s s).accesses.drop m.accesses.length, a.Apart := by
  have hsuffix : w.dropWhile (· ∈ find.cstr m) <:+ w := List.dropWhile_suffix _
  have hpos := length_pos_of_headD_ne hrest
  have hle := hsuffix.length_le
  have hstart := trimStart_cases (zero_notMem_findCstr (m := m) find) hs s
  have hfind : find ≠ .anyOfStr s := by
    rintro rfl
    have hcstr : (Find.anyOfStr s).cstr m = cstr w := stringGetCstr_eq hs
    rw [hcstr] at hrest
    exact hrest (headD_dropWhile_cstr w)
  rw [InPlaceCall.run_trim, hstart, if_neg hrest]
  generalize hgen : w.dropWhile (· ∈ find.cstr m) = rest at *
  obtain ⟨hrep, hframe, hlog⟩ := stringSetSubstr_self (w.length - rest.length) w.length hs
    (by omega) hsize
  rw [stringSetSubstr_suffix hsuffix hpos] at hrep
  rw [find_cstr_congr hfind hframe]
  rcases trimEnd_cases (find.cstr m) hrep (by omega) with ⟨hall, -⟩ | ⟨k, hk, hpart⟩
  · exfalso
    have hhead := List.head?_dropWhile_not (fun b => decide (b ∈ find.cstr m)) w
    rw [hgen] at hhead
    cases rest with
    | nil => exact absurd hpos (Nat.lt_irrefl 0)
    | cons c t => simp [hall c List.mem_cons_self] at hhead
  · rw [hpart s]
    intro hapart
    have hlt := hk.lt
    have hlonger : m.accesses.length ≤ (m.stringSetSubstr s s (w.length - rest.length)
        w.length).accesses.length := by
      rw [hlog, List.length_append]
      exact Nat.le_add_right _ _
    have hover := (stringSetSubstr_self_apart_iff 0 (k + 1) hrep (by omega) (by omega)).mp
      fun a ha => hapart a (List.drop_subset_drop_left _ hlonger ha)
    omega

/-- **A trim of both ends in place** does no harm only if nothing is left
after the start. -/
theorem inPlaceRule_trim_iff {find : Find ι} (hs : Represents (m.buffers s) w)
    (hd : Represents (m.buffers d) w) (hsize : w.length + 1 < 2 ^ 64) :
    InPlaceRule m s d (.trim find) ↔ InPlaceCall.Harmless w m (.trim find) := by
  have hcases := trimStart_cases (zero_notMem_findCstr (m := m) find) hs
  by_cases hzero : (w.dropWhile (· ∈ find.cstr m)).headD 0 = 0
  · apply iff_of_true _ ((headD_eq_zero_iff _).mp hzero)
    have hclears : ∀ dst v, Represents (m.buffers dst) v →
        Memory.Becomes dst [] m ((InPlaceCall.trim find).run m dst s) := by
      intro dst v hdst
      have hclear := Memory.stringClear_spec hdst
      rw [InPlaceCall.run_trim, hcases, if_pos hzero]
      rcases trimEnd_cases (find.cstr (m.stringClear dst)) hclear.represents (by decide) with
        ⟨-, hend⟩ | ⟨k, hk, -⟩
      · have hclear' := Memory.stringClear_spec hclear.represents
        rw [hend]
        exact ⟨hclear'.represents, hclear.only.trans hclear'.only⟩
      · exact absurd hk.lt (Nat.not_lt_zero k)
    exact inPlaceRule_of_becomes (hclears s w hs) (hclears d w hd)
  · exact iff_of_false (fun h => not_apart_trim hs hsize hzero h.apart)
      (mt (headD_eq_zero_iff _).mpr hzero)

/-- **The calls in place** leave what they leave in another string, and copy no
bytes onto each other, exactly if they are harmless. An object has less than
2^63 bytes. -/
theorem inPlaceRule_iff {call : InPlaceCall ι} (hs : Represents (m.buffers s) w)
    (hd : Represents (m.buffers d) w) (hne : d ≠ s) (hsize : w.length + 1 < 2 ^ 63) :
    InPlaceRule m s d call ↔ call.Harmless w m := by
  have happend : ∀ start stop,
      (stringAppendSubstr w w start stop).length + 1 < 2 ^ 64 := by
    intro start stop
    unfold stringAppendSubstr
    split
    · omega
    · rw [List.length_append, List.length_take, List.length_drop]
      omega
  cases call with
  | setSubstr start stop => exact inPlaceRule_setSubstr_iff hs hd hne (by omega)
  | appendSubstr start stop =>
      exact iff_of_true (inPlaceRule_of_becomes
        (Memory.stringAppendSubstr_spec hs hs (happend start stop))
        (Memory.stringAppendSubstr_spec hd hs (happend start stop))) trivial
  | tolower =>
      exact iff_of_true (inPlaceRule_of_becomes (Memory.stringMap_spec tolower hs hs (by omega))
        (Memory.stringMap_spec tolower hd hs (by omega))) trivial
  | toupper =>
      exact iff_of_true (inPlaceRule_of_becomes
        (Memory.stringMap_spec Memory.toupper hs hs (by omega))
        (Memory.stringMap_spec Memory.toupper hd hs (by omega))) trivial
  | trimStart find => exact inPlaceRule_trimStart_iff hs hd hne (by omega)
  | trimEnd find => exact inPlaceRule_trimEnd_iff hs hd hne (by omega)
  | trim find => exact inPlaceRule_trim_iff hs hd (by omega)

end Calls

/-- String 0 and a copy of it, string 1. -/
def copies (c : Bytes) : Memory Nat :=
  (Memory.untouched.stringInitCstrLen 0 c c.length).stringInitCstrLen 1 c c.length

theorem copies_represent {c : Bytes} (hsize : c.length + 1 < 2 ^ 64) :
    Represents ((copies c).buffers 0) c ∧ Represents ((copies c).buffers 1) c := by
  have hfirst := Memory.stringInitCstrLen_spec Memory.untouched 0 (Nat.le_refl c.length) hsize
  have hcopy := Memory.stringInitCstrLen_spec
    (Memory.untouched.stringInitCstrLen 0 c c.length) 1 (Nat.le_refl c.length) hsize
  rw [List.take_length] at hfirst hcopy
  constructor
  · have hframe := hcopy.only.frame 0 (by decide)
    rw [copies, hframe]
    exact hfirst.represents
  · exact hcopy.represents

/-- The second half of `abcd` goes to its front. -/
theorem inPlaceRule_half : InPlaceRule (copies (ascii "abcd")) 0 1 (.setSubstr 2 4) := by
  obtain ⟨hs, hd⟩ := copies_represent (show (ascii "abcd").length + 1 < 2 ^ 64 by decide)
  apply (inPlaceRule_iff hs hd (by decide) (by decide)).mpr
  exact .inr ⟨by decide, by decide, by decide⟩

/-- An empty part leaves `abc` in place and nothing elsewhere, and a trim of
its end copies it onto itself. -/
theorem not_inPlaceRule_empty :
    let m := copies (ascii "abc")
    Represents (m.buffers 0) (ascii "abc") ∧ Represents (m.buffers 1) (ascii "abc") ∧
      ¬ InPlaceRule m 0 1 (.setSubstr 2 2) ∧ ¬ InPlaceRule m 0 1 (.trimEnd (.char 32)) := by
  obtain ⟨hs, hd⟩ := copies_represent (show (ascii "abc").length + 1 < 2 ^ 64 by decide)
  refine ⟨hs, hd, ?_, ?_⟩
  · rw [inPlaceRule_setSubstr_iff hs hd (by decide) (by decide)]
    rintro (hnil | ⟨hlt, -⟩)
    · exact absurd hnil (by decide)
    · exact absurd hlt (Nat.lt_irrefl 2)
  · rw [inPlaceRule_trimEnd_iff hs hd (by decide) (by decide)]
    intro hall
    have ha : (97 : UInt8) ∈ cstr [32, 0] := hall 97 (by decide)
    exact absurd ha (by decide)

end CWebServer.Buffers
