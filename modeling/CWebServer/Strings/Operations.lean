import CWebServer.Strings.Representation

/-!
# Strings — Operations

A program that calls the functions of `string.c` on strings of its own: after
any calls whose sizes do not overflow, each string represents the list of
bytes that the same calls on lists give, and no write has left the memory of
its string.
-/

namespace CWebServer.Buffers

open CWebServer.Lib CWebServer.Strings

/-- The functions that change a string, with their arguments; a `char *` is
the bytes from there on. -/
inductive Op (ι : Type)
  | init (s : ι)
  | initCstrLen (s : ι) (c : Bytes) (len : Nat)
  | setLength (s : ι) (newLen : Nat) (fill : UInt8)
  | clear (s : ι)
  | appendStr (s other : ι)
  | appendCstr (s : ι) (other : Bytes)
  | appendCstrLen (s : ι) (other : Bytes) (otherLen : Nat)
  | appendSubstr (dst src : ι) (start stop : Nat)
  | setStr (s other : ι)
  | setCstr (s : ι) (other : Bytes)
  | setCstrLen (s : ι) (other : Bytes) (otherLen : Nat)
  | setSubstr (dst src : ι) (start stop : Nat)
  | tolower (dst src : ι)
  | toupper (dst src : ι)

namespace Op

variable {ι : Type}

/-- The string that is changed. -/
def target : Op ι → ι
  | init s | initCstrLen s _ _ | setLength s _ _ | clear s | appendStr s _ | appendCstr s _
  | appendCstrLen s _ _ | appendSubstr s _ _ _ | setStr s _ | setCstr s _ | setCstrLen s _ _
  | setSubstr s _ _ _ | tolower s _ | toupper s _ => s

/-- The string that is read. -/
def operand : Op ι → Option ι
  | appendStr _ t | appendSubstr _ t _ _ | setStr _ t | setSubstr _ t _ _ | tolower _ t
  | toupper _ t => some t
  | _ => none

/-- Whether the string comes into being. -/
def creates : Op ι → Bool
  | init _ | initCstrLen _ _ _ => true
  | _ => false

/-- A `char *` has a terminating 0, or as many bytes as its length says. -/
def Readable : Op ι → Prop
  | initCstrLen _ c len | appendCstrLen _ c len | setCstrLen _ c len => len ≤ c.length
  | appendCstr _ c | setCstr _ c => 0 ∈ c
  | _ => True

/-- What the functions do to contents: `w` are those of the string that is
changed, `u` those of the one that is read. -/
def contents (w u : Bytes) : Op ι → Bytes
  | init _ | clear _ => []
  | initCstrLen _ c len | setCstrLen _ c len => c.take len
  | setLength _ newLen fill => w.take newLen ++ List.replicate (newLen - w.length) fill
  | appendStr _ _ => w ++ u
  | appendCstr _ c => w ++ cstr c
  | appendCstrLen _ c len => w ++ c.take len
  | appendSubstr _ _ start stop => stringAppendSubstr w u start stop
  | setStr _ _ => u
  | setCstr _ c => cstr c
  | setSubstr _ _ start stop => stringSetSubstr u start stop
  | tolower _ _ => stringTolower u
  | toupper _ _ => u.map Memory.toupper

variable [DecidableEq ι]

/-- The function in memory. -/
def exec (m : Memory ι) : Op ι → Memory ι
  | init s => m.stringInit s
  | initCstrLen s c len => m.stringInitCstrLen s c len
  | setLength s newLen fill => m.stringSetLength s newLen fill
  | clear s => m.stringClear s
  | appendStr s other => m.stringAppendStr s other
  | appendCstr s other => m.stringAppendCstr s other
  | appendCstrLen s other otherLen => m.stringAppendCstrLen s other otherLen
  | appendSubstr dst src start stop => m.stringAppendSubstr dst src start stop
  | setStr s other => m.stringSetStr s other
  | setCstr s other => m.stringSetCstr s other
  | setCstrLen s other otherLen => m.stringSetCstrLen s other otherLen
  | setSubstr dst src start stop => m.stringSetSubstr dst src start stop
  | tolower dst src => m.stringTolower dst src
  | toupper dst src => m.stringToupper dst src

end Op

/-- Strings as lists of bytes; `none` before they come into being. -/
abbrev Texts (ι : Type) :=
  ι → Option Bytes

/-- The contents of a string. -/
def Texts.get {ι : Type} (texts : Texts ι) (s : ι) : Bytes :=
  (texts s).getD []

/-- What a function leaves in the string that it changes. -/
def Texts.after {ι : Type} (texts : Texts ι) (op : Op ι) : Bytes :=
  op.contents (texts.get op.target) ((op.operand.map texts.get).getD [])

/-- A call with operands that are there and not the same string, with `char *`
arguments that can be read, and with a size that does not overflow. -/
structure Op.Allowed {ι : Type} (texts : Texts ι) (op : Op ι) : Prop where
  target : op.creates = false → (texts op.target).isSome
  operand : ∀ t, op.operand = some t → (texts t).isSome
  distinct : op.operand ≠ some op.target
  readable : op.Readable
  size : (texts.after op).length + 1 < 2 ^ 64

variable {ι : Type} [DecidableEq ι]

/-- One call, in memory and on lists. -/
def call (state : Memory ι × Texts ι) (op : Op ι) : Memory ι × Texts ι :=
  (op.exec state.1, Function.update state.2 op.target (some (state.2.after op)))

/-- One call after the other. -/
def callAll : List (Op ι) → Memory ι × Texts ι → Memory ι × Texts ι
  | [], state => state
  | op :: ops, state => callAll ops (call state op)

/-- Each call is allowed when its turn comes. -/
def AllAllowed : List (Op ι) → Memory ι × Texts ι → Prop
  | [], _ => True
  | op :: ops, state => op.Allowed state.2 ∧ AllAllowed ops (call state op)

/-- Each string represents its list, and each write stayed in its memory. -/
structure Represented (state : Memory ι × Texts ι) : Prop where
  strings : ∀ s w, state.2 s = some w → Represents (state.1.buffers s) w
  accesses : ∀ a ∈ state.1.accesses, a.Proper

omit [DecidableEq ι] in
theorem Represented.get {state : Memory ι × Texts ι} (h : Represented state) {s : ι}
    (hs : (state.2 s).isSome) : Represents (state.1.buffers s) (state.2.get s) := by
  obtain ⟨w, hw⟩ := Option.isSome_iff_exists.mp hs
  have hget : state.2.get s = w := by rw [Texts.get, hw, Option.getD_some]
  rw [hget]
  exact h.strings s w hw

/-- **A call** leaves in its string what it does to lists. -/
theorem becomes_exec {state : Memory ι × Texts ι} (h : Represented state) {op : Op ι}
    (hok : op.Allowed state.2) :
    Memory.Becomes op.target (state.2.after op) state.1 (op.exec state.1) := by
  have htarget := fun hc => h.get (hok.target hc)
  have hoperand := fun t ht => h.get (hok.operand t ht)
  have hdistinct := hok.distinct
  have hread := hok.readable
  have hsize := hok.size
  cases op with
  | init s => exact Memory.stringInit_spec state.1 s
  | initCstrLen s c len =>
      have hlen : (c.take len).length = len := List.length_take_of_le hread
      exact Memory.stringInitCstrLen_spec state.1 s hread (hlen ▸ hsize)
  | setLength s newLen fill =>
      have hlen := Memory.length_setLengthContents (state.2.get s) newLen fill
      exact Memory.stringSetLength_spec (htarget rfl) fill (hlen ▸ hsize)
  | clear s => exact Memory.stringClear_spec (htarget rfl)
  | appendStr s other =>
      have hne : other ≠ s := fun heq => hdistinct (congrArg some heq)
      have hlen : (state.2.get s ++ state.2.get other).length
          = (state.2.get s).length + (state.2.get other).length := List.length_append
      exact Memory.stringAppendStr_spec hne (htarget rfl) (hoperand other rfl) (hlen ▸ hsize)
  | appendCstr s other =>
      have hlen : (state.2.get s ++ cstr other).length
          = (state.2.get s).length + (cstr other).length := List.length_append
      exact Memory.stringAppendCstr_spec (htarget rfl) hread (hlen ▸ hsize)
  | appendCstrLen s other otherLen =>
      have hlen : (state.2.get s ++ other.take otherLen).length
          = (state.2.get s).length + otherLen := by
        rw [List.length_append, List.length_take_of_le hread]
      exact Memory.stringAppendCstrLen_spec (htarget rfl) hread (hlen ▸ hsize)
  | appendSubstr dst src start stop =>
      exact Memory.stringAppendSubstr_spec (htarget rfl) (hoperand src rfl) hsize
  | setStr s other =>
      have hne : other ≠ s := fun heq => hdistinct (congrArg some heq)
      exact Memory.stringSetStr_spec hne (htarget rfl) (hoperand other rfl) hsize
  | setCstr s other => exact Memory.stringSetCstr_spec (htarget rfl) hread hsize
  | setCstrLen s other otherLen =>
      have hlen : (other.take otherLen).length = otherLen := List.length_take_of_le hread
      exact Memory.stringSetCstrLen_spec (htarget rfl) hread (hlen ▸ hsize)
  | setSubstr dst src start stop =>
      have hne : src ≠ dst := fun heq => hdistinct (congrArg some heq)
      exact Memory.stringSetSubstr_spec hne (htarget rfl) (hoperand src rfl) hsize
  | tolower dst src =>
      have hlen : (stringTolower (state.2.get src)).length = (state.2.get src).length :=
        List.length_map _
      exact Memory.stringMap_spec tolower (htarget rfl) (hoperand src rfl) (hlen ▸ hsize)
  | toupper dst src =>
      have hlen : ((state.2.get src).map Memory.toupper).length = (state.2.get src).length :=
        List.length_map _
      exact Memory.stringMap_spec Memory.toupper (htarget rfl) (hoperand src rfl) (hlen ▸ hsize)

/-- One call keeps what all strings and writes have. -/
theorem Represented.call {state : Memory ι × Texts ι} (h : Represented state) {op : Op ι}
    (hok : op.Allowed state.2) : Represented (call state op) := by
  have hbecomes := becomes_exec h hok
  refine ⟨?_, hbecomes.only.forall_accesses h.accesses⟩
  intro s w hw
  have hw' : Function.update state.2 op.target (some (state.2.after op)) s = some w := hw
  show Represents ((op.exec state.1).buffers s) w
  by_cases hs : s = op.target
  · subst hs
    rw [Function.update_self] at hw'
    cases hw'
    exact hbecomes.represents
  · rw [Function.update_of_ne hs] at hw'
    rw [hbecomes.only.frame s hs]
    exact h.strings s w hw'

theorem Represented.callAll {ops : List (Op ι)} {state : Memory ι × Texts ι}
    (h : Represented state) (hok : AllAllowed ops state) : Represented (callAll ops state) := by
  induction ops generalizing state with
  | nil => exact h
  | cons op ops ih => exact ih (h.call hok.1) hok.2

end CWebServer.Buffers
