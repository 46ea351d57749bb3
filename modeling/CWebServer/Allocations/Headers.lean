import CWebServer.Allocations.Strings
import CWebServer.Http.Headers

/-!
# Allocations — Headers

`http_header` and `http_headers` over a heap. `erase` is what a reader sees of
them, the header collections of `Http.Headers`; each operation does to it what
the operation there does.
-/

namespace CWebServer.Allocations

open CWebServer.Lib CWebServer.Strings CWebServer.Http

/-! ## One header -/

/-- `http_header`. -/
structure HeapHeader where
  name : HeapString
  values : HeapArray HeapString
  valuesLength : Nat
  valuesLength_le : valuesLength ≤ values.slots.length

namespace HeapHeader

def blocks (h : HeapHeader) : Multiset Block := h.name.blocks + h.values.blocks HeapString.blocks

def erase (h : HeapHeader) : HttpHeader where
  name := h.name.text
  values := h.values.slots.map HeapString.text
  valuesLength := h.valuesLength
  valuesLength_le := by rw [List.length_map]; exact h.valuesLength_le

/-- `http_header_init`. -/
def init : Alloc HeapHeader := do
  let ⟨name, _⟩ ← HeapString.init
  pure ⟨name, .empty, 0, zero_le_zero⟩

/-- `http_header_dealloc`. -/
def dealloc (h : HeapHeader) : Alloc Unit := do
  h.name.dealloc
  h.values.dealloc HeapString.dealloc

/-- `http_header_clear`. -/
def clear (h : HeapHeader) : HeapHeader :=
  { h with valuesLength := 0, valuesLength_le := Nat.zero_le _ }

/-- `http_header_append_value`, and `write` of the string that it returns. -/
def appendValue (h : HeapHeader) (write : HeapString → Alloc HeapString) : Alloc HeapHeader :=
  if hfull : h.valuesLength = h.values.slots.length then do
    let ⟨values, hlength⟩ ← h.values.grow ((·.1) <$> HeapString.init)
    let ⟨values, _, hlength'⟩ ← values.onSlot h.valuesLength write
    pure ⟨h.name, values, h.valuesLength + 1, by rw [hlength', hlength, hfull]⟩
  else do
    let ⟨values, _, hlength⟩ ← h.values.onSlot h.valuesLength write
    pure ⟨h.name, values, h.valuesLength + 1, by
      have := h.valuesLength_le
      omega⟩

/-- `string_set_cstr_len` of the string that `http_header_get_name` returns. -/
def setName (h : HeapHeader) (name : Bytes) : Alloc HeapHeader := do
  let ⟨name, _⟩ ← h.name.setCstrLen name
  pure { h with name := name }

end HeapHeader

/-! ## Collections -/

/-- `http_headers`. -/
structure HeapHeaders where
  headers : HeapArray HeapHeader
  headersLength : Nat
  headersLength_le : headersLength ≤ headers.slots.length

/-- `http_header *`: an element of an array. It is not to be used once the
array has been moved. -/
structure HeaderPointer where
  array : Nat
  index : Nat
deriving DecidableEq, Repr

namespace HeapHeaders

def blocks (hs : HeapHeaders) : Multiset Block := hs.headers.blocks HeapHeader.blocks

def erase (hs : HeapHeaders) : HttpHeaders where
  headers := hs.headers.slots.map HeapHeader.erase
  headersLength := hs.headersLength
  headersLength_le := by rw [List.length_map]; exact hs.headersLength_le

/-- `http_headers_init`. -/
def init : HeapHeaders := ⟨.empty, 0, zero_le_zero⟩

/-- `http_headers_dealloc`. -/
def dealloc (hs : HeapHeaders) : Alloc Unit := hs.headers.dealloc HeapHeader.dealloc

/-- `http_headers_clear`. -/
def clear (hs : HeapHeaders) : HeapHeaders :=
  { hs with headersLength := 0, headersLength_le := Nat.zero_le _ }

/-- `&headers->headers[i]`. -/
def pointer (hs : HeapHeaders) (i : Nat) : Option HeaderPointer :=
  hs.headers.data.map fun array => ⟨array, i⟩

/-- The search of `http_headers_get_cstr_len`, from `i` on. -/
def findLoop (data : Option Nat) (name : Bytes) : Nat → List HeapHeader → Alloc (Option Nat)
  | _, [] => pure none
  | i, h :: rest => do
      accessPointer data i 1
      h.name.read
      if stringCompareCstrLen .caseInsensitive h.name.text name = 0 then pure (some i)
      else findLoop data name (i + 1) rest

/-- The slot behind those in use is made the header `name`. -/
def create (hs : HeapHeaders) (name : Bytes) : Alloc HeapHeaders :=
  if hfull : hs.headersLength = hs.headers.slots.length then do
    let ⟨headers, hlength⟩ ← hs.headers.grow HeapHeader.init
    let ⟨headers, _, hlength'⟩ ← headers.onSlot hs.headersLength fun h => h.clear.setName name
    pure ⟨headers, hs.headersLength + 1, by rw [hlength', hlength, hfull]⟩
  else do
    let ⟨headers, _, hlength⟩ ← hs.headers.onSlot hs.headersLength fun h =>
      h.clear.setName name
    pure ⟨headers, hs.headersLength + 1, by
      have := hs.headersLength_le
      omega⟩

/-- `http_headers_get_cstr_len`; `none` is `NULL`. -/
def getCstrLen (hs : HeapHeaders) (name : Bytes) (createIfMissing : Bool) :
    Alloc (Option HeaderPointer × HeapHeaders) := do
  match ← findLoop hs.headers.data name 0 (hs.headers.slots.take hs.headersLength) with
  | some i => pure (hs.pointer i, hs)
  | none =>
      if createIfMissing then do
        let hs' ← hs.create name
        pure (hs'.pointer hs.headersLength, hs')
      else pure (none, hs)

/-- A call on the header behind a pointer, which has to point into the array
as it is now. -/
def onHeader (hs : HeapHeaders) (p : HeaderPointer) (f : HeapHeader → Alloc HeapHeader) :
    Alloc HeapHeaders := do
  access p.array p.index 1
  if hs.headers.data = some p.array then do
    let ⟨headers, _, hlength⟩ ← hs.headers.onSlot p.index f
    pure ⟨headers, hs.headersLength, by rw [hlength]; exact hs.headersLength_le⟩
  else failure

end HeapHeaders

/-! ## What the operations do -/

namespace HeapHeader

variable (h : HeapHeader)

@[simp] theorem blocks_clear : h.clear.blocks = h.blocks := rfl

@[simp] theorem erase_clear : h.clear.erase = h.erase.clear := rfl

theorem init_spec : Spec 0 init blocks fun h => h.erase = .init := by
  refine HeapString.init_spec.bind fun ⟨name, hname⟩ _ => Spec.pure ?_ ?_
  · exact (add_zero _).symm
  · simp [erase, HttpHeader.init, HeapArray.empty, hname]

theorem dealloc_spec : Spec h.blocks h.dealloc (fun _ => 0) fun _ => True := by
  refine h.name.dealloc_spec.call (h.values.blocks HeapString.blocks) rfl fun _ _ => ?_
  rw [zero_add]
  exact HeapArray.dealloc_spec fun s _ => s.dealloc_spec

/-- The string that is returned has whatever its slot held before. -/
theorem appendValue_spec {write : HeapString → Alloc HeapString} (text : Bytes → Bytes)
    (extra : Multiset Block)
    (hwrite : ∀ s : HeapString, Spec (s.blocks + extra) (write s) (fun s' => s'.blocks + extra)
      fun s' => s'.text = text s.text) :
    Spec (h.blocks + extra) (h.appendValue write) (fun h' => h'.blocks + extra)
      fun h' => h'.erase
        = h.erase.appendValue (text ((h.erase.values[h.erase.valuesLength]?).getD [])) := by
  unfold appendValue
  split
  · rename_i hfull
    have hnew : Spec 0 ((·.1) <$> HeapString.init) HeapString.blocks fun s => s.text = [] :=
      (HeapString.init_spec.mono fun s _ => s.2).map
    refine (HeapArray.grow_spec hnew).call (h.name.blocks + extra) ?_
      fun ⟨values, hlength⟩ ⟨s, hs, hslots⟩ => ?_
    · rw [blocks]
      abel
    dsimp only at hslots
    have hslot : values.slots[h.valuesLength]? = some s := by
      rw [hslots, hfull, List.getElem?_concat_length]
    refine (HeapArray.onSlot_spec hslot extra (hwrite s)).call h.name.blocks ?_
      fun ⟨values', _, _⟩ ⟨s', hs', hslots'⟩ => Spec.pure ?_ ?_
    · dsimp only
      abel
    · rw [blocks]
      abel
    · dsimp only at hslots'
      rw [hs] at hs'
      simp [erase, HttpHeader.appendValue, hslots', hslots, hfull, hs']
  · rename_i hfull
    have hlt : h.valuesLength < h.values.slots.length :=
      Nat.lt_of_le_of_ne h.valuesLength_le hfull
    have hslot := List.getElem?_eq_getElem hlt
    refine (HeapArray.onSlot_spec hslot extra (hwrite _)).call h.name.blocks ?_
      fun ⟨values', _, _⟩ ⟨s', hs', hslots'⟩ => Spec.pure ?_ ?_
    · rw [blocks]
      abel
    · rw [blocks]
      abel
    · dsimp only at hslots'
      simp [erase, HttpHeader.appendValue, hslots', hfull, hs', hlt, List.map_set]

theorem setName_spec (name : Bytes) :
    Spec h.blocks (h.setName name) blocks fun h' => h'.erase = { h.erase with name := name } := by
  refine (h.name.setCstrLen_spec name).call (h.values.blocks HeapString.blocks) rfl
    fun ⟨name, hname⟩ _ => Spec.pure rfl ?_
  simp [erase, hname]

end HeapHeader

/-- The header that is found or made is one of the array. -/
theorem getCstrLen_lt {hs : HttpHeaders} {name : Bytes} {createIfMissing : Bool} {i : Nat}
    (h : (hs.getCstrLen name createIfMissing).1 = some i) :
    i < (hs.getCstrLen name createIfMissing).2.headersLength := by
  unfold HttpHeaders.getCstrLen at h ⊢
  cases hfind : hs.find name with
  | some j =>
      rw [hfind] at h
      obtain rfl : j = i := Option.some.inj h
      obtain ⟨hlt, -⟩ := List.findIdx?_eq_some_iff_getElem.mp hfind
      rw [HttpHeaders.live, List.length_take] at hlt
      exact Nat.lt_of_lt_of_le hlt (Nat.min_le_left _ _)
  | none =>
      rw [hfind] at h
      cases createIfMissing with
      | false => cases h
      | true =>
          obtain rfl : hs.headersLength = i := Option.some.inj h
          simp only [if_true]
          unfold HttpHeaders.create
          split <;> exact Nat.lt_succ_self _

theorem getCstrLen_create (hs : HttpHeaders) (name : Bytes) :
    ∃ i, (hs.getCstrLen name true).1 = some i := by
  unfold HttpHeaders.getCstrLen
  cases hs.find name <;> exact ⟨_, rfl⟩

namespace HeapHeaders

variable (hs : HeapHeaders)

@[simp] theorem blocks_clear : hs.clear.blocks = hs.blocks := rfl

@[simp] theorem erase_clear : hs.clear.erase = hs.erase.clear := rfl

@[simp] theorem erase_init : init.erase = .init := rfl

@[simp] theorem blocks_init : init.blocks = 0 := rfl

theorem dealloc_spec : Spec hs.blocks hs.dealloc (fun _ => 0) fun _ => True :=
  HeapArray.dealloc_spec fun h _ => h.dealloc_spec

/-- The search reads the array and the names only. -/
theorem findLoop_spec (name : Bytes) (l : List HeapHeader) (i : Nat)
    (hl : hs.headers.HasAt i l) :
    Spec hs.blocks (findLoop hs.headers.data name i l) (fun _ => hs.blocks) fun found =>
      found = ((l.map HeapHeader.erase).findIdx?
        fun h => stringCompareCstrLen .caseInsensitive h.name name = 0).map (· + i) := by
  induction l generalizing i with
  | nil => exact Spec.pure rfl rfl
  | cons h rest ih =>
      have hname : h.name.blocks ≤ hs.blocks :=
        (Multiset.le_add_right _ _).trans (HeapArray.own_le hl.head)
      refine (HeapArray.accessSlot_spec hl.head (le_refl hs.blocks)).bind fun _ _ => ?_
      refine (h.name.read_spec.within hname).bind fun _ _ => ?_
      rw [List.map_cons, List.findIdx?_cons]
      split
      · rename_i hsame
        have hsame' : stringCompareCstrLen .caseInsensitive h.erase.name name = 0 := hsame
        exact Spec.pure rfl (by simp [hsame'])
      · rename_i hother
        have hother' : ¬stringCompareCstrLen .caseInsensitive h.erase.name name = 0 := hother
        refine (ih (i + 1) hl.tail).mono fun found hfound => ?_
        rw [hfound]
        simp [hother', Option.map_map, Function.comp_def, Nat.add_comm, Nat.add_left_comm]

/-- The slot that is made the header `name`. -/
theorem nameSlot_spec {a : HeapArray HeapHeader} {i : Nat} {h : HeapHeader}
    (hslot : a.slots[i]? = some h) (name : Bytes) :
    Spec (a.blocks HeapHeader.blocks) (a.onSlot i fun h => h.clear.setName name)
      (fun a' => a'.1.blocks HeapHeader.blocks) fun a' =>
        ∃ h', h'.erase = { h.erase.clear with name := name }
          ∧ a'.1.slots = a.slots.set i h' := by
  have hset : Spec (h.blocks + 0) (h.clear.setName name) (fun h' => h'.blocks + 0)
      fun h' => h'.erase = { h.erase.clear with name := name } := by
    simpa using h.clear.setName_spec name
  simpa using HeapArray.onSlot_spec hslot 0 hset

theorem create_spec (name : Bytes) :
    Spec hs.blocks (hs.create name) blocks fun hs' => hs'.erase = hs.erase.create name
      ∧ (hs.headersLength ≠ hs.headers.slots.length →
        hs'.headers.data = hs.headers.data) := by
  unfold create
  split
  · rename_i hfull
    refine (HeapArray.grow_spec HeapHeader.init_spec).bind
      fun ⟨headers, hlength⟩ ⟨h, hh, hslots⟩ => ?_
    dsimp only at hslots
    have hslot : headers.slots[hs.headersLength]? = some h := by
      rw [hslots, hfull, List.getElem?_concat_length]
    refine (nameSlot_spec hslot name).bind fun ⟨headers', _, _⟩ ⟨h', hh', hslots'⟩ =>
      Spec.pure rfl ⟨?_, fun hnot => absurd hfull hnot⟩
    dsimp only at hslots'
    rw [hh] at hh'
    simp [erase, HttpHeaders.create, hslots', hslots, hfull, hh', HttpHeader.init,
      HttpHeader.clear]
  · rename_i hfull
    have hlt : hs.headersLength < hs.headers.slots.length :=
      Nat.lt_of_le_of_ne hs.headersLength_le hfull
    refine (nameSlot_spec (List.getElem?_eq_getElem hlt) name).bind
      fun ⟨headers', hdata, _⟩ ⟨h', hh', hslots'⟩ => Spec.pure rfl ⟨?_, fun _ => hdata⟩
    dsimp only at hslots'
    simp [erase, HttpHeaders.create, hslots', hfull, List.map_set, hh', List.modify_eq_set_getElem?,
      hlt]

/-- A creation that finds the array full frees it. -/
theorem create_frees {q : Nat} (hq : hs.headers.data = some q)
    (hfull : hs.headersLength = hs.headers.slots.length) (name : Bytes) :
    Frees q hs.blocks (hs.create name) blocks fun _ => True := by
  rw [create, dif_pos hfull]
  refine (HeapArray.grow_frees hq HeapHeader.init_spec).bind
    fun ⟨headers, hlength⟩ ⟨h, _, hslots⟩ => ?_
  dsimp only at hslots
  have hslot : headers.slots[hs.headersLength]? = some h := by
    rw [hslots, hfull, List.getElem?_concat_length]
  exact (nameSlot_spec hslot name).bind fun ⟨_, _, _⟩ _ => Spec.pure rfl trivial

/-- The search in the headers in use. -/
theorem find_spec (name : Bytes) :
    Spec hs.blocks (findLoop hs.headers.data name 0 (hs.headers.slots.take hs.headersLength))
      (fun _ => hs.blocks) fun found => found = hs.erase.find name := by
  refine (hs.findLoop_spec name _ 0 (hs.headers.hasAt_take _)).mono fun found hfound => ?_
  rw [hfound, List.map_take]
  simp [HttpHeaders.find, HttpHeaders.live, erase]

/-- A call that moves the array: there is no such header, and no room for
one. -/
def Moves (hs : HttpHeaders) (name : Bytes) (createIfMissing : Bool) : Prop :=
  createIfMissing = true ∧ hs.find name = none ∧ hs.headersLength = hs.headers.length

/-- The header that is found or made, and a pointer to it into the array as it
is then. -/
theorem getCstrLen_spec (name : Bytes) (createIfMissing : Bool) :
    Spec hs.blocks (hs.getCstrLen name createIfMissing) (fun r => r.2.blocks) fun r =>
      r.2.erase = (hs.erase.getCstrLen name createIfMissing).2
        ∧ r.1 = (hs.erase.getCstrLen name createIfMissing).1.bind r.2.pointer
        ∧ (createIfMissing = false → r.2 = hs)
        ∧ (¬Moves hs.erase name createIfMissing → r.2.headers.data = hs.headers.data) := by
  refine (hs.find_spec name).bind fun found hfind => ?_
  cases hslot : found with
  | some i =>
      have hpure : hs.erase.getCstrLen name createIfMissing = (some i, hs.erase) := by
        rw [HttpHeaders.getCstrLen, ← hfind, hslot]
      rw [hpure]
      exact Spec.pure rfl ⟨rfl, rfl, fun _ => rfl, fun _ => rfl⟩
  | none =>
      cases createIfMissing with
      | true =>
          have hpure : hs.erase.getCstrLen name true
              = (some hs.headersLength, hs.erase.create name) := by
            rw [HttpHeaders.getCstrLen, ← hfind, hslot]
            rfl
          rw [hpure]
          refine (hs.create_spec name).bind fun hs' ⟨herase, hdata⟩ => Spec.pure rfl
            ⟨herase, rfl, nofun, fun hstays => hdata fun hfull => hstays ⟨rfl, ?_, ?_⟩⟩
          · rw [← hfind, hslot]
          · rw [erase, List.length_map]
            exact hfull
      | false =>
          have hpure : hs.erase.getCstrLen name false = (none, hs.erase) := by
            rw [HttpHeaders.getCstrLen, ← hfind, hslot]
            rfl
          rw [hpure]
          exact Spec.pure rfl ⟨rfl, rfl, fun _ => rfl, fun _ => rfl⟩

theorem getCstrLen_frees {q : Nat} (hq : hs.headers.data = some q) {name : Bytes}
    {createIfMissing : Bool} (hmoves : Moves hs.erase name createIfMissing) :
    Frees q hs.blocks (hs.getCstrLen name createIfMissing) (fun r => r.2.blocks)
      fun _ => True := by
  obtain ⟨rfl, hfind, hfull⟩ := hmoves
  rw [erase, List.length_map] at hfull
  refine (hs.find_spec name).bind_frees fun found hfound => ?_
  obtain rfl : found = none := hfound.trans hfind
  exact (hs.create_frees hq hfull name).bind fun _ _ => Spec.pure rfl trivial

/-- A pointer to a header that is there, into the array as it is now. -/
def PointsTo (hs : HeapHeaders) (i : Nat) (p : HeaderPointer) : Prop :=
  hs.pointer i = some p ∧ i < hs.headers.slots.length

variable {hs}

theorem PointsTo.access {i : Nat} {p : HeaderPointer} (h : hs.PointsTo i p) :
    p.index = i ∧ hs.headers.data = some p.array
      ∧ Spec hs.blocks (access p.array p.index 1) (fun _ => hs.blocks) fun _ => True := by
  obtain ⟨hpointer, hi⟩ := h
  obtain ⟨array, hdata, rfl⟩ := Option.map_eq_some_iff.mp hpointer
  have haccess := HeapArray.accessPointer_spec hi
    (Multiset.le_add_right (blockOf hs.headers.data hs.headers.slots.length)
      (hs.headers.slots.map HeapHeader.blocks).sum)
  rw [hdata] at haccess
  refine ⟨rfl, hdata, ?_⟩
  rw [blocks, HeapArray.blocks, hdata]
  exact haccess

/-- There is a pointer to each header in use. -/
theorem exists_pointsTo (hs : HeapHeaders) {i : Nat} (hi : i < hs.erase.headersLength) :
    ∃ p, hs.pointer i = some p ∧ hs.PointsTo i p := by
  have hlt : i < hs.headers.slots.length := Nat.lt_of_lt_of_le hi hs.headersLength_le
  cases hdata : hs.headers.data with
  | none =>
      rw [hs.headers.data_eq_none.mp hdata] at hlt
      exact absurd hlt (Nat.not_lt_zero i)
  | some array =>
      have hp : hs.pointer i = some ⟨array, i⟩ := by rw [pointer, hdata]; rfl
      exact ⟨⟨array, i⟩, hp, hp, hlt⟩

/-- A header that is made if it is missing: there is a pointer to it. -/
theorem getCstrLen_true_spec (hs : HeapHeaders) (name : Bytes) :
    Spec hs.blocks (hs.getCstrLen name true) (fun r => r.2.blocks) fun r =>
      r.2.erase = (hs.erase.getCstrLen name true).2
        ∧ ∃ i p, (hs.erase.getCstrLen name true).1 = some i ∧ r.1 = some p
          ∧ r.2.PointsTo i p := by
  refine (hs.getCstrLen_spec name true).mono fun found hfound => ?_
  obtain ⟨herase, hp, -⟩ := hfound
  obtain ⟨i, hi⟩ := getCstrLen_create hs.erase name
  have hlt := getCstrLen_lt hi
  rw [← herase] at hlt
  obtain ⟨p, hpointer, hpoints⟩ := found.2.exists_pointsTo hlt
  rw [hi] at hp
  exact ⟨herase, i, p, hi, hp.trans hpointer, hpoints⟩

/-- A pointer into the array as it is now can be used, and it stays one. -/
theorem onHeader_spec {i : Nat} {p : HeaderPointer} (hp : hs.PointsTo i p)
    {f : HeapHeader → Alloc HeapHeader} (g : HttpHeader → HttpHeader) (extra : Multiset Block)
    (hf : ∀ h : HeapHeader, Spec (h.blocks + extra) (f h) (fun h' => h'.blocks + extra)
      fun h' => h'.erase = g h.erase) :
    Spec (hs.blocks + extra) (hs.onHeader p f) (fun hs' => hs'.blocks + extra) fun hs' =>
      hs'.erase = hs.erase.modify i g ∧ hs'.PointsTo i p := by
  obtain ⟨rfl, hdata, haccess⟩ := hp.access
  have hslot := List.getElem?_eq_getElem hp.2
  refine haccess.call extra rfl fun _ _ => ?_
  rw [if_pos hdata]
  refine (HeapArray.onSlot_spec hslot extra (hf _)).bind
    fun ⟨headers, hdata', hlength⟩ ⟨h', hh', hslots⟩ => Spec.pure rfl ⟨?_, ?_, ?_⟩
  · dsimp only at hslots
    simp only [erase, HttpHeaders.modify, hslots, List.map_set, hh', List.modify_eq_set_getElem?,
      List.getElem?_map, hslot]
    rfl
  · rw [pointer, hdata', hdata]
    rfl
  · exact hlength ▸ hp.2

end HeapHeaders

end CWebServer.Allocations
