import CWebServer.Strings.Model

/-!
# Http — Headers

`http_header` and `http_headers`. Both are arrays that are never shrunk: a
clear sets the length to 0 and later additions reuse the slots. The length
stands beside the slots and never exceeds their number, which is the
capacity.
-/

namespace CWebServer.Http

open CWebServer.Strings

/-- `http_header`: `values` are all slots, the first `valuesLength` are in
use. -/
structure HttpHeader where
  name : Bytes
  values : List Bytes
  valuesLength : Nat
  valuesLength_le : valuesLength ≤ values.length
deriving DecidableEq, Repr

/-- `http_headers`: `headers` are all slots, the first `headersLength` are in
use. -/
structure HttpHeaders where
  headers : List HttpHeader
  headersLength : Nat
  headersLength_le : headersLength ≤ headers.length
deriving DecidableEq, Repr

namespace HttpHeader

def init : HttpHeader := ⟨[], [], 0, Nat.le_refl _⟩

def clear (h : HttpHeader) : HttpHeader :=
  { h with valuesLength := 0, valuesLength_le := Nat.zero_le _ }

def getNumValues (h : HttpHeader) : Nat := h.valuesLength

/-- `NULL` for an index out of range. -/
def getValue (h : HttpHeader) (i : Nat) : Option Bytes :=
  if h.valuesLength ≤ i then none else h.values[i]?

/-- `http_header_append_value`, and the caller's write to the string that it
returns: a new slot only when all are in use. -/
def appendValue (h : HttpHeader) (value : Bytes) : HttpHeader :=
  if hfull : h.valuesLength = h.values.length then
    ⟨h.name, h.values ++ [value], h.valuesLength + 1, by simp [hfull]⟩
  else
    ⟨h.name, h.values.set h.valuesLength value, h.valuesLength + 1, by
      have := h.valuesLength_le
      simp only [List.length_set]
      omega⟩

/-- The values that can be got. -/
def live (h : HttpHeader) : List Bytes :=
  h.values.take h.valuesLength

@[simp] theorem live_clear (h : HttpHeader) : h.clear.live = [] := rfl

@[simp] theorem length_live (h : HttpHeader) : h.live.length = h.valuesLength := by
  simp [live, h.valuesLength_le]

@[simp] theorem live_appendValue (h : HttpHeader) (value : Bytes) :
    (h.appendValue value).live = h.live ++ [value] := by
  unfold appendValue
  split
  · rename_i hfull
    simp only [live, hfull, List.take_length]
    exact List.take_of_length_le (by simp)
  · rename_i hfull
    have hlt : h.valuesLength < h.values.length :=
      Nat.lt_of_le_of_ne h.valuesLength_le hfull
    simp only [live, List.take_add_one, List.take_set_of_le (Nat.le_refl _)]
    simp [hlt]

@[simp] theorem name_appendValue (h : HttpHeader) (value : Bytes) :
    (h.appendValue value).name = h.name := by
  unfold appendValue
  split <;> rfl

theorem getValue_eq (h : HttpHeader) (i : Nat) : h.getValue i = h.live[i]? := by
  unfold getValue live
  split
  · rw [List.getElem?_eq_none]
    simp only [List.length_take]
    omega
  · rw [List.getElem?_take, if_pos (by omega)]

end HttpHeader

namespace HttpHeaders

def init : HttpHeaders := ⟨[], 0, Nat.le_refl _⟩

def clear (hs : HttpHeaders) : HttpHeaders :=
  { hs with headersLength := 0, headersLength_le := Nat.zero_le _ }

def getNum (hs : HttpHeaders) : Nat := hs.headersLength

/-- The headers that can be got. -/
def live (hs : HttpHeaders) : List HttpHeader :=
  hs.headers.take hs.headersLength

/-- What a reader of the collection sees: names and value lists, in order. -/
def toList (hs : HttpHeaders) : List (Bytes × List Bytes) :=
  hs.live.map fun h => (h.name, h.live)

/-- The first header in use with this name, up to case. -/
def find (hs : HttpHeaders) (name : Bytes) : Option Nat :=
  hs.live.findIdx? fun h => stringCompareCstrLen .caseInsensitive h.name name = 0

/-- A header behind those in use: in the next slot, or in a new one. -/
def create (hs : HttpHeaders) (name : Bytes) : HttpHeaders :=
  if hfull : hs.headersLength = hs.headers.length then
    ⟨hs.headers ++ [{ HttpHeader.init with name := name }], hs.headersLength + 1, by
      simp [hfull]⟩
  else
    ⟨hs.headers.modify hs.headersLength fun h => { h.clear with name := name },
      hs.headersLength + 1, by
        have := hs.headersLength_le
        simp only [List.length_modify]
        omega⟩

/-- `http_headers_get_cstr_len`: the slot of the header, `none` for `NULL`. -/
def getCstrLen (hs : HttpHeaders) (name : Bytes) (createIfMissing : Bool) :
    Option Nat × HttpHeaders :=
  match hs.find name with
  | some i => (some i, hs)
  | none => if createIfMissing then (some hs.headersLength, hs.create name) else (none, hs)

/-- `http_headers_get_cstr`, which measures the name itself. -/
def getCstr (hs : HttpHeaders) (name : Bytes) (createIfMissing : Bool) :
    Option Nat × HttpHeaders :=
  hs.getCstrLen (cstr name) createIfMissing

/-- A change to one header through the pointer to its slot. -/
def modify (hs : HttpHeaders) (i : Nat) (f : HttpHeader → HttpHeader) : HttpHeaders :=
  ⟨hs.headers.modify i f, hs.headersLength, by
    rw [List.length_modify]
    exact hs.headersLength_le⟩

end HttpHeaders

/-! ## The log text -/

/-- `http_headers_to_string` for one header; `none` where a value, used as a
format, makes the behaviour undefined. -/
def headerToString (indent : Bytes) (h : HttpHeader) : Option Bytes :=
  match h.live.mapM vsnprintfNoArgs with
  | none => none
  | some values =>
      some (indent ++ indent ++ cstr h.name ++ ascii ": "
        ++ (values.intersperse (ascii ",")).flatten ++ ascii "\n")

/-- `http_headers_to_string`: the text appended to `dst`. -/
def httpHeadersToString (hs : HttpHeaders) (indent : Bytes) : Option Bytes :=
  (hs.live.mapM (headerToString indent)).map fun texts =>
    indent ++ ascii "headers, len=" ++ decimal hs.getNum ++ ascii "\n" ++ texts.flatten

end CWebServer.Http
