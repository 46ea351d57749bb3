import CWebServer.Http.Fields
import CWebServer.Lib.Multimap

/-!
# Http — Header Collections as Multimaps

Every sequence of calls on an `http_headers` is answered as an
insertion-ordered multimap answers it, whose keys are the names in lower
case. A pointer to a header that can still be used is one into the array as
it is now, so the calls name it by its slot; a slot that is not in use may
still be written to through a pointer from before a clear.
-/

namespace CWebServer.Http

open CWebServer.Strings CWebServer.Lib

/-! ## Names -/

/-- What `http_headers_get_cstr_len` goes by. -/
def headerKey (name : Bytes) : Bytes := name.map tolower

/-- A difference of lengths, cut down to an `int`. -/
theorem toInt_ofInt_eq_zero_iff {d : Int} :
    (BitVec.ofInt 32 d).toInt = 0 ↔ (2 ^ 32 : Int) ∣ d := by
  rw [BitVec.toInt_ofInt, Int.bmod_def]
  split <;> omega

/-- What the comparison tells of two names. -/
theorem stringCompareCstrLen_eq_zero_iff (a b : Bytes) :
    stringCompareCstrLen .caseInsensitive a b = 0
      ↔ headerKey (a.take b.length) = headerKey (b.take a.length)
        ∧ (2 ^ 32 : Int) ∣ a.length - b.length := by
  induction a generalizing b with
  | nil =>
      have hlengths : stringCompareCstrLen .caseInsensitive [] b
          = (BitVec.ofInt 32 (([] : Bytes).length - b.length)).toInt := by
        cases b <;> rfl
      rw [hlengths, toInt_ofInt_eq_zero_iff]
      simp [headerKey]
  | cons x a ih =>
      cases b with
      | nil =>
          rw [stringCompareCstrLen, toInt_ofInt_eq_zero_iff]
          · simp [headerKey]
          · simp
      | cons y b =>
          have hfold : ∀ c, StringCompareMode.caseInsensitive.fold c = tolower c := fun _ => rfl
          have hdiff : ((x :: a).length : Int) - (y :: b).length = a.length - b.length := by
            simp only [List.length_cons]
            omega
          rw [stringCompareCstrLen, hfold, hfold, hdiff]
          by_cases hxy : tolower x = tolower y
          · rw [if_pos hxy, ih]
            simp [headerKey, hxy]
          · have hne : ((tolower x).toBitVec - (tolower y).toBitVec).toInt ≠ 0 := by
              intro hzero
              have hsub := BitVec.toInt_inj.mp (hzero.trans BitVec.toInt_zero.symm)
              have heq := BitVec.sub_add_cancel (tolower x).toBitVec (tolower y).toBitVec
              rw [hsub, BitVec.zero_add] at heq
              exact hxy (UInt8.eq_of_toBitVec_eq heq.symm)
            rw [if_neg hxy]
            exact ⟨fun h => absurd h hne, fun h => absurd h.1 (by simp [headerKey, hxy])⟩

/-- The comparison finds the names that are the same up to case. -/
theorem stringCompareCstrLen_eq_zero {a b : Bytes} (ha : a.length < 2 ^ 31)
    (hb : b.length < 2 ^ 31) :
    stringCompareCstrLen .caseInsensitive a b = 0 ↔ headerKey a = headerKey b := by
  rw [stringCompareCstrLen_eq_zero_iff]
  constructor
  · rintro ⟨hkey, hdvd⟩
    have hlength : a.length = b.length := by omega
    rwa [hlength, List.take_length, ← hlength, List.take_length] at hkey
  · intro hkey
    have hlength : a.length = b.length := by simpa [headerKey] using congrArg List.length hkey
    rw [← hlength, List.take_length, hlength, List.take_length]
    exact ⟨hkey, by simp⟩

theorem sameName_iff {a b : Bytes} (ha : a.length < 2 ^ 31) (hb : b.length < 2 ^ 31) :
    sameName a b = true ↔ headerKey a = headerKey b := by
  rw [sameName, decide_eq_true_iff, stringCompareCstrLen_eq_zero ha hb]

theorem sameName_iff_take (a b : Bytes) :
    sameName a b = true ↔ headerKey (a.take b.length) = headerKey (b.take a.length)
      ∧ (2 ^ 32 : Int) ∣ a.length - b.length := by
  rw [sameName, decide_eq_true_iff, stringCompareCstrLen_eq_zero_iff]

theorem sameName_of_headerKey {a b : Bytes} (h : headerKey a = headerKey b) :
    sameName a b = true := by
  have hlength : a.length = b.length := by simpa [headerKey] using congrArg List.length h
  rw [sameName_iff_take, ← hlength, List.take_length, hlength, List.take_length]
  exact ⟨h, by simp⟩

/-! ## Calls -/

/-- `http_headers_get`: the slot, `none` for `NULL`. -/
def HttpHeaders.get (hs : HttpHeaders) (i : Nat) : Option Nat :=
  if hs.headersLength ≤ i then none else some i

/-- What can be read through a pointer to a header: its slot, its name and its
values. -/
def HttpHeaders.seen (hs : HttpHeaders) (slot : Option Nat) : Option (Nat × Bytes × List Bytes) :=
  slot.bind fun i => hs.headers[i]?.map fun h => (i, h.name, h.live)

/-- A name whose length an `int` can hold. -/
abbrev Name := { name : Bytes // name.length < 2 ^ 31 }

/-- A call on a collection, or on one of its headers through a pointer. -/
inductive HeadersCall
  | getCstr (name : Name) (createIfMissing : Bool)
  | getCstrLen (name : Name) (createIfMissing : Bool)
  | get (i : Nat)
  /-- `http_header_append_value`, and setting the string that it returns. -/
  | appendValue (slot : Nat) (value : Bytes)
  | clearHeader (slot : Nat)
  | clear

/-- One call: what is seen through the pointer it returns, and the collection
it leaves. -/
def HttpHeaders.call (hs : HttpHeaders) :
    HeadersCall → Option (Nat × Bytes × List Bytes) × HttpHeaders
  | .getCstr name create =>
      let (slot, hs) := hs.getCstr name.val create
      (hs.seen slot, hs)
  | .getCstrLen name create =>
      let (slot, hs) := hs.getCstrLen name.val create
      (hs.seen slot, hs)
  | .get i => (hs.seen (hs.get i), hs)
  | .appendValue slot value => (none, hs.modify slot (·.appendValue value))
  | .clearHeader slot => (none, hs.modify slot (·.clear))
  | .clear => (none, hs.clear)

/-- The same call on a multimap. -/
def HeadersCall.abstract : HeadersCall → Multimap.Call Bytes Bytes
  | .getCstr name create => .get (cstr name.val) create
  | .getCstrLen name create => .get name.val create
  | .get i => .nth i
  | .appendValue slot value => .append slot value
  | .clearHeader slot => .clearValues slot
  | .clear => .clear

/-! ## The simulation -/

/-- The collection is seen as the multimap, and its names can be compared. -/
structure Represents (hs : HttpHeaders) (m : Multimap Bytes headerKey) : Prop where
  toList : hs.toList = m.entries
  short : ∀ e ∈ m.entries, e.1.length < 2 ^ 31

section

variable {hs : HttpHeaders} {m : Multimap Bytes headerKey}

/-- A slot in use, with the entry that it stands for. -/
theorem Represents.slot (h : Represents hs m) {i : Nat} (hi : i < hs.headersLength) :
    ∃ header, hs.headers[i]? = some header
      ∧ m.entries[i]? = some (header.name, header.live) := by
  have hlen := Nat.lt_of_lt_of_le hi hs.headersLength_le
  refine ⟨hs.headers[i], List.getElem?_eq_getElem hlen, ?_⟩
  rw [← h.toList, HttpHeaders.toList, List.getElem?_map, HttpHeaders.live, List.getElem?_take,
    if_pos hi, List.getElem?_eq_getElem hlen]
  rfl

theorem Represents.length (h : Represents hs m) : m.entries.length = hs.headersLength := by
  rw [← h.toList, HttpHeaders.toList, List.length_map, length_live]

theorem Represents.find (h : Represents hs m) {name : Bytes} (hname : name.length < 2 ^ 31) :
    hs.find name = m.position name := by
  rw [Multimap.position, ← h.toList, HttpHeaders.toList, List.findIdx?_map]
  apply findIdx?_congr
  intro header hmem
  have hshort : header.name.length < 2 ^ 31 := by
    apply h.short (header.name, header.live)
    rw [← h.toList]
    exact List.mem_map_of_mem hmem
  have hcompare := stringCompareCstrLen_eq_zero hshort hname
  simp only [Function.comp_apply, hcompare]

/-- What is seen through a pointer into the slots in use. -/
theorem Represents.seen (h : Represents hs m) {i : Nat} (hi : i < hs.headersLength) :
    hs.seen (some i) = m.entryAt i := by
  obtain ⟨header, hslot, hentry⟩ := h.slot hi
  simp [HttpHeaders.seen, Multimap.entryAt, hslot, hentry]

/-- A name that is missing gets the next slot. -/
theorem Represents.create (h : Represents hs m) {name : Bytes} (hname : name.length < 2 ^ 31)
    (hmissing : m.position name = none) : Represents (hs.create name) (m.ensure name) := by
  have hentries : (m.ensure name).entries = m.entries ++ [(name, [])] := by
    simp [Multimap.entries_ensure, hmissing]
  obtain ⟨header, hlive, hheader, hempty⟩ := live_create hs name
  constructor
  · rw [hentries, ← h.toList, HttpHeaders.toList, hlive, List.map_append, HttpHeaders.toList]
    simp [hheader, hempty]
  · intro e he
    rw [hentries, List.mem_append, List.mem_singleton] at he
    rcases he with he | rfl
    · exact h.short e he
    · exact hname

theorem Represents.getCstrLen (h : Represents hs m) {name : Bytes} (hname : name.length < 2 ^ 31)
    (create : Bool) :
    (hs.getCstrLen name create).2.seen (hs.getCstrLen name create).1
        = (m.step (.get name create)).1
      ∧ Represents (hs.getCstrLen name create).2 (m.step (.get name create)).2 := by
  unfold HttpHeaders.getCstrLen Multimap.step
  rw [h.find hname]
  cases hposition : m.position name with
  | some i =>
      obtain ⟨e, he, -⟩ := Multimap.position_eq_some_iff.mp hposition
      have hi : i < hs.headersLength := by
        rw [← h.length]
        exact (List.getElem?_eq_some_iff.mp he).1
      have hsame : (if create then m.ensure name else m) = m := by
        rw [Multimap.ensure_of_position hposition, ite_self]
      simp only [hsame, hposition, Option.bind_some]
      exact ⟨h.seen hi, h⟩
  | none =>
      cases create with
      | false =>
          simp only [Bool.false_eq_true, if_false, hposition]
          exact ⟨rfl, h⟩
      | true =>
          have hcreate := h.create hname hposition
          have hlast : hs.headersLength < (hs.create name).headersLength := by
            rw [← hcreate.length, Multimap.entries_ensure, hposition,
              List.length_append, h.length]
            exact Nat.lt_succ_self _
          simp only [if_true, Multimap.position_ensure hposition, Option.bind_some, h.length]
          exact ⟨hcreate.seen hlast, hcreate⟩

/-- A change to the values of one header. -/
theorem Represents.modify (h : Represents hs m) (i : Nat) {f : HttpHeader → HttpHeader}
    {g : List Bytes → List Bytes} (hname : ∀ header, (f header).name = header.name)
    (hlive : ∀ header, (f header).live = g header.live) :
    Represents (hs.modify i f) (m.modify i g) := by
  constructor
  · show _ = m.entries.modify i fun e => (e.1, g e.2)
    rw [HttpHeaders.toList, live_modify, ← h.toList, HttpHeaders.toList]
    apply map_modify_comm
    intro header
    rw [hname, hlive]
  · intro e he
    have hnames := Multimap.names_modify m i g
    have hmem : e.1 ∈ m.entries.map Prod.fst := hnames ▸ List.mem_map_of_mem he
    obtain ⟨e', he', heq⟩ := List.mem_map.mp hmem
    rw [← heq]
    exact h.short e' he'

/-- **One call** is answered as the multimap answers it. -/
theorem Represents.call (h : Represents hs m) (c : HeadersCall) :
    (hs.call c).1 = (m.step c.abstract).1 ∧ Represents (hs.call c).2 (m.step c.abstract).2 := by
  cases c with
  | getCstr name create =>
      refine h.getCstrLen (Nat.lt_of_le_of_lt ?_ name.property) create
      exact (List.takeWhile_sublist _).length_le
  | getCstrLen name create => exact h.getCstrLen name.property create
  | get i =>
      refine ⟨?_, h⟩
      show hs.seen (hs.get i) = m.entryAt i
      unfold HttpHeaders.get
      split
      · rename_i hi
        have hnone : m.entries[i]? = none := List.getElem?_eq_none (h.length ▸ hi)
        simp [HttpHeaders.seen, Multimap.entryAt, hnone]
      · rename_i hi
        exact h.seen (Nat.lt_of_not_le hi)
  | appendValue slot value =>
      exact ⟨rfl, h.modify (f := (·.appendValue value)) (g := (· ++ [value])) slot
        (fun header => header.name_appendValue value) fun header => header.live_appendValue value⟩
  | clearHeader slot =>
      exact ⟨rfl, h.modify (f := (·.clear)) (g := fun _ => []) slot (fun _ => rfl)
        fun _ => rfl⟩
  | clear => exact ⟨rfl, rfl, by simp [HeadersCall.abstract, Multimap.step, Multimap.empty]⟩

end

theorem represents_init : Represents .init .empty :=
  ⟨rfl, by simp [Multimap.empty]⟩

/-- **A header collection is an insertion-ordered multimap** by the names in
lower case: every sequence of calls is answered alike and leaves the same
names, spelled as when they were created, with the same values in the same
order. No two names are the same up to case, and each one comes from a call
that asked for it when it was missing, with no clear since. -/
theorem headers_multimap (calls : List HeadersCall) :
    let code := answers HttpHeaders.call calls .init
    let map := answers Multimap.step (calls.map HeadersCall.abstract)
      (.empty : Multimap Bytes headerKey)
    code.1 = map.1 ∧ code.2.toList = map.2.entries
      ∧ (code.2.toList.map fun e => headerKey e.1).Nodup
      ∧ ∀ e ∈ code.2.toList, ∃ pre post,
          calls.map HeadersCall.abstract = pre ++ .get e.1 true :: post
            ∧ (answers Multimap.step pre
              (.empty : Multimap Bytes headerKey)).2.position e.1 = none
            ∧ Multimap.Call.clear ∉ post := by
  obtain ⟨hanswers, hlast⟩ := answers_simulates (R := Represents) HeadersCall.abstract
    (fun _ _ c h => Represents.call h c) calls represents_init
  refine ⟨hanswers, hlast.toList, ?_, ?_⟩
  · rw [hlast.toList]
    exact Multimap.nodup _
  · intro e he
    rw [hlast.toList] at he
    exact Multimap.name_created _ (List.mem_map_of_mem he)

end CWebServer.Http
