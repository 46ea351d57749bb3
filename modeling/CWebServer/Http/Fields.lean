import CWebServer.Http.Values

/-!
# Http — Fields

A header collection without its slots: the names in order, each with its
values. `fieldLine` says what a header line contributes and `addField` where
it goes; `parseHeaderLine_eq` connects both to the code.
-/

namespace CWebServer.Http

open CWebServer.Strings

abbrev Fields := List (Bytes × List Bytes)

/-- Two names are the same up to case. -/
def sameName (a b : Bytes) : Bool :=
  stringCompareCstrLen .caseInsensitive a b = 0

/-- New values go behind those of the first field of this name, or make a
new last field. -/
def addField (name : Bytes) (values : List Bytes) : Fields → Fields
  | [] => [(name, values)]
  | f :: fs =>
      if sameName f.1 name then (f.1, f.2 ++ values) :: fs
      else f :: addField name values fs

/-- The values of the first field of this name are changed; if there is none,
a new last field has what becomes of no values. -/
def updateField (name : Bytes) (g : List Bytes → List Bytes) : Fields → Fields
  | [] => [(name, g [])]
  | f :: fs =>
      if sameName f.1 name then (f.1, g f.2) :: fs
      else f :: updateField name g fs

theorem addField_eq (name : Bytes) (values : List Bytes) (fs : Fields) :
    addField name values fs = updateField name (· ++ values) fs := by
  induction fs with
  | nil => rfl
  | cons f fs ih => rw [addField, updateField, ih]

/-- The values of the first field of this name. -/
def lookup (name : Bytes) (fs : Fields) : Option (List Bytes) :=
  (fs.find? fun f => sameName f.1 name).map Prod.snd

/-- The name and the values on a header line: the name ends at the first
colon, and blanks in front of the values are dropped. -/
def fieldLine (line : Bytes) : Option (Bytes × List Bytes) :=
  (cutAt 58 line).map fun p =>
    (p.1, cutAll 44 (stringTrimStartAnyOfCstr p.2 (ascii " \t")))

/-- What the header says about the length of the body. -/
def fieldsContentLength (fs : Fields) : ContentLength :=
  match lookup (ascii "Content-Length") fs with
  | none => .missing
  | some [v] =>
      match sscanfZu v with
      | some n => .value n
      | none => .invalid
  | some _ => .invalid

/-- The name on a header line is what stands before the first colon. -/
theorem fieldLine_name {line name : Bytes} {values : List Bytes}
    (h : fieldLine line = some (name, values)) :
    58 ∈ line ∧ name = line.takeWhile (· ≠ 58) := by
  obtain ⟨⟨w, u⟩, hcut, heq⟩ := Option.map_eq_some_iff.mp h
  cases heq
  obtain ⟨hline, hw, -⟩ := cutAt_some hcut
  refine ⟨by simp [hline], ?_⟩
  rw [hline, List.takeWhile_append_of_pos fun c hc => ?_]
  · simp
  · simpa using fun he : c = 58 => hw (he ▸ hc)

/-! ## The slots -/

section Slots

variable {hs : HttpHeaders} {name : Bytes}

/-- `updateField` on a list of slots: the values are changed at the index
found, or a new slot has them. -/
theorem updateField_findIdx (name : Bytes) (l : List HttpHeader) {f : HttpHeader → HttpHeader}
    {g : List Bytes → List Bytes}
    (hname : ∀ h, (f h).name = h.name) (hlive : ∀ h, (f h).live = g h.live) :
    updateField name g (l.map fun h => (h.name, h.live)) =
      match l.findIdx? (fun h => sameName h.name name) with
      | some i => (l.modify i f).map fun h => (h.name, h.live)
      | none => (l.map fun h => (h.name, h.live)) ++ [(name, g [])] := by
  induction l with
  | nil => rfl
  | cons h l ih =>
      rw [List.map_cons, updateField, List.findIdx?_cons]
      by_cases hsame : sameName h.name name = true
      · simp only [hsame, if_true, List.modify_zero_cons, List.map_cons, hname, hlive]
      · simp only [hsame, if_false, Bool.false_eq_true, ih]
        cases l.findIdx? (fun h => sameName h.name name) with
        | some i => simp
        | none => simp

theorem live_create (hs : HttpHeaders) (name : Bytes) :
    ∃ h : HttpHeader, (hs.create name).live = hs.live ++ [h] ∧ h.name = name
      ∧ h.live = [] := by
  unfold HttpHeaders.create
  split
  · rename_i hfull
    refine ⟨{ HttpHeader.init with name := name }, ?_, rfl, rfl⟩
    simp only [HttpHeaders.live, hfull, List.take_length]
    exact List.take_of_length_le (by simp)
  · rename_i hfull
    have hlt : hs.headersLength < hs.headers.length :=
      Nat.lt_of_le_of_ne hs.headersLength_le hfull
    refine ⟨{ hs.headers[hs.headersLength].clear with name := name }, ?_, rfl, rfl⟩
    simp only [HttpHeaders.live]
    have hlen : hs.headersLength < (hs.headers.take (hs.headersLength + 1)).length := by
      rw [List.length_take]
      omega
    rw [List.take_modify, List.modify_eq_take_cons_drop hlen]
    simp [List.take_take]

theorem live_modify (i : Nat) (f : HttpHeader → HttpHeader) :
    (hs.modify i f).live = hs.live.modify i f :=
  List.take_modify f i hs.headersLength hs.headers

theorem length_live (hs : HttpHeaders) : hs.live.length = hs.headersLength := by
  simp [HttpHeaders.live, hs.headersLength_le]

/-- A change of the values through the pointer of `http_headers_get_cstr_len`
changes a field. -/
theorem toList_update (hs : HttpHeaders) (name : Bytes) {f : HttpHeader → HttpHeader}
    {g : List Bytes → List Bytes}
    (hname : ∀ h, (f h).name = h.name) (hlive : ∀ h, (f h).live = g h.live) :
    ∃ i hs', hs.getCstrLen name true = (some i, hs')
      ∧ (hs'.modify i f).toList = updateField name g hs.toList := by
  have hupdate := updateField_findIdx name hs.live hname hlive
  simp only [HttpHeaders.getCstrLen, HttpHeaders.find, sameName] at hupdate ⊢
  cases hfind : hs.live.findIdx? fun h =>
      stringCompareCstrLen .caseInsensitive h.name name = 0 with
  | some i =>
      rw [hfind] at hupdate
      refine ⟨i, hs, rfl, ?_⟩
      rw [HttpHeaders.toList, live_modify, HttpHeaders.toList, hupdate]
  | none =>
      rw [hfind] at hupdate
      obtain ⟨h, hl, hn, hempty⟩ := live_create hs name
      refine ⟨hs.headersLength, hs.create name, rfl, ?_⟩
      rw [HttpHeaders.toList, live_modify, hl, HttpHeaders.toList, hupdate, ← length_live hs,
        List.modify_eq_take_cons_drop (by simp)]
      simp [hname, hlive, hn, hempty]

/-- Values that are appended through the pointer of
`http_headers_get_cstr_len` are added as a field. -/
theorem toList_getCstrLen (hs : HttpHeaders) (name : Bytes) (f : HttpHeader → HttpHeader)
    (values : List Bytes)
    (hname : ∀ h, (f h).name = h.name) (hlive : ∀ h, (f h).live = h.live ++ values) :
    ∃ i hs', hs.getCstrLen name true = (some i, hs')
      ∧ (hs'.modify i f).toList = addField name values hs.toList := by
  rw [addField_eq]
  exact toList_update hs name hname hlive

/-- A lookup that creates nothing finds the values that `lookup` does. -/
theorem lookup_toList (hs : HttpHeaders) (name : Bytes) :
    lookup name hs.toList = ((hs.find name).bind fun i => hs.live[i]?).map (·.live) := by
  rw [lookup, HttpHeaders.toList, List.find?_map, List.find?_eq_bind_findIdx?_getElem?,
    Option.map_map]
  rfl

/-- The declared length depends on the fields only. -/
theorem contentLength_toList (hs : HttpHeaders) :
    contentLength hs = fieldsContentLength hs.toList := by
  rw [contentLength, HttpHeaders.getCstrLen, fieldsContentLength, lookup_toList]
  cases hfind : hs.find (ascii "Content-Length") with
  | none => rfl
  | some i =>
      have hi : i < hs.live.length := (List.findIdx?_eq_some_iff_getElem.mp hfind).1
      have hat : hs.headers[i]? = some hs.live[i] := by
        have hlen : i < hs.headers.length := by
          have := hs.headersLength_le
          rw [length_live] at hi
          omega
        simp [HttpHeaders.live, hlen]
      simp only [hat, Option.bind_some, List.getElem?_eq_getElem hi, Option.map_some,
        HttpHeader.getValue_eq, HttpHeader.getNumValues, ← HttpHeader.length_live]
      cases hs.live[i].live with
      | nil => rfl
      | cons v vs =>
          cases vs with
          | nil => rfl
          | cons v' vs => simp

end Slots

/-! ## A header line -/

/-- The text behind the colon. -/
theorem stringSetSubstrSelf_cutAt {line name text : Bytes} (hlen : line.length ≤ sizeMax)
    (hcut : cutAt 58 line = some (name, text)) :
    stringSetSubstrSelf line (name.length + 1) sizeMax = text := by
  obtain ⟨hline, -, htext⟩ := cutAt_some hcut
  have hpos := List.length_pos_of_ne_nil htext
  have hdrop : line.drop (name.length + 1) = text := by
    rw [hline, ← List.drop_drop, List.drop_left']
    · rfl
    · rfl
  have hlength : line.length = name.length + (text.length + 1) := by
    rw [hline, List.length_append, List.length_cons]
  rw [stringSetSubstrSelf, if_neg (by omega), hdrop, List.take_of_length_le (by omega)]

/-- **A header line** adds the field that is on it, or is an error. -/
theorem parseHeaderLine_eq (r : HttpRequest) {line : Bytes} (hlen : line.length ≤ sizeMax) :
    match fieldLine line with
    | none => parseHeaderLine r line = .error { r with scratch := line }
    | some (name, values) => ∃ scratch headers,
        parseHeaderLine r line = .ok { r with scratch := scratch, headers := headers }
          ∧ headers.toList = addField name values r.headers.toList := by
  have hcolon : ascii ":" = [58] := rfl
  have hsplit := stringSplit_cutAt 58 (s := line) (x := []) (t := line) rfl
  simp only [List.length_nil, List.nil_append] at hsplit
  rw [fieldLine]
  simp only [parseHeaderLine, hcolon, hsplit]
  cases hcut : cutAt 58 line with
  | none => rfl
  | some p =>
      obtain ⟨w, u⟩ := p
      obtain ⟨hline, -, -⟩ := cutAt_some hcut
      have hname : slice line 0 w.length = w := by simp [slice, hline]
      have hrest := stringSetSubstrSelf_cutAt hlen hcut
      let scratch := stringTrimStartAnyOfCstr u (ascii " \t")
      have hvalues := appendValues_cutAll scratch
      obtain ⟨i, hs', hget, hadd⟩ := toList_getCstrLen r.headers w
        (appendValues scratch scratch.length (stringSplit scratch 0 (ascii ",") 2 2))
        (cutAll 44 scratch) (fun h => (hvalues h).2) fun h => (hvalues h).1
      simp only [Option.map_some, hname, hrest, hget]
      exact ⟨scratch, _, rfl, hadd⟩

/-- What is left of the line is the text that the values are taken off. -/
theorem parseHeaderLine_scratch {r r' : HttpRequest} {line name text : Bytes}
    (hlen : line.length ≤ sizeMax) (hcut : cutAt 58 line = some (name, text))
    (h : parseHeaderLine r line = .ok r') :
    r'.scratch = stringTrimStartAnyOfCstr text (ascii " \t") := by
  have hcolon : ascii ":" = [58] := rfl
  have hsplit := stringSplit_cutAt 58 (s := line) (x := []) (t := line) rfl
  simp only [List.length_nil, List.nil_append, hcut] at hsplit
  simp only [parseHeaderLine, hcolon, hsplit, stringSetSubstrSelf_cutAt hlen hcut] at h
  cases h
  rfl

/-! ## The log text -/

/-- The log text for one field; `none` where the code's is. -/
def fieldToString (indent : Bytes) (f : Bytes × List Bytes) : Option Bytes :=
  (f.2.mapM vsnprintfNoArgs).map fun values =>
    indent ++ indent ++ cstr f.1 ++ ascii ": " ++ (values.intersperse (ascii ",")).flatten
      ++ ascii "\n"

theorem headerToString_eq (indent : Bytes) (h : HttpHeader) :
    headerToString indent h = fieldToString indent (h.name, h.live) := by
  simp only [headerToString, fieldToString]
  cases h.live.mapM vsnprintfNoArgs <;> rfl

/-- The text for a collection depends on its fields only. -/
theorem httpHeadersToString_eq (hs : HttpHeaders) (indent : Bytes) :
    httpHeadersToString hs indent =
      (hs.toList.mapM (fieldToString indent)).map fun texts =>
        indent ++ ascii "headers, len=" ++ decimal hs.toList.length ++ ascii "\n"
          ++ texts.flatten := by
  have hnum : hs.toList.length = hs.getNum := by
    simp [HttpHeaders.toList, HttpHeaders.getNum, length_live]
  have htext : headerToString indent = fieldToString indent ∘ fun h => (h.name, h.live) :=
    funext fun h => headerToString_eq indent h
  rw [httpHeadersToString, hnum, HttpHeaders.toList, List.mapM_map, htext]

end CWebServer.Http
