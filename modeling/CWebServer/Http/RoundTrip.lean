import CWebServer.Http.Cuts
import CWebServer.Http.Serialize
import CWebServer.Strings.Decimal

/-!
# Http — Round Trip of Headers

The header block that `http_response_write` emits, read by
`http_request_parse`. A line gives back its values unless there are several of
them and the last is empty: `string_split` does not see the comma in the last
byte.
-/

namespace CWebServer.Http

open CWebServer.Strings CWebServer.Lib

/-! ## A header line -/

/-- A header that can be written on a line: the separators are not used in its
texts. -/
structure Writable (f : Bytes × List Bytes) : Prop where
  hasValue : f.2 ≠ []
  name_ne_nil : f.1 ≠ []
  name : ∀ c ∈ f.1, c ≠ 58 ∧ c ≠ 13 ∧ c ≠ 10 ∧ c ≠ 0
  values : ∀ v ∈ f.2, ∀ c ∈ v, c ≠ 44 ∧ c ≠ 13 ∧ c ≠ 10 ∧ c ≠ 0
  first : ∀ v, f.2.head? = some v → v.head? ≠ some 32 ∧ v.head? ≠ some 9

/-- A header line without its line break. -/
def headerText (f : Bytes × List Bytes) : Bytes := cstr f.1 ++ ascii ": " ++ joinValues f.2

/-- The last of several values is empty. -/
def LastEmpty (values : List Bytes) : Prop := 2 ≤ values.length ∧ values.getLast? = some []

instance (values : List Bytes) : Decidable (LastEmpty values) :=
  inferInstanceAs (Decidable (_ ∧ _))

section

variable {vs : List Bytes}

theorem joinValues_eq_nil {v : Bytes} {vs : List Bytes}
    (h : ∀ w ∈ v :: vs, ∀ c ∈ w, c ≠ 44 ∧ c ≠ 13 ∧ c ≠ 10 ∧ c ≠ 0) :
    joinValues (v :: vs) = [] ↔ v = [] ∧ vs = [] := by
  have hv : cstr v = v := cstr_eq_self fun hzero => (h v (by simp) 0 hzero).2.2.2 rfl
  cases vs with
  | nil => simp [joinValues_singleton, hv]
  | cons w vs => simp [joinValues_cons_cons, ascii]

/-- Joined values are cut apart again unless the last of several is empty. -/
theorem cutAll_joinValues (hne : vs ≠ [])
    (h : ∀ v ∈ vs, ∀ c ∈ v, c ≠ 44 ∧ c ≠ 13 ∧ c ≠ 10 ∧ c ≠ 0) :
    cutAll 44 (joinValues vs) = vs ↔ ¬LastEmpty vs := by
  induction vs with
  | nil => exact absurd rfl hne
  | cons v vs ih =>
      have hv : cstr v = v := cstr_eq_self fun hzero => (h v (by simp) 0 hzero).2.2.2 rfl
      have hcomma : (44 : UInt8) ∉ v := fun hmem => (h v (by simp) 44 hmem).1 rfl
      cases vs with
      | nil =>
          rw [joinValues_singleton, hv, cutAll_eq, cutAt_of_not_mem hcomma]
          simp [LastEmpty]
      | cons w vs =>
          have hrest := fun u hu => h u (List.mem_cons_of_mem v hu)
          have hjoin : joinValues (v :: w :: vs) = v ++ 44 :: joinValues (w :: vs) := by
            rw [joinValues_cons_cons, hv, List.append_assoc]
            rfl
          rw [hjoin]
          by_cases hnil : joinValues (w :: vs) = []
          · -- the comma stands in the last byte
            obtain ⟨rfl, rfl⟩ := (joinValues_eq_nil hrest).mp hnil
            rw [hnil, cutAll_eq, cutAt_last hcomma]
            simp [LastEmpty]
          · have hlast : LastEmpty (v :: w :: vs) ↔ LastEmpty (w :: vs) := by
              rw [joinValues_eq_nil hrest] at hnil
              cases vs with
              | nil => simpa [LastEmpty] using hnil
              | cons u vs => simp [LastEmpty, List.getLast?_cons_cons]
            rw [cutAll_eq, cutAt_append hcomma hnil, hlast, ← ih (by simp) hrest]
            simp

/-- The blank behind the colon is trimmed, and nothing else. -/
theorem trimStart_blank {s : Bytes}
    (h : s.head? ≠ some 32 ∧ s.head? ≠ some 9 ∧ s.head? ≠ some 0) :
    stringTrimStartAnyOfCstr (32 :: s) (ascii " \t") = s := by
  cases s with
  | nil => rfl
  | cons c s =>
      simp only [List.head?_cons, ne_eq, Option.some.injEq] at h
      have hfind : c ∉ ascii " \t" := by
        show c ∉ [32, 9]
        simp [h]
      have hindex : stringIndexNotOfAnyCstr (32 :: c :: s) (ascii " \t") 0 = some 1 := by
        unfold stringIndexNotOfAnyCstr
        rw [if_neg (by simp), if_neg (by simp), List.drop_zero, indexNotOfAnyLoop,
          if_neg (by decide), if_pos (by decide), indexNotOfAnyLoop, if_neg h.2.2, if_neg hfind]
      rw [stringTrimStartAnyOfCstr, hindex]
      simp [stringSetSubstrSelf]

end

/-- What the parser makes of a header. -/
def reread (f : Bytes × List Bytes) : Bytes × List Bytes := (f.1, cutAll 44 (joinValues f.2))

section

variable {f : Bytes × List Bytes}

theorem Writable.cstr_name (h : Writable f) : cstr f.1 = f.1 :=
  cstr_eq_self fun hzero => (h.name 0 hzero).2.2.2 rfl

theorem Writable.reread_eq (h : Writable f) : reread f = f ↔ ¬LastEmpty f.2 := by
  rw [← cutAll_joinValues h.hasValue h.values]
  exact ⟨fun heq => congrArg Prod.snd heq, fun heq => Prod.ext rfl heq⟩

/-- The values of a line do not begin with a blank. -/
theorem Writable.head_joinValues (h : Writable f) :
    (joinValues f.2).head? ≠ some 32 ∧ (joinValues f.2).head? ≠ some 9
      ∧ (joinValues f.2).head? ≠ some 0 := by
  obtain ⟨name, vs⟩ := f
  cases vs with
  | nil => exact absurd rfl h.hasValue
  | cons v vs =>
      have hfirst := h.first v rfl
      have hvalue := h.values v (by simp)
      have hv : cstr v = v := cstr_eq_self fun hzero => (hvalue 0 hzero).2.2.2 rfl
      cases v with
      | nil => cases vs <;> simp [joinValues, cstr, ascii]
      | cons c v =>
          have hc := hvalue c (by simp)
          have hhead : (joinValues ((c :: v) :: vs)).head? = some c := by
            cases vs with
            | nil => rw [joinValues_singleton, hv, List.head?_cons]
            | cons w vs => rw [joinValues_cons_cons, hv]; rfl
          rw [List.head?_cons] at hfirst
          rw [hhead]
          exact ⟨hfirst.1, hfirst.2, fun heq => hc.2.2.2 (Option.some.inj heq)⟩

/-- **A header line is read** as the field it was written from, up to the way
its values are cut. -/
theorem Writable.fieldLine_headerText (h : Writable f) :
    fieldLine (headerText f) = some (reread f) := by
  have hcolon : (58 : UInt8) ∉ f.1 := fun hmem => (h.name 58 hmem).1 rfl
  have htext : headerText f = f.1 ++ 58 :: 32 :: joinValues f.2 := by
    rw [headerText, h.cstr_name, List.append_assoc]
    rfl
  rw [fieldLine, htext, cutAt_append hcolon (by simp)]
  simp only [Option.map_some, trimStart_blank h.head_joinValues]
  rfl

end

/-! ## The header block -/

/-- No name is that of an earlier field. -/
def DistinctNames (names : List Bytes) : Prop :=
  names.Pairwise fun a b => sameName a b = false

theorem addField_new {name : Bytes} {fs : Fields} (h : ∀ f ∈ fs, sameName f.1 name = false)
    (values : List Bytes) : addField name values fs = fs ++ [(name, values)] := by
  induction fs with
  | nil => rfl
  | cons f fs ih =>
      rw [List.forall_mem_cons] at h
      rw [addField, h.1, if_neg Bool.false_ne_true, ih h.2]
      rfl

/-- **The header lines** add the fields, in order. -/
theorem foldl_headerText {fs : Fields} (h : ∀ f ∈ fs, Writable f) (acc : Fields)
    (hnames : DistinctNames (acc.map Prod.fst ++ fs.map Prod.fst)) (method uri : Bytes) :
    (fs.map headerText).foldl Head.step (.fields method uri acc)
      = .fields method uri (acc ++ fs.map reread) := by
  induction fs generalizing acc with
  | nil => simp
  | cons f fs ih =>
      rw [List.forall_mem_cons] at h
      have hnew : ∀ e ∈ acc, sameName e.1 f.1 = false := by
        intro e he
        exact (List.pairwise_append.mp hnames).2.2 e.1 (List.mem_map_of_mem he) f.1 (by simp)
      have hstep : Head.step (.fields method uri acc) (headerText f)
          = .fields method uri (acc ++ [reread f]) := by
        have hline := h.1.fieldLine_headerText
        cases htext : headerText f with
        | nil => simp [headerText, ascii] at htext
        | cons c line =>
            rw [htext] at hline
            rw [Head.step, hline]
            · exact congrArg (Head.fields method uri) (addField_new hnew _)
            · simp
      rw [List.map_cons, List.foldl_cons, hstep, ih h.2]
      · simp
      · simpa [reread] using hnames

/-! ### The fixed length -/

theorem writable_decimal {name : Bytes} (hne : name ≠ [])
    (h : ∀ c ∈ name, c ≠ 58 ∧ c ≠ 13 ∧ c ≠ 10 ∧ c ≠ 0) (n : Nat) :
    Writable (name, [decimal n]) := by
  have hdigit : ∀ c : BitVec 8, isdigit (UInt8.ofBitVec c) = true →
      (UInt8.ofBitVec c ≠ 44 ∧ UInt8.ofBitVec c ≠ 13 ∧ UInt8.ofBitVec c ≠ 10
        ∧ UInt8.ofBitVec c ≠ 0) ∧ UInt8.ofBitVec c ≠ 32 ∧ UInt8.ofBitVec c ≠ 9 := by
    decide
  constructor
  · simp
  · exact hne
  · exact h
  · intro v hv c hc
    obtain rfl := List.mem_singleton.mp hv
    exact (hdigit c.toBitVec (isdigit_decimal hc)).1
  · intro v hv
    cases hv
    cases hdecimal : decimal n with
    | nil => exact absurd hdecimal (decimal_ne_nil n)
    | cons c s =>
        have hc := (hdigit c.toBitVec (isdigit_decimal (hdecimal ▸ List.mem_cons_self))).2
        simp only [List.head?_cons, ne_eq, Option.some.injEq]
        exact hc

theorem fixValues_eq (n : Nat) (vs : List Bytes) :
    (fixValues n vs = vs ∧ ∃ v, vs = [v] ∧ sscanfZu v = some n)
      ∨ fixValues n vs = [decimal n] := by
  unfold fixValues
  split
  · split
    · rename_i v h
      exact .inl ⟨rfl, v, rfl, h⟩
    · exact .inr rfl
  · exact .inr rfl

theorem Writable.fixValues {f : Bytes × List Bytes} (h : Writable f) (n : Nat) :
    Writable (f.1, Http.fixValues n f.2) := by
  rcases fixValues_eq n f.2 with ⟨heq, -⟩ | heq
  · rw [heq]
    exact h
  · rw [heq]
    exact writable_decimal h.name_ne_nil h.name n

/-- The fixed collection can be written as well. -/
theorem writable_fixFields {fs : Fields} (h : ∀ f ∈ fs, Writable f) (n : Nat) :
    ∀ f ∈ fixFields n fs, Writable f := by
  unfold fixFields
  induction fs with
  | nil =>
      intro f hf
      obtain rfl := List.mem_singleton.mp hf
      exact writable_decimal (by decide) (forall_mem_of_all (by decide)) n
  | cons f fs ih =>
      rw [List.forall_mem_cons] at h
      rw [updateField]
      split
      · exact List.forall_mem_cons.mpr ⟨h.1.fixValues n, h.2⟩
      · exact List.forall_mem_cons.mpr ⟨h.1, ih h.2⟩

/-- The names of the fixed collection are distinct as well. -/
theorem distinctNames_updateField {fs : Fields} (h : DistinctNames (fs.map Prod.fst))
    (name : Bytes) (g : List Bytes → List Bytes) :
    DistinctNames ((updateField name g fs).map Prod.fst) := by
  have hmem : ∀ {fs : Fields} {a : Bytes}, a ∈ (updateField name g fs).map Prod.fst →
      a ∈ fs.map Prod.fst ∨ a = name := by
    intro fs a ha
    induction fs with
    | nil => simpa [updateField] using ha
    | cons f fs ih =>
        rw [updateField] at ha
        split at ha
        · exact .inl ha
        · rcases List.mem_cons.mp ha with rfl | ha
          · exact .inl (by simp)
          · exact (ih ha).imp_left (List.mem_cons_of_mem _)
  unfold DistinctNames at h ⊢
  induction fs with
  | nil => simp [updateField]
  | cons f fs ih =>
      rw [List.map_cons, List.pairwise_cons] at h
      rw [updateField]
      split
      · exact List.pairwise_cons.mpr h
      · rename_i hother
        refine List.pairwise_cons.mpr ⟨?_, ih h.2⟩
        intro a ha
        rcases hmem ha with ha | rfl
        · exact h.1 a ha
        · exact Bool.eq_false_iff.mpr hother

/-! ## A request with the header block -/

/-- What `http_response_write` emits behind the status line, behind a request
line. -/
def message (line : Bytes) (r : HttpResponse) : Bytes :=
  line ++ ascii "\r\n" ++ r.fixed.writes.tail.flatten

theorem message_eq (line : Bytes) (r : HttpResponse) :
    message line r
      = crlfJoin (line :: (fixFields r.bodyBuffer.length r.headers.toList).map headerText ++ [[]])
        ++ r.bodyBuffer := by
  have hblock : ∀ fs, crlfJoin (fs.map headerText) = headerBlock fs := by
    intro fs
    rw [crlfJoin, joinLines, List.flatMap_map, headerBlock]
    rfl
  have hwrites := flatten_writes r
  have hstatus : r.fixed.writes = statusLine r :: r.fixed.writes.tail := rfl
  rw [hstatus, List.flatten_cons, serialization, List.append_assoc, List.append_assoc] at hwrites
  rw [message, List.append_cancel_left hwrites, List.cons_append, crlfJoin_cons, crlfJoin_append,
    hblock]
  simp [ascii]

theorem noTerminator_of_not_mem {l : Bytes} (h : 13 ∉ l) : NoTerminator 13 10 l := by
  intro hin
  exact h (hin.subset (by simp))

theorem Writable.noTerminator {f : Bytes × List Bytes} (h : Writable f) :
    NoTerminator 13 10 (headerText f) := by
  have hvalues : ∀ vs : List Bytes, (∀ v ∈ vs, ∀ c ∈ v, c ≠ 13) →
    13 ∉ joinValues vs := by
    intro vs hvs
    have hcstr : ∀ v : Bytes, (∀ c ∈ v, c ≠ 13) → 13 ∉ cstr v :=
      fun v hv hmem => hv 13 ((List.takeWhile_sublist _).subset hmem) rfl
    induction vs with
    | nil => simp [joinValues]
    | cons v vs ih =>
        rw [List.forall_mem_cons] at hvs
        cases vs with
        | nil =>
            rw [joinValues_singleton]
            exact hcstr v hvs.1
        | cons w vs =>
            rw [joinValues_cons_cons]
            simp only [List.mem_append, not_or]
            exact ⟨⟨hcstr v hvs.1, by decide⟩, ih hvs.2⟩
  apply noTerminator_of_not_mem
  rw [headerText, h.cstr_name]
  simp only [List.mem_append, not_or]
  exact ⟨⟨fun hmem => (h.name 13 hmem).2.1 rfl, by decide⟩,
    hvalues f.2 fun v hv c hc => (h.values v hv c hc).2.1⟩

/-- What is assumed of a request line and a response: the line is one that the
parser takes, the collection comes from calls, its headers can be written, the
head is shorter than 64 KiB, and the whole fits into a buffer. -/
structure Sendable (line method uri : Bytes) (r : HttpResponse) : Prop where
  requestLine : requestLine line = some (method, uri)
  oneLine : NoTerminator 13 10 line
  reachable : ∃ calls, r.headers = (answers HttpHeaders.call calls .init).2
  writable : ∀ f ∈ r.headers.toList, Writable f
  head : (message line r).length < maxSocketReadSizeInChunks * chunkReadSize + r.bodyBuffer.length
  size : (message line r).length ≤ sizeMax

section

variable {line method uri : Bytes} {r : HttpResponse}

theorem distinctNames_of_represents {hs : HttpHeaders} {m : Multimap Bytes headerKey}
    (h : Represents hs m) : DistinctNames (hs.toList.map Prod.fst) := by
  rw [h.toList, DistinctNames, List.pairwise_map]
  have hkeys := List.pairwise_map.mp m.nodup
  refine hkeys.imp_of_mem ?_
  intro e e' he he' hne
  rw [Bool.eq_false_iff, ne_eq, sameName_iff (h.short e he) (h.short e' he')]
  exact hne

/-- The declared length that the parser finds. -/
theorem fieldsContentLength_fixed {fs : Fields} (h : ∀ f ∈ fs, Writable f) {n : Nat}
    (hn : n < 2 ^ 64) : fieldsContentLength ((fixFields n fs).map reread) = .value n := by
  have hfixed : ∀ {name : Bytes} {vs : List Bytes}, Writable (name, fixValues n vs) →
      ∃ v, (reread (name, fixValues n vs)).2 = [v] ∧ sscanfZu v = some n := by
    intro name vs hw
    have hsingle : ∃ v, fixValues n vs = [v] ∧ sscanfZu v = some n := by
      rcases fixValues_eq n vs with ⟨heq, v, rfl, hv⟩ | heq
      · exact ⟨v, heq, hv⟩
      · exact ⟨_, heq, sscanfZu_decimal hn⟩
    obtain ⟨v, heq, hv⟩ := hsingle
    refine ⟨v, ?_, hv⟩
    rw [hw.reread_eq.mpr (by simp [heq, LastEmpty])]
    exact heq
  have hlookup : ∃ v, lookup (ascii "Content-Length") ((fixFields n fs).map reread) = some [v]
      ∧ sscanfZu v = some n := by
    have hall := writable_fixFields h n
    unfold fixFields at hall ⊢
    induction fs with
    | nil =>
        obtain ⟨v, hv, hread⟩ := hfixed (hall _ (List.mem_singleton.mpr rfl))
        exact ⟨v, congrArg some hv, hread⟩
    | cons f fs ih =>
        rw [updateField] at hall ⊢
        by_cases hsame : sameName f.1 (ascii "Content-Length") = true
        · rw [if_pos hsame] at hall ⊢
          obtain ⟨v, hv, hread⟩ := hfixed (hall _ List.mem_cons_self)
          refine ⟨v, ?_, hread⟩
          rw [← hv, lookup, List.map_cons, List.find?_cons_of_pos (by exact hsame)]
          rfl
        · rw [if_neg hsame] at hall ⊢
          obtain ⟨v, hv, hread⟩ :=
            ih (List.forall_mem_cons.mp h).2 (List.forall_mem_cons.mp hall).2
          refine ⟨v, ?_, hread⟩
          rw [← hv, lookup, List.map_cons, List.find?_cons_of_neg (by exact hsame)]
          rfl
  obtain ⟨v, hv, hread⟩ := hlookup
  rw [fieldsContentLength, hv]
  simp only [hread]

/-- The lines of the head, the empty one apart. -/
def headLines (line : Bytes) (r : HttpResponse) : List Bytes :=
  line :: (fixFields r.bodyBuffer.length r.headers.toList).map headerText

theorem message_headLines (line : Bytes) (r : HttpResponse) :
    message line r = crlfJoin (headLines line r) ++ 13 :: 10 :: r.bodyBuffer := by
  rw [message_eq, headLines, crlfJoin_append]
  simp

section

variable (h : Sendable line method uri r)

include h

theorem Sendable.writableFixed :
    ∀ f ∈ fixFields r.bodyBuffer.length r.headers.toList, Writable f :=
  writable_fixFields h.writable _

theorem Sendable.crlfLines_message :
    crlfLines (message line r) = headLines line r ++ [] :: crlfLines r.bodyBuffer := by
  have hlines : ∀ l ∈ headLines line r ++ [[]], NoTerminator 13 10 l := by
    intro l hl
    rcases List.mem_append.mp hl with hl | hl
    · rcases List.mem_cons.mp hl with rfl | hl
      · exact h.oneLine
      · obtain ⟨f, hf, rfl⟩ := List.mem_map.mp hl
        exact (h.writableFixed f hf).noTerminator
    · obtain rfl := List.mem_singleton.mp hl
      exact noTerminator_nil
  have hsplit := splitLines_joinLines (c := 13) (d := 10) (by decide) hlines r.bodyBuffer
  rw [message_eq]
  show (splitLines 13 10 (joinLines 13 10 (headLines line r ++ [[]]) ++ r.bodyBuffer)).1 = _
  rw [hsplit, List.append_assoc]
  rfl

theorem Sendable.headLength_message :
    headLength (message line r) = (crlfJoin (headLines line r)).length + 2 := by
  have hne : ∀ l ∈ headLines line r, decide (l ≠ []) = true := by
    intro l hl
    rw [decide_eq_true_iff]
    rcases List.mem_cons.mp hl with rfl | hl
    · rintro rfl
      have hline := h.requestLine
      cases hline
    · obtain ⟨f, -, rfl⟩ := List.mem_map.mp hl
      simp [headerText, ascii]
  rw [headLength, h.crlfLines_message, List.takeWhile_append_of_pos hne,
    List.takeWhile_cons_of_neg (by simp), List.append_nil]

theorem Sendable.bodyLength_lt : r.bodyBuffer.length < 2 ^ 64 := by
  have hsize := h.size
  rw [message_headLines, List.length_append, List.length_cons, List.length_cons] at hsize
  simp only [sizeMax] at hsize
  omega

/-- **The message is a complete request**, with the fields as they are reread.
-/
theorem Sendable.complete :
    Complete (message line r) method uri
      ((fixFields r.bodyBuffer.length r.headers.toList).map reread)
      (some r.bodyBuffer.length) := by
  have hlength : (message line r).length
      = (crlfJoin (headLines line r)).length + 2 + r.bodyBuffer.length := by
    rw [message_headLines, List.length_append, List.length_cons, List.length_cons]
    omega
  have hsize := h.size
  simp only [sizeMax] at hsize
  obtain ⟨calls, hcalls⟩ := h.reachable
  have hrepresents := (answers_simulates (R := Represents) HeadersCall.abstract
    (fun _ _ c h => Represents.call h c) calls represents_init).2
  have hnames := distinctNames_updateField (hcalls ▸ distinctNames_of_represents hrepresents)
    (ascii "Content-Length") (fixValues r.bodyBuffer.length)
  constructor
  · have hstart : Head.step .start line = .fields method uri [] := by
      rw [Head.step, h.requestLine]
    have hfields := foldl_headerText h.writableFixed [] hnames method uri
    have hdeclared := fieldsContentLength_fixed h.writable h.bodyLength_lt
    have hhead : headOf (headLines line r) = .fields method uri
        ((fixFields r.bodyBuffer.length r.headers.toList).map reread) := by
      rw [headOf, headLines, List.foldl_cons, hstart, hfields, List.nil_append]
    rw [h.crlfLines_message, headOf_append, hhead, List.foldl_cons, Head.step, hdeclared]
    exact foldl_ended _ _ _ _ _
  · rw [h.headLength_message, Option.getD_some, hlength]
  · intro k hk
    cases hk
    rw [h.headLength_message, hlength]
    omega

theorem Sendable.body_message :
    (message line r).drop (headLength (message line r)) = r.bodyBuffer := by
  rw [h.headLength_message, message_headLines, ← List.drop_drop, List.drop_left' rfl]
  rfl

end

end

/-! ## Deliveries -/

theorem length_le_bytesOf {c : Chunk} {d : List Chunk} (h : c ∈ d) :
    c.val.length ≤ (bytesOf d).length := by
  obtain ⟨pre, post, rfl⟩ := List.append_of_mem h
  rw [bytesOf_append, List.length_append, bytesOf, bytesOf, List.flatMap_cons, List.length_append]
  omega

/-- One byte of the request. -/
def byteChunk (c : UInt8) : Chunk := ⟨[c], by simp, by simp [chunkReadSize]⟩

theorem bytesOf_byteChunks (m : Bytes) : bytesOf (m.map byteChunk) = m := by
  induction m with
  | nil => rfl
  | cons c m ih => exact congrArg (c :: ·) ih

/-- A short head can be delivered so that the parser reads it all: byte by
byte, the last three bytes at once. -/
theorem exists_cutsAllowed {m : Bytes} (hm : 3 ≤ m.length)
    (hhead : headLength m ≤ maxSocketReadSizeInChunks * chunkReadSize) :
    ∃ d, bytesOf d = m ∧ CutsAllowed m d := by
  have hlength : (m.drop (m.length - 3)).length = 3 := by
    rw [List.length_drop]
    omega
  let last : Chunk := ⟨m.drop (m.length - 3), by omega, by rw [hlength]; decide⟩
  refine ⟨(m.take (m.length - 3)).map byteChunk ++ [last], ?_, ?_⟩
  · rw [bytesOf_append, bytesOf_byteChunks]
    show m.take _ ++ (m.drop _ ++ []) = m
    rw [List.append_nil, List.take_append_drop]
  · intro pre post hsplit hpost hstops
    have hmem : last ∈ post := by
      apply List.mem_of_getLast?
      rw [← List.getLast?_append_of_ne_nil pre hpost, ← hsplit, List.getLast?_concat]
    have hthree := length_le_bytesOf hmem
    have hbytes := congrArg (fun d => (bytesOf d).length) hsplit
    simp only [bytesOf_append, bytesOf_byteChunks, List.length_append, List.length_take] at hbytes
    have hone : (bytesOf [last]).length = 3 := by
      show (m.drop (m.length - 3) ++ []).length = 3
      rw [List.append_nil, hlength]
    have hlast : last.val.length = 3 := hlength
    rcases hstops with ⟨hle, hlt⟩ | ⟨-, hle⟩ <;> omega

/-! ## Writer and parser -/

/-- However the request is delivered, as long as the parser reads all of it,
it is accepted with the header collection that was written. -/
def Agrees (line : Bytes) (r : HttpResponse) : Prop :=
  ∀ (r₀ : HttpRequest) (d : List Chunk) (rest : Stream), bytesOf d = message line r →
    CutsAllowed (message line r) d →
      ∃ r', httpRequestParse r₀ (deliver d ++ rest) = .returned 0 r' rest
        ∧ r'.headers.toList = r.fixHeaders.toList

section

variable {line method uri : Bytes} {r : HttpResponse}

theorem Sendable.exists_delivery (h : Sendable line method uri r) :
    ∃ d, bytesOf d = message line r ∧ CutsAllowed (message line r) d := by
  have hlength := h.complete.length
  have hhead := h.head
  rw [Option.getD_some] at hlength
  apply exists_cutsAllowed
  · rw [message_headLines, headLines, crlfJoin_cons]
    simp only [List.length_append, List.length_cons]
    omega
  · omega

/-- What is written is printed in the log of the parser, and reread as it is.
-/
theorem Sendable.fields_of_agrees (h : Sendable line method uri r) (hagrees : Agrees line r) :
    PlainFormats (fixFields r.bodyBuffer.length r.headers.toList)
      ∧ (fixFields r.bodyBuffer.length r.headers.toList).map reread
        = fixFields r.bodyBuffer.length r.headers.toList := by
  obtain ⟨d, hd, hcuts⟩ := h.exists_delivery
  obtain ⟨r', hparse, hfields⟩ := hagrees {} d [] hd hcuts
  obtain ⟨used, n, hused, hcomplete, -, htext⟩ := complete_of_accepted hparse
  obtain rfl : deliver d = used := by simpa using hused
  rw [received_deliver, hd] at hcomplete
  have hsame := hcomplete.head.symm.trans h.complete.head
  have hreread : r'.headers.toList
      = (fixFields r.bodyBuffer.length r.headers.toList).map reread := (Head.ended.inj hsame).2.2.1
  rw [requestToString_isSome, hfields, toList_fixHeaders] at htext
  rw [hfields, toList_fixHeaders] at hreread
  exact ⟨htext, hreread.symm⟩

/-- **The header writer and the header parser agree** exactly if the values
can be used as formats and no last one of several is empty. -/
theorem agrees_iff (h : Sendable line method uri r) :
    Agrees line r ↔ PlainFormats (fixFields r.bodyBuffer.length r.headers.toList)
      ∧ ∀ f ∈ fixFields r.bodyBuffer.length r.headers.toList, ¬LastEmpty f.2 := by
  constructor
  · intro hagrees
    obtain ⟨hplain, hreread⟩ := h.fields_of_agrees hagrees
    refine ⟨hplain, ?_⟩
    intro f hf
    have hid : ∀ f ∈ fixFields r.bodyBuffer.length r.headers.toList, reread f = id f :=
      List.map_inj_left.mp (hreread.trans (List.map_id _).symm)
    exact (h.writableFixed f hf).reread_eq.mp (hid f hf)
  · rintro ⟨hplain, hlast⟩ r₀ d rest hd hcuts
    have hreread : (fixFields r.bodyBuffer.length r.headers.toList).map reread
        = fixFields r.bodyBuffer.length r.headers.toList := by
      calc (fixFields r.bodyBuffer.length r.headers.toList).map reread
          = (fixFields r.bodyBuffer.length r.headers.toList).map id :=
            List.map_congr_left fun f hf => (h.writableFixed f hf).reread_eq.mpr (hlast f hf)
        _ = fixFields r.bodyBuffer.length r.headers.toList := List.map_id _
    have hcomplete := h.complete
    rw [hreread, ← toList_fixHeaders] at hcomplete
    let request : HttpRequest :=
      { method := method, uri := uri, headers := r.fixHeaders, body := r.bodyBuffer }
    have htext : (requestToString request).isSome = true := by
      rw [requestToString_isSome]
      show PlainFormats r.fixHeaders.toList
      rwa [toList_fixHeaders]
    have hrequest : request.method = method ∧ request.uri = uri
        ∧ request.headers.toList = r.fixHeaders.toList ∧ request.body = r.bodyBuffer :=
      ⟨rfl, rfl, rfl, rfl⟩
    obtain ⟨r', hparse, hsame⟩ :=
      (hcomplete.parse h.body_message.symm (r := r₀) hrequest htext hd rest).1 hcuts
    exact ⟨r', hparse, hsame.2.2.1.symm⟩

end

/-- A header whose last value is empty, and an empty body. -/
def lastEmpty : HttpResponse :=
  { HttpResponse.init with
    headers := (answers HttpHeaders.call [.getCstr ⟨ascii "Accept", by decide⟩ true,
      .appendValue 0 (ascii "x"), .appendValue 0 []] .init).2 }

theorem sendable_lastEmpty :
    Sendable (ascii "GET / HTTP/1.1") (ascii "GET") (ascii "/") lastEmpty := by
  constructor
  · rfl
  · exact noTerminator_of_not_mem (by decide)
  · exact ⟨_, rfl⟩
  · intro f hf
    have hfields : lastEmpty.headers.toList = [(ascii "Accept", [ascii "x", []])] := rfl
    rw [hfields, List.mem_singleton] at hf
    subst hf
    constructor
    · decide
    · decide
    · exact forall_mem_of_all (by decide)
    · intro v hv
      rcases List.mem_cons.mp hv with rfl | hv
      · exact forall_mem_of_all (by decide)
      · obtain rfl := List.mem_singleton.mp hv
        simp
    · intro v hv
      cases hv
      decide
  · decide
  · decide

theorem agrees_iff_lastEmpty :
    Agrees (ascii "GET / HTTP/1.1") lastEmpty
      ↔ PlainFormats (fixFields lastEmpty.bodyBuffer.length lastEmpty.headers.toList)
        ∧ ∀ f ∈ fixFields lastEmpty.bodyBuffer.length lastEmpty.headers.toList,
          ¬LastEmpty f.2 :=
  agrees_iff sendable_lastEmpty

/-- The parser takes the comma in front of the empty value for a part of the
first. -/
theorem not_agrees_lastEmpty :
    Sendable (ascii "GET / HTTP/1.1") (ascii "GET") (ascii "/") lastEmpty
      ∧ ¬Agrees (ascii "GET / HTTP/1.1") lastEmpty := by
  refine ⟨sendable_lastEmpty, ?_⟩
  intro h
  have hreread := (sendable_lastEmpty.fields_of_agrees h).2
  have hfields : [(ascii "Accept", [ascii "x,"]), (ascii "Content-Length", [ascii "0"])]
      = [(ascii "Accept", [ascii "x", []]), (ascii "Content-Length", [ascii "0"])] := hreread
  exact absurd hfields (by decide)

end CWebServer.Http
