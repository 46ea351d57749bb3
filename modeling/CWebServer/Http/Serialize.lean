import CWebServer.Http.Response

/-!
# Http — Serializing a Response

The bytes that make up a response, as a function of the fields of its header
collection, and the writes of `http_response_write` against them: a write
that accepts only part of what it is offered goes unnoticed.
-/

namespace CWebServer.Http

open CWebServer.Strings CWebServer.Lib

/-! ## The fixed header collection -/

/-- The values of `Content-Length` for a body of this length. -/
def fixValues (bodyLength : Nat) : List Bytes → List Bytes
  | [v] => if sscanfZu v = some bodyLength then [v] else [decimal bodyLength]
  | _ => [decimal bodyLength]

def fixFields (bodyLength : Nat) (fs : Fields) : Fields :=
  updateField (ascii "Content-Length") (fixValues bodyLength) fs

theorem fixContentLength_live (bodyLength : Nat) (h : HttpHeader) :
    (fixContentLength bodyLength h).live = fixValues bodyLength h.live
      ∧ (fixContentLength bodyLength h).name = h.name := by
  unfold fixContentLength
  simp only [HttpHeader.getNumValues, ← HttpHeader.length_live, HttpHeader.getValue_eq]
  cases hlive : h.live with
  | nil => simp [fixValues]; rfl
  | cons v vs =>
      cases vs with
      | cons v' vs => simp [fixValues]; rfl
      | nil =>
          cases hv : sscanfZu v with
          | none => simp [fixValues, hv]; rfl
          | some n =>
              by_cases hn : n = bodyLength
              · simp [fixValues, hv, hn, hlive]
              · simp [fixValues, hv, hn]; rfl

theorem toList_fixHeaders (r : HttpResponse) :
    r.fixHeaders.toList = fixFields r.bodyBuffer.length r.headers.toList := by
  have hname : cstr (ascii "Content-Length") = ascii "Content-Length" := by decide
  obtain ⟨i, hs, hget, htoList⟩ := toList_update r.headers (ascii "Content-Length")
    (fun h => (fixContentLength_live r.bodyBuffer.length h).2)
    fun h => (fixContentLength_live r.bodyBuffer.length h).1
  simp only [HttpResponse.fixHeaders, HttpHeaders.getCstr, hname, hget, htoList, fixFields]

/-! ## The bytes of a response -/

/-- Values with separators. -/
def joinValues (values : List Bytes) : Bytes :=
  ((values.map cstr).intersperse (ascii ",")).flatten

theorem joinValues_singleton (v : Bytes) : joinValues [v] = cstr v := List.append_nil _

theorem joinValues_cons_cons (v w : Bytes) (vs : List Bytes) :
    joinValues (v :: w :: vs) = cstr v ++ ascii "," ++ joinValues (w :: vs) :=
  (List.append_assoc _ _ _).symm

/-- A header line with its line break. -/
def headerLine (f : Bytes × List Bytes) : Bytes :=
  cstr f.1 ++ ascii ": " ++ joinValues f.2 ++ ascii "\r\n"

/-- The header lines of a collection. -/
def headerBlock (fs : Fields) : Bytes := fs.flatMap headerLine

def statusLine (r : HttpResponse) : Bytes :=
  ascii "HTTP/1.1 " ++ decimalInt r.statusCode ++ ascii " " ++ cstr r.reasonPhrase ++ ascii "\r\n"

/-- The complete serialization: the status line, the header lines with the
`Content-Length` that belongs to the body, the empty line and the body. -/
def serialization (r : HttpResponse) : Bytes :=
  statusLine r ++ headerBlock (fixFields r.bodyBuffer.length r.headers.toList) ++ ascii "\r\n"
    ++ r.bodyBuffer

/-- The response as its writes find it. -/
def HttpResponse.fixed (r : HttpResponse) : HttpResponse := { r with headers := r.fixHeaders }

theorem flatten_headerWrites (h : HttpHeader) :
    (headerWrites h).flatten = headerLine (h.name, h.live) := by
  simp [headerWrites, headerLine, joinValues]

/-- What the writes offer is the serialization. -/
theorem flatten_writes (r : HttpResponse) : r.fixed.writes.flatten = serialization r := by
  have hblock : (r.fixHeaders.live.flatMap headerWrites).flatten
      = headerBlock r.fixHeaders.toList := by
    rw [HttpHeaders.toList, headerBlock, List.flatMap_map, List.flatMap, List.flatten_flatten,
      List.map_map, List.flatMap]
    congr 2
    exact funext flatten_headerWrites
  have hwrites : r.fixed.writes = statusLine r :: r.fixHeaders.live.flatMap headerWrites
      ++ [ascii "\r\n", r.bodyBuffer] := rfl
  rw [hwrites, serialization, ← toList_fixHeaders]
  simp [hblock]

/-! ## Formats -/

/-- The values can be used as formats, as the log does: no directive in them
takes an argument. -/
def PlainFormats (fs : Fields) : Prop :=
  ∀ f ∈ fs, ∀ v ∈ f.2, (vsnprintfNoArgs v).isSome = true

theorem isSome_mapM {α β : Type} {f : α → Option β} {l : List α} :
    (l.mapM f).isSome = true ↔ ∀ a ∈ l, (f a).isSome = true := by
  induction l with
  | nil => simp
  | cons a l ih =>
      rw [List.mapM_cons, List.forall_mem_cons, ← ih]
      cases f a <;> cases l.mapM f <;> simp

theorem httpHeadersToString_isSome (hs : HttpHeaders) (indent : Bytes) :
    (httpHeadersToString hs indent).isSome = true ↔ PlainFormats hs.toList := by
  rw [httpHeadersToString_eq, Option.isSome_map, isSome_mapM]
  simp only [fieldToString, Option.isSome_map, isSome_mapM]
  rfl

theorem requestToString_isSome (r : HttpRequest) :
    (requestToString r).isSome = true ↔ PlainFormats r.headers.toList := by
  rw [requestToString, Option.isSome_map, httpHeadersToString_isSome]

/-- The log line is defined for such values only. -/
theorem responseToString_isSome (r : HttpResponse) :
    (responseToString r.fixed).isSome = true
      ↔ PlainFormats (fixFields r.bodyBuffer.length r.headers.toList) := by
  rw [responseToString, Option.isSome_map, httpHeadersToString_isSome, ← toList_fixHeaders]
  rfl

/-- A format ends at the first 0. -/
theorem vsnprintfNoArgs_cstr (v : Bytes) : vsnprintfNoArgs (cstr v) = vsnprintfNoArgs v := by
  fun_induction vsnprintfNoArgs v with
  | case1 f ih => exact congrArg (Option.map (37 :: ·)) ih
  | case2 f hnot =>
      rw [cstr_cons (by decide), vsnprintfNoArgs_directive]
      cases f with
      | nil => simp [cstr]
      | cons c f =>
          by_cases hc : c = 0
          · simp [hc, cstr_zero_cons]
          · rw [cstr_cons hc, List.head?_cons]
            intro h
            exact hnot f (by rw [Option.some.inj h])
  | case3 f => rfl
  | case4 c f hnot h37 h0 ih => rw [cstr_cons h0, vsnprintfNoArgs_char h37 h0, ih]
  | case5 => rfl

/-! ### What is shown -/

/-- The fields as they are printed: each text up to its first 0. -/
def shown (fs : Fields) : Fields := fs.map fun f => (cstr f.1, f.2.map cstr)

theorem plainFormats_shown (fs : Fields) : PlainFormats (shown fs) ↔ PlainFormats fs := by
  unfold PlainFormats shown
  rw [List.forall_mem_map]
  simp only [List.forall_mem_map, vsnprintfNoArgs_cstr]

/-! ## The writes -/

/-- The writes that are made report no failure. -/
def NoFailure (d : Destination) (i : Nat) (bs : List Bytes) : Prop :=
  ∀ j b, bs[j]? = some b → 0 ≤ streamWriteResult (d.accepts (i + j) b)

/-- The writes that are made accept all they are offered. -/
def NoShortWrite (d : Destination) (i : Nat) (bs : List Bytes) : Prop :=
  ∀ j b, bs[j]? = some b → d.accepts (i + j) b = some b.length

section

variable {d : Destination}

/-- A property of the writes, the first one apart. -/
theorem forall_writes_cons {P : Nat → Bytes → Prop} {i : Nat} {b : Bytes} {bs : List Bytes} :
    (∀ j c, (b :: bs)[j]? = some c → P (i + j) c)
      ↔ P i b ∧ ∀ j c, bs[j]? = some c → P (i + 1 + j) c := by
  constructor
  · intro h
    refine ⟨h 0 b rfl, ?_⟩
    intro j c hc
    have hj := h (j + 1) c hc
    rwa [show i + (j + 1) = i + 1 + j by omega] at hj
  · rintro ⟨hfirst, hrest⟩ j c hc
    cases j with
    | zero =>
        cases hc
        exact hfirst
    | succ j =>
        have hj := hrest j c hc
        rwa [show i + 1 + j = i + (j + 1) by omega] at hj

theorem writeAll_code (i : Nat) (bs : List Bytes) :
    (writeAll d i bs).1 = 0 ↔ NoFailure d i bs := by
  induction bs generalizing i with
  | nil => simp [writeAll, NoFailure]
  | cons b bs ih =>
      unfold NoFailure at ih ⊢
      rw [forall_writes_cons (P := fun i b => 0 ≤ streamWriteResult (d.accepts i b)), ← ih,
        writeAll]
      by_cases hfail : streamWriteResult (d.accepts i b) < 0
      · simp [hfail, Int.not_le.mpr hfail]
      · simp [hfail, Int.not_lt.mp hfail]

theorem length_writeAll_le (i : Nat) (bs : List Bytes) :
    (writeAll d i bs).2.length ≤ bs.flatten.length := by
  induction bs generalizing i with
  | nil => simp [writeAll]
  | cons b bs ih =>
      have hrest := ih (i + 1)
      have hfirst := List.length_take_le ((d.accepts i b).getD 0) b
      rw [writeAll, List.flatten_cons, List.length_append]
      split
      · exact Nat.le_trans (List.length_take_le' _ _) (Nat.le_add_right _ _)
      · simp only [List.length_append, List.length_take]
        omega

/-- Writes that report no failure take everything exactly if none is short. -/
theorem writeAll_complete {i : Nat} {bs : List Bytes} (h : NoFailure d i bs) :
    (writeAll d i bs).2 = bs.flatten ↔ NoShortWrite d i bs := by
  induction bs generalizing i with
  | nil => simp [writeAll, NoShortWrite]
  | cons b bs ih =>
      unfold NoFailure at h
      unfold NoShortWrite at ih ⊢
      rw [forall_writes_cons (P := fun i b => 0 ≤ streamWriteResult (d.accepts i b))] at h
      rw [forall_writes_cons (P := fun i b => d.accepts i b = some b.length), ← ih h.2, writeAll,
        if_neg (Int.not_lt.mpr h.1)]
      show b.take _ ++ (writeAll d (i + 1) bs).2 = _ ↔ _
      rw [List.flatten_cons]
      cases haccepts : d.accepts i b with
      | none =>
          rw [haccepts] at h
          exact absurd h.1 (by decide)
      | some n =>
          have hn := (d.accepts_le i b n haccepts).1
          have hrest := length_writeAll_le (d := d) (i + 1) bs
          constructor
          · intro heq
            have hlength := congrArg List.length heq
            simp only [List.length_append, List.length_take, Option.getD_some] at hlength
            have hall : n = b.length := by omega
            subst hall
            rw [Option.getD_some, List.take_length] at heq
            exact ⟨rfl, List.append_cancel_left heq⟩
          · rintro ⟨hall, heq⟩
            rw [hall, Option.getD_some, List.take_length, heq]

/-- A call returns if the response can be serialized, with what the writes
come to. -/
theorem httpResponseWrite_returned {r : HttpResponse} {code : Nat} {accepted : Bytes} :
    (∃ s, httpResponseWrite r d = .returned code s accepted)
      ↔ (responseToString r.fixed).isSome = true
        ∧ writeAll d 0 r.fixed.writes = (code, accepted) := by
  have hfixed : { r with headers := r.fixHeaders } = r.fixed := rfl
  rw [httpResponseWrite, hfixed]
  cases responseToString r.fixed with
  | none => simp
  | some text => simp [Prod.ext_iff]

end

/-- What a call on a destination is to do: to be defined and, if it returns 0,
to have the whole serialization accepted. -/
def WritesCompletely (r : HttpResponse) (d : Destination) : Prop :=
  ∃ code r' accepted, httpResponseWrite r d = .returned code r' accepted
    ∧ (code = 0 → accepted = serialization r)

/-- **A response reported as written is complete** exactly if its values can
be used as formats and either some write reports a failure or none is short.
-/
theorem writesCompletely_iff (r : HttpResponse) (d : Destination) :
    WritesCompletely r d ↔ PlainFormats (fixFields r.bodyBuffer.length r.headers.toList)
      ∧ (¬NoFailure d 0 r.fixed.writes ∨ NoShortWrite d 0 r.fixed.writes) := by
  rw [← responseToString_isSome, WritesCompletely]
  constructor
  · rintro ⟨code, r', accepted, hcall, hcomplete⟩
    obtain ⟨hsome, hwrites⟩ := httpResponseWrite_returned.mp ⟨r', hcall⟩
    refine ⟨hsome, ?_⟩
    by_cases hfail : NoFailure d 0 r.fixed.writes
    · apply Or.inr
      apply (writeAll_complete hfail).mp
      have hzero := (writeAll_code 0 _).mpr hfail
      rw [hwrites] at hzero ⊢
      rw [flatten_writes]
      exact hcomplete hzero
    · exact .inl hfail
  · rintro ⟨hsome, h⟩
    have hwritten : writeAll d 0 r.fixed.writes
        = ((writeAll d 0 r.fixed.writes).1, (writeAll d 0 r.fixed.writes).2) := rfl
    obtain ⟨r', hcall⟩ := httpResponseWrite_returned.mpr ⟨hsome, hwritten⟩
    refine ⟨_, r', _, hcall, ?_⟩
    intro hzero
    have hfail := (writeAll_code 0 _).mp hzero
    rw [← flatten_writes]
    exact (writeAll_complete hfail).mpr (h.resolve_left (not_not.mpr hfail))

/-- A destination that takes one byte at a time. -/
def oneByte : Destination where
  accepts _ b := some (min 1 b.length)
  accepts_le := by
    intro i b n h
    cases h
    refine ⟨Nat.min_le_right _ _, ?_⟩
    intro hb
    have := List.length_pos_iff.mpr hb
    omega

/-- A new response, written one byte at a time, loses all but the first byte of
each write and is reported as written. -/
theorem not_writesCompletely_oneByte : ¬WritesCompletely .init oneByte := by
  rintro ⟨code, r', accepted, hwrite, hcomplete⟩
  have hcall : httpResponseWrite .init oneByte = .returned 0 _ (ascii "HC0\r\r") := rfl
  rw [hcall] at hwrite
  obtain ⟨rfl, -, rfl⟩ := WriteOutcome.returned.inj hwrite
  have hlength := congrArg List.length (hcomplete rfl)
  have hserialization : (serialization .init).length = 38 := by decide
  rw [hserialization] at hlength
  exact absurd hlength (by decide)

end CWebServer.Http
