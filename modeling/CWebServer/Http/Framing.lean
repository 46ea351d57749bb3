import CWebServer.Http.ReadLoop

/-!
# Http — Framing

What an accepted request looks like on the wire: the request line, the header
lines, the empty line and the body, one behind the other.
-/

namespace CWebServer.Http

open CWebServer.Strings CWebServer.Lib

/-- The fields of the header lines, in order, behind those in `fs`. -/
def fieldsOf (lines : List Bytes) (fs : Fields) : Option Fields :=
  lines.foldlM (fun fs line => (fieldLine line).map fun f => addField f.1 f.2 fs) fs

/-- `data` is the request `r`, cut into the request line, the header lines,
the empty line and the body. -/
structure Framed (r : HttpRequest) (data line : Bytes) (lines : List Bytes) : Prop where
  data : data = crlfJoin (line :: lines ++ [[]]) ++ r.body
  noCrlf : ∀ x ∈ line :: lines, NoTerminator 13 10 x
  nonempty : [] ∉ lines
  requestLine : ∃ more, tokens (· = 32) line = r.method :: r.uri :: more
  names : ∀ x ∈ lines, 58 ∈ x
    ∧ ∃ values, fieldLine x = some (x.takeWhile (· ≠ 58), values)
  fields : fieldsOf lines [] = some r.headers.toList
  length : match lookup (ascii "Content-Length") r.headers.toList with
    | none => r.body.length = 0
    | some values => ∃ v, values = [v] ∧ sscanfZu v = some r.body.length

/-! ## The head -/

/-- What `declared` says about the fields. -/
def Declares (fs : Fields) (declared : Option Nat) : Prop :=
  fieldsContentLength fs =
    match declared with
    | none => .missing
    | some n => .value n

theorem Declares.lookup {fs : Fields} {n : Option Nat} (h : Declares fs n) :
    match lookup (ascii "Content-Length") fs with
    | none => n.getD 0 = 0
    | some values => ∃ v, values = [v] ∧ sscanfZu v = some (n.getD 0) := by
  unfold Declares fieldsContentLength at h
  match hl : Http.lookup (ascii "Content-Length") fs with
  | none =>
      rw [hl] at h
      cases n with
      | none => rfl
      | some n => cases h
  | some [v] =>
      rw [hl] at h
      refine ⟨v, rfl, ?_⟩
      cases hv : sscanfZu v with
      | none => cases n <;> simp [hv] at h
      | some k => cases n <;> simp_all
  | some [] => cases n <;> simp [hl] at h
  | some (v :: w :: vs) => cases n <;> simp [hl] at h

theorem foldl_fields_ended {ls : List Bytes} {m u m' u' : Bytes} {fs fs' : Fields}
    {n : Option Nat} (h : ls.foldl Head.step (.fields m u fs) = .ended m' u' fs' n) :
    ∃ lines more, ls = lines ++ [] :: more ∧ [] ∉ lines ∧ m' = m ∧ u' = u
      ∧ fieldsOf lines fs = some fs' ∧ Declares fs' n := by
  induction ls generalizing fs with
  | nil => cases h
  | cons l ls ih =>
      rw [List.foldl_cons] at h
      cases l with
      | nil =>
          rw [Head.step] at h
          refine ⟨[], ls, rfl, by simp, ?_⟩
          cases hd : fieldsContentLength fs with
          | missing =>
              rw [hd, foldl_ended] at h
              cases h
              exact ⟨rfl, rfl, rfl, hd⟩
          | value k =>
              rw [hd, foldl_ended] at h
              cases h
              exact ⟨rfl, rfl, rfl, hd⟩
          | invalid =>
              rw [hd, foldl_failed] at h
              cases h
      | cons c l =>
          rw [Head.step] at h
          · cases hline : fieldLine (c :: l) with
            | none =>
                rw [hline, foldl_failed] at h
                cases h
            | some p =>
                rw [hline] at h
                obtain ⟨lines, more, hls, hne, hm, hu, hfs, hd⟩ := ih h
                refine ⟨(c :: l) :: lines, more, by rw [hls]; rfl, by simp [hne], hm,
                  hu, ?_, hd⟩
                simpa [fieldsOf, hline] using hfs
          · simp

/-- **The head of a request**, from the machine: a request line, field lines
and the first empty line. -/
theorem headOf_ended {ls : List Bytes} {m u : Bytes} {fs : Fields} {n : Option Nat}
    (h : headOf ls = .ended m u fs n) :
    ∃ line lines more, ls = line :: lines ++ [] :: more ∧ requestLine line = some (m, u)
      ∧ [] ∉ line :: lines ∧ fieldsOf lines [] = some fs ∧ Declares fs n := by
  cases ls with
  | nil => cases h
  | cons line ls =>
      rw [headOf, List.foldl_cons, Head.step] at h
      cases hline : requestLine line with
      | none =>
          rw [hline, foldl_failed] at h
          cases h
      | some p =>
          rw [hline] at h
          obtain ⟨lines, more, hls, hne, hm, hu, hfs, hd⟩ := foldl_fields_ended h
          refine ⟨line, lines, more, by rw [hls]; rfl, by rw [hline, hm, hu], ?_, hfs, hd⟩
          intro hmem
          rcases List.mem_cons.mp hmem with he | hmem
          · rw [← he] at hline
            cases hline
          · exact hne hmem

/-- Every header line gives a field. -/
theorem fieldLine_of_fieldsOf {lines : List Bytes} {fs fs' : Fields}
    (h : fieldsOf lines fs = some fs') : ∀ x ∈ lines, ∃ f, fieldLine x = some f := by
  induction lines generalizing fs with
  | nil => simp
  | cons l lines ih =>
      rw [fieldsOf, List.foldlM_cons] at h
      obtain ⟨fs₁, hl, hrest⟩ := Option.bind_eq_some_iff.mp h
      obtain ⟨f, hf, -⟩ := Option.map_eq_some_iff.mp hl
      intro x hx
      rcases List.mem_cons.mp hx with rfl | hx
      · exact ⟨f, hf⟩
      · exact ih hrest x hx

/-! ## An accepted request -/

/-- How a call ends, by what the loop has come to. -/
inductive ParseEnds (r : HttpRequest) (stream : Stream) : ParseOutcome → Prop
  | loopFailed {r₁ : HttpRequest} {rest : Stream} :
      readLoop stream r.clear {} = .error (r₁, rest) →
        ParseEnds r stream (.returned 1 r₁ rest)
  | unfinished {r₁ : HttpRequest} {l : ParseLocals} {rest : Stream} :
      readLoop stream r.clear {} = .ok (r₁, l, rest) → l.foundEndOfHeader = false →
        ParseEnds r stream (.returned 1 r₁ rest)
  | unprintable {r₁ : HttpRequest} {l : ParseLocals} {rest : Stream} :
      readLoop stream r.clear {} = .ok (r₁, l, rest) → l.foundEndOfHeader = true →
      requestToString { r₁ with body := r₁.body ++ r₁.readBuf.drop l.startOfBody } = none →
        ParseEnds r stream .undefined
  | parsed {r₁ : HttpRequest} {l : ParseLocals} {rest : Stream} {text : Bytes} {code : Nat} :
      readLoop stream r.clear {} = .ok (r₁, l, rest) → l.foundEndOfHeader = true →
      requestToString { r₁ with body := r₁.body ++ r₁.readBuf.drop l.startOfBody }
        = some text →
      code = (if (r₁.body ++ r₁.readBuf.drop l.startOfBody).length ≠ l.expectedContentLength
        then 1 else 0) →
        ParseEnds r stream (.returned code { r₁ with
          body := r₁.body ++ r₁.readBuf.drop l.startOfBody, scratch := text } rest)

theorem httpRequestParse_ends (r : HttpRequest) (stream : Stream) :
    ParseEnds r stream (httpRequestParse r stream) := by
  rw [httpRequestParse]
  cases hloop : readLoop stream r.clear {} with
  | error p => exact .loopFailed hloop
  | ok p =>
      obtain ⟨r₁, l, rest⟩ := p
      cases hend : l.foundEndOfHeader with
      | false => simpa [hend] using ParseEnds.unfinished hloop hend
      | true =>
          simp only [hend, Bool.not_true, Bool.false_eq_true, if_false]
          cases htext : requestToString
              { r₁ with body := r₁.body ++ r₁.readBuf.drop l.startOfBody } with
          | none => exact .unprintable hloop hend htext
          | some text =>
              dsimp only
              split
              · rename_i hlength
                exact .parsed hloop hend htext (if_pos hlength).symm
              · rename_i hlength
                exact .parsed hloop hend htext (if_neg hlength).symm

/-- The end of an accepted run: the head is over, and behind it stands a body
of the declared length. -/
theorem httpRequestParse_zero {r r' : HttpRequest} {stream rest : Stream}
    (h : httpRequestParse r stream = .returned 0 r' rest) :
    ∃ r₁ l, readLoop stream r.clear {} = .ok (r₁, l, rest) ∧ l.foundEndOfHeader = true
      ∧ (∃ text, requestToString { r₁ with
          body := r₁.body ++ r₁.readBuf.drop l.startOfBody } = some text
        ∧ r' = { r₁ with
          body := r₁.body ++ r₁.readBuf.drop l.startOfBody, scratch := text })
      ∧ r'.body.length = l.expectedContentLength := by
  have hends := httpRequestParse_ends r stream
  rw [h] at hends
  cases hends with
  | @parsed r₁ l _ text _ hloop hend htext hcode =>
      refine ⟨r₁, l, hloop, hend, ⟨text, htext, rfl⟩, ?_⟩
      by_contra hlength
      rw [if_pos hlength] at hcode
      cases hcode

/-- A text whose lines make up a whole head: the first empty line ends it. -/
theorem data_of_ended {b m u : Bytes} {fs : Fields} {n : Option Nat}
    (h : headOf (crlfLines b) = .ended m u fs n) :
    ∃ line lines, b = crlfJoin (line :: lines ++ [[]]) ++ b.drop (headLength b)
      ∧ headLength b ≤ b.length ∧ (∀ x ∈ line :: lines, NoTerminator 13 10 x)
      ∧ requestLine line = some (m, u) ∧ [] ∉ line :: lines ∧ fieldsOf lines [] = some fs
      ∧ Declares fs n := by
  obtain ⟨line, lines, more, hls, hreq, hne, hfs, hd⟩ := headOf_ended h
  have hjoin : crlfJoin (crlfLines b) ++ (splitLines 13 10 b).2 = b := joinLines_splitLines b
  have hwhile : (crlfLines b).takeWhile (· ≠ []) = line :: lines := by
    rw [hls, List.takeWhile_append_of_pos fun x hx => by
      simpa using fun he : x = [] => hne (he ▸ hx)]
    simp
  have hlen : headLength b = (crlfJoin (line :: lines ++ [[]])).length := by
    rw [headLength, hwhile, crlfJoin_append, List.length_append]
    rfl
  have hdata : b = crlfJoin (line :: lines ++ [[]])
      ++ (crlfJoin more ++ (splitLines 13 10 b).2) := by
    conv_lhs => rw [← hjoin, hls]
    simp
  refine ⟨line, lines, ?_, ?_, ?_, hreq, hne, hfs, hd⟩
  · rw [hlen]
    conv_rhs => rw [hdata]
    rw [List.drop_left']
    · exact hdata
    · rfl
  · rw [hlen, hdata, List.length_append]
    exact Nat.le_add_right _ _
  · intro x hx
    apply (noTerminator_splitLines b).1 x
    have hmem : x ∈ crlfLines b := by
      rw [hls]
      exact List.mem_append_left _ hx
    exact hmem

/-- The fields and the body of an accepted request, from the bytes read. -/
theorem accepted {r r' : HttpRequest} {stream rest : Stream}
    (h : httpRequestParse r stream = .returned 0 r' rest) :
    ∃ used n, stream = used ++ rest
      ∧ headOf (crlfLines (received used)) = .ended r'.method r'.uri r'.headers.toList n
      ∧ r'.body = (received used).drop (headLength (received used))
      ∧ r'.body.length = n.getD 0 := by
  obtain ⟨r₁, l, hloop, hend, ⟨text, -, rfl⟩, hlen⟩ := httpRequestParse_zero h
  obtain ⟨hreading, used, hs, hbuf⟩ := readLoop_reading (reading_initial r) hloop
  rw [HttpRequest.clear, List.nil_append] at hbuf
  rcases hreading.stage with hin | ⟨n, hended⟩
  · rw [hin.foundEndOfHeader] at hend
    cases hend
  · refine ⟨used, n, hs, by rw [← hbuf]; exact hended.head, ?_, ?_⟩
    · rw [← hbuf, headLength, ← hended.startOfBody, hended.body, List.nil_append]
    · rw [hlen, hended.expectedContentLength]

/-- **An accepted request is framed as its bytes say**: they are the request
line, the header lines, an empty line and the body, whatever the reads that
brought them. -/
theorem httpRequestParse_framed {r r' : HttpRequest} {stream rest : Stream}
    (h : httpRequestParse r stream = .returned 0 r' rest) :
    ∃ used line lines, stream = used ++ rest ∧ Framed r' (received used) line lines := by
  obtain ⟨used, n, hs, hhead, hbody, hlen⟩ := accepted h
  obtain ⟨line, lines, hdata, -, hno, hreq, hne, hfs, hd⟩ := data_of_ended hhead
  refine ⟨used, line, lines, hs, ?_⟩
  have hlines : [] ∉ lines := fun hmem => hne (List.mem_cons_of_mem line hmem)
  refine ⟨by rw [hbody]; exact hdata, hno, hlines, requestLine_tokens hreq, ?_, hfs, ?_⟩
  · intro x hx
    obtain ⟨⟨name, values⟩, hf⟩ := fieldLine_of_fieldsOf hfs x hx
    obtain ⟨hcolon, rfl⟩ := fieldLine_name hf
    exact ⟨hcolon, values, hf⟩
  · rw [hlen]
    exact hd.lookup

/-- A request with one header and a body of one byte, in two reads. -/
def exampleStream : Stream :=
  [.bytes ⟨ascii "PUT /x HTTP/1.1\r\nContent-Le", by decide⟩,
    .bytes ⟨ascii "ngth: 1\r\n\r\nz", by decide⟩]

theorem httpRequestParse_framed_example :
    ∃ r' rest used line lines, httpRequestParse {} exampleStream = .returned 0 r' rest
      ∧ exampleStream = used ++ rest ∧ Framed r' (received used) line lines := by
  have h : httpRequestParse {} exampleStream = .returned 0 _ _ := rfl
  obtain ⟨used, line, lines, hs, hframed⟩ := httpRequestParse_framed h
  exact ⟨_, _, used, line, lines, h, hs, hframed⟩

end CWebServer.Http
