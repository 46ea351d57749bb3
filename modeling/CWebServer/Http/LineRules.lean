import CWebServer.Http.Runs
import CWebServer.Strings.Any

/-!
# Http — Line Rules

Which lines of a head `http_request_parse` takes, whatever the reads that
bring them. A request line is missed if its third token is the last byte
alone, a header line if its first colon is its last byte, and both if the
limit is reached before the read that brings their CRLF.
-/

namespace CWebServer.Http

open CWebServer.Strings CWebServer.Lib

section

variable {r₀ : HttpRequest} {d : List Chunk} {c : Chunk} {done : List Bytes} {line t : Bytes}

/-- The scan of a line that is brought before the limit comes to its CRLF. -/
theorem Brings.exists_found (h : Brings d c done line t) (r₀ : HttpRequest)
    (hopen : (headOf done).Open) (hlt : (bytesOf d).length < maxSocketReadSize) :
    ∃ r l, Scans r₀ d c (crlfJoin done ++ line).length r l
      ∧ CrlfAt r (crlfJoin done ++ line).length := by
  obtain ⟨r, l, hscan, -, -⟩ := h.exists_scans r₀ hopen hlt
  obtain ⟨-, hbuf, -⟩ := h.found hscan
  refine ⟨r, l, hscan, ?_⟩
  rw [CrlfAt, hbuf, ← List.append_assoc, List.drop_left]
  exact List.prefix_append [13, 10] t

/-! ## The request line -/

/-- In front of the first line there is no request line yet. -/
theorem InHead.foundRequestLine_nil {r : HttpRequest} {l : ParseLocals} (h : InHead r l []) :
    l.foundRequestLine = false := by
  have hhead := h.head
  cases hfound : l.foundRequestLine with
  | false => rfl
  | true =>
      rw [hfound] at hhead
      cases hhead

/-- What is found of the first line. -/
theorem Brings.lineFound_first (h : Brings d c [] line t) {r : HttpRequest} {l : ParseLocals}
    (hscan : Scans r₀ d c line.length r l) :
    lineFound r l line.length = (requestLine line).elim (.error { r with scratch := line })
      fun p => .ok ({ r with method := p.1, uri := p.2 }, { l with foundRequestLine := true }) := by
  obtain ⟨hin, hbuf, -⟩ := h.found hscan
  exact (hin.lineFound_first hin.foundRequestLine_nil hbuf).2

/-- What a first line leaves that is taken. -/
theorem Brings.takes_first (h : Brings d c [] line t) {r r' : HttpRequest} {l l' : ParseLocals}
    (htakes : Takes r₀ d c line.length r l r' l') :
    requestLine line = some (r'.method, r'.uri) := by
  have hfound := h.lineFound_first htakes.scans
  rw [htakes.found] at hfound
  cases hline : requestLine line with
  | none =>
      rw [hline] at hfound
      cases hfound
  | some p =>
      rw [hline] at hfound
      cases hfound
      rfl

theorem Brings.takes_first_iff (h : Brings d c [] line t) :
    (∃ r l r' l', Takes r₀ d c line.length r l r' l')
      ↔ (bytesOf d).length < maxSocketReadSize ∧ (requestLine line).isSome = true := by
  constructor
  · rintro ⟨r, l, r', l', htakes⟩
    refine ⟨htakes.scans.lt_maxSocketReadSize, ?_⟩
    rw [h.takes_first htakes]
    rfl
  · rintro ⟨hlt, hsome⟩
    obtain ⟨p, hp⟩ := Option.isSome_iff_exists.mp hsome
    obtain ⟨r, l, hscan, hcrlf⟩ := h.exists_found r₀ trivial hlt
    have hfound := h.lineFound_first hscan
    rw [hp] at hfound
    exact ⟨r, l, _, _, hscan, hcrlf, hfound⟩

/-- The request line is taken exactly if it has three tokens, and the first
two are method and URI; without three the call fails. -/
structure RequestLineRule (r₀ : HttpRequest) (d : List Chunk) (c : Chunk) (line : Bytes) :
    Prop where
  accepts : (∃ r l r' l', Takes r₀ d c line.length r l r' l')
    ↔ 3 ≤ (tokens (· = 32) line).length
  finds : ∀ r l r' l', Takes r₀ d c line.length r l r' l' →
    ∃ more, tokens (· = 32) line = r'.method :: r'.uri :: more
  rejects : (tokens (· = 32) line).length < 3 → ∀ rest, ∃ r' left,
    httpRequestParse r₀ (deliver (d ++ [c]) ++ rest) = .returned 1 r' left

/-- **The rule for the request line** holds except for a third token that is
the last byte of the line alone, and behind the limit. -/
theorem requestLineRule_iff (h : Brings d c [] line t) :
    RequestLineRule r₀ d c line
      ↔ (3 ≤ (tokens (· = 32) line).length →
        (bytesOf d).length < maxSocketReadSize ∧ ¬LoneLastByte line) := by
  constructor
  · intro hrule hthree
    obtain ⟨hlt, hsome⟩ := h.takes_first_iff.mp (hrule.accepts.mpr hthree)
    exact ⟨hlt, ((requestLine_isSome_iff line).mp hsome).2⟩
  · intro hwhen
    refine ⟨?_, ?_, ?_⟩
    · rw [h.takes_first_iff, requestLine_isSome_iff]
      constructor
      · exact fun htakes => htakes.2.1
      · exact fun hthree => ⟨(hwhen hthree).1, hthree, (hwhen hthree).2⟩
    · intro r l r' l' htakes
      exact requestLine_tokens (h.takes_first htakes)
    · intro hfew rest
      have hnone : requestLine line = none := by
        cases hline : requestLine line with
        | none => rfl
        | some p =>
            have hthree := (requestLine_isSome_iff line).mp (by rw [hline]; rfl)
            exact absurd hthree.1 (Nat.not_le_of_lt hfew)
      have hfailed : headOf ([] ++ [line]) = .failed := by
        show Head.step .start line = .failed
        simp only [Head.step, hnone]
      exact h.returns_one r₀ trivial hfailed rest

/-- The only line of a read that ends with it. -/
theorem brings_first {c : Chunk} {line t : Bytes} (h : c.val = line ++ 13 :: 10 :: t)
    (hline : NoTerminator 13 10 line) : Brings [] c [] line t :=
  { bytes := by simpa [bytesOf] using h
    noCrlf := by
      intro x hx
      obtain rfl := List.mem_singleton.mp hx
      exact hline
    short := Nat.lt_of_lt_of_le Nat.zero_lt_two (Nat.le_add_left 2 _) }

/-- A request without fields. -/
def getRead : Chunk := ⟨ascii "GET / HTTP/1.1\r\n\r\n", by decide⟩

theorem requestLineRule_get :
    RequestLineRule {} [] getRead (ascii "GET / HTTP/1.1")
      ↔ (3 ≤ (tokens (· = 32) (ascii "GET / HTTP/1.1")).length →
        (bytesOf []).length < maxSocketReadSize ∧ ¬LoneLastByte (ascii "GET / HTTP/1.1")) := by
  apply requestLineRule_iff (t := ascii "\r\n")
  exact brings_first rfl (by unfold NoTerminator; decide)

/-- A request whose third token is its last byte alone. -/
def loneTokenRead : Chunk := ⟨ascii "GET / 1\r\n\r\n", by decide⟩

/-- `GET / 1` has three tokens, but the call returns 1. -/
theorem not_requestLineRule :
    (tokens (· = 32) (ascii "GET / 1")).length = 3
      ∧ (∃ r', httpRequestParse {} [.bytes loneTokenRead] = .returned 1 r' [])
      ∧ ¬RequestLineRule {} [] loneTokenRead (ascii "GET / 1") := by
  have hthree : (tokens (· = 32) (ascii "GET / 1")).length = 3 := by decide
  refine ⟨hthree, ⟨_, rfl⟩, ?_⟩
  intro hrule
  have hbrings : Brings [] loneTokenRead [] (ascii "GET / 1") (ascii "\r\n") :=
    brings_first rfl (by unfold NoTerminator; decide)
  have htakes := hbrings.takes_first_iff.mp (hrule.accepts.mpr (by rw [hthree]))
  exact absurd htakes.2 (by decide)

/-! ## A header line -/

section

variable {m u : Bytes} {fs : Fields}

theorem Brings.foundRequestLine (h : Brings d c done line t)
    (hdone : headOf done = .fields m u fs) {r : HttpRequest} {l : ParseLocals}
    (hscan : Scans r₀ d c (crlfJoin done ++ line).length r l) : l.foundRequestLine = true := by
  have hhead := (h.found hscan).1.head
  rw [hdone] at hhead
  cases hfound : l.foundRequestLine with
  | false =>
      rw [hfound] at hhead
      cases hhead
  | true => rfl

/-- What is found of a header line. -/
theorem Brings.lineFound_field (h : Brings d c done line t)
    (hdone : headOf done = .fields m u fs) (hne : line ≠ []) {r : HttpRequest} {l : ParseLocals}
    (hscan : Scans r₀ d c (crlfJoin done ++ line).length r l) :
    lineFound r l (crlfJoin done ++ line).length
      = (parseHeaderLine r line).map fun r => (r, l) := by
  obtain ⟨hin, hbuf, -⟩ := h.found hscan
  exact hin.lineFound_field (h.foundRequestLine hdone hscan) hne hbuf

theorem Brings.length_le (h : Brings d c done line t) {r : HttpRequest} {l : ParseLocals}
    (hscan : Scans r₀ d c (crlfJoin done ++ line).length r l) : line.length ≤ sizeMax := by
  obtain ⟨-, hbuf, hsize⟩ := h.found hscan
  rw [hbuf, List.length_append, List.length_append] at hsize
  omega

/-- A header line with a field on it is taken. -/
theorem Brings.takes_field (h : Brings d c done line t) (r₀ : HttpRequest)
    (hdone : headOf done = .fields m u fs) (hne : line ≠ [])
    (hlt : (bytesOf d).length < maxSocketReadSize) {name : Bytes} {values : List Bytes}
    (hfield : fieldLine line = some (name, values)) :
    ∃ r l r' l', Takes r₀ d c (crlfJoin done ++ line).length r l r' l'
      ∧ r'.headers.toList = addField name values r.headers.toList := by
  obtain ⟨r, l, hscan, hcrlf⟩ := h.exists_found r₀ (by rw [hdone]; trivial) hlt
  have hparse := parseHeaderLine_eq r (h.length_le hscan)
  rw [hfield] at hparse
  obtain ⟨scratch, headers, heq, hadd⟩ := hparse
  have hfound := h.lineFound_field hdone hne hscan
  rw [heq] at hfound
  exact ⟨r, l, _, _, ⟨hscan, hcrlf, hfound⟩, hadd⟩

/-- A line without one is an error. -/
theorem Brings.not_takes_field (h : Brings d c done line t)
    (hdone : headOf done = .fields m u fs) (hne : line ≠ []) (hfield : fieldLine line = none)
    {r r' : HttpRequest} {l l' : ParseLocals} :
    ¬Takes r₀ d c (crlfJoin done ++ line).length r l r' l' := by
  intro htakes
  have hparse := parseHeaderLine_eq r (h.length_le htakes.scans)
  have hfound := h.lineFound_field hdone hne htakes.scans
  rw [hfield] at hparse
  simp only at hparse
  rw [htakes.found, hparse] at hfound
  cases hfound

/-- A header line is taken and its field recorded; without a colon the call
fails. -/
structure HeaderLineRule (r₀ : HttpRequest) (d : List Chunk) (c : Chunk) (done : List Bytes)
    (line : Bytes) : Prop where
  records : ∀ name value, line = name ++ 58 :: value → name ≠ [] → 58 ∉ name →
    ∃ r l r' l' v values, Takes r₀ d c (crlfJoin done ++ line).length r l r' l'
        ∧ r'.headers.toList = addField name (v :: values) r.headers.toList
  rejects : 58 ∉ line → ∀ rest, ∃ r' left,
    httpRequestParse r₀ (deliver (d ++ [c]) ++ rest) = .returned 1 r' left

/-- **The rule for a header line** holds except for a line that ends with its
first colon, and behind the limit. -/
theorem headerLineRule_iff (h : Brings d c done line t) (hdone : headOf done = .fields m u fs)
    (hne : line ≠ []) :
    HeaderLineRule r₀ d c done line
      ↔ ∀ name value, line = name ++ 58 :: value → name ≠ [] → 58 ∉ name →
        (bytesOf d).length < maxSocketReadSize ∧ value ≠ [] := by
  constructor
  · intro hrule name value hline hname hcolon
    obtain ⟨r, l, r', l', v, values, htakes, -⟩ := hrule.records name value hline hname hcolon
    refine ⟨htakes.scans.lt_maxSocketReadSize, ?_⟩
    rintro rfl
    have hfield : fieldLine line = none := by
      rw [fieldLine, hline, cutAt_last hcolon]
      rfl
    exact h.not_takes_field hdone hne hfield htakes
  · intro hwhen
    refine ⟨?_, ?_⟩
    · intro name value hline hname hcolon
      obtain ⟨hlt, hvalue⟩ := hwhen name value hline hname hcolon
      obtain ⟨v, values, hvalues⟩ := List.exists_cons_of_ne_nil
        (cutAll_ne_nil 44 (stringTrimStartAnyOfCstr value (ascii " \t")))
      have hfield : fieldLine line = some (name, v :: values) := by
        rw [fieldLine, hline, cutAt_append hcolon hvalue, ← hvalues]
        rfl
      obtain ⟨r, l, r', l', htakes, hadd⟩ := h.takes_field r₀ hdone hne hlt hfield
      exact ⟨r, l, r', l', v, values, htakes, hadd⟩
    · intro hcolon rest
      have hfield : fieldLine line = none := by
        rw [fieldLine, cutAt_of_not_mem hcolon]
        rfl
      have hfailed : headOf (done ++ [line]) = .failed := by
        rw [headOf_append, hdone]
        show Head.step (.fields m u fs) line = .failed
        cases line with
        | nil => exact absurd rfl hne
        | cons a line => simp only [Head.step, hfield]
      exact h.returns_one r₀ (by rw [hdone]; trivial) hfailed rest

end

/-- Two lines in one read. -/
theorem brings_second {c : Chunk} {first line t : Bytes}
    (h : c.val = first ++ 13 :: 10 :: (line ++ 13 :: 10 :: t))
    (hno : ∀ x ∈ [line, first], NoTerminator 13 10 x) : Brings [] c [first] line t :=
  { bytes := by simpa [bytesOf] using h
    noCrlf := hno
    short := Nat.lt_of_lt_of_le Nat.zero_lt_two (Nat.le_add_left 2 _) }

/-- A request with one field. -/
def fieldRead : Chunk := ⟨ascii "GET / HTTP/1.1\r\nA: b\r\n\r\n", by decide⟩

theorem headerLineRule_accept :
    HeaderLineRule {} [] fieldRead [ascii "GET / HTTP/1.1"]
        (ascii "A: b")
      ↔ ∀ name value, ascii "A: b" = name ++ 58 :: value → name ≠ [] → 58 ∉ name →
        (bytesOf []).length < maxSocketReadSize ∧ value ≠ [] := by
  have hbrings : Brings [] fieldRead [ascii "GET / HTTP/1.1"] (ascii "A: b") (ascii "\r\n") :=
    brings_second rfl (by unfold NoTerminator; decide)
  have hdone : headOf [ascii "GET / HTTP/1.1"] = .fields (ascii "GET") (ascii "/") [] := rfl
  exact headerLineRule_iff hbrings hdone (by decide)

/-- A request whose field has no text behind the colon. -/
def emptyFieldRead : Chunk := ⟨ascii "GET / HTTP/1.1\r\nName:\r\n\r\n", by decide⟩

/-- On `Name:` the call returns 1. -/
theorem not_headerLineRule :
    (∃ r', httpRequestParse {} [.bytes emptyFieldRead]
        = .returned 1 r' [])
      ∧ ¬HeaderLineRule {} [] emptyFieldRead
        [ascii "GET / HTTP/1.1"] (ascii "Name:") := by
  refine ⟨⟨_, rfl⟩, ?_⟩
  intro hrule
  have hbrings : Brings [] emptyFieldRead [ascii "GET / HTTP/1.1"]
      (ascii "Name:") (ascii "\r\n") :=
    brings_second rfl (by unfold NoTerminator; decide)
  have hdone : headOf [ascii "GET / HTTP/1.1"] = .fields (ascii "GET") (ascii "/") [] := rfl
  obtain ⟨r, l, r', l', v, values, htakes, -⟩ :=
    hrule.records (ascii "Name") [] rfl (by decide) (by decide)
  exact hbrings.not_takes_field hdone (by decide) rfl htakes

/-! ## Its values -/

/-- The line whose CRLF is found stands behind the lines taken before. -/
theorem Takes.state {i : Nat} {r r' : HttpRequest} {l l' : ParseLocals}
    (h : Takes r₀ d c i r l r' l') :
    ∃ done s, InHead r l done ∧ r.readBuf.length ≤ sizeMax
      ∧ i = (crlfJoin done ++ slice r.readBuf l.endOfLastLine i).length
      ∧ r.readBuf = crlfJoin done ++ (slice r.readBuf l.endOfLastLine i ++ 13 :: 10 :: s) := by
  obtain ⟨done, p, s, hstate⟩ := h.scans.state
  have hcrlf := h.crlf
  rw [CrlfAt, hstate.drop_eq] at hcrlf
  obtain ⟨s', hs⟩ := hcrlf
  have hslice : slice r.readBuf l.endOfLastLine i = p := by
    have hmiddle := slice_middle (crlfJoin done) p s
    rw [hstate.split, hstate.inHead.endOfLastLine, hstate.index, ← List.append_assoc]
    exact hmiddle
  refine ⟨done, s', hstate.inHead, hstate.size, ?_, ?_⟩
  · rw [hslice]
    exact hstate.index
  · rw [hslice, hstate.split, ← hs]
    rfl

/-- **The values of a header line** that is taken: the loop over them ends,
and joined with commas they are the text behind the colon. -/
theorem headerLine_values {i : Nat} {r r' : HttpRequest} {l l' : ParseLocals}
    (h : Takes r₀ d c i r l r' l') (hreq : l.foundRequestLine = true)
    (hline : slice r.readBuf l.endOfLastLine i = line) (hne : line ≠ []) (hzero : 0 ∉ line) :
    ∃ name text values, line = name ++ 58 :: text ∧ 58 ∉ name
      ∧ r'.headers.toList = addField name values r.headers.toList
      ∧ (values.intersperse (ascii ",")).flatten = text.dropWhile (· ∈ ascii " \t")
      ∧ r'.scratch = text.dropWhile (· ∈ ascii " \t")
      ∧ ∀ header, ∃ n header', n ≤ r'.scratch.length + 1
        ∧ Rounds (valueRound r'.scratch) n (valueSplit r'.scratch 0, header) header'
        ∧ header'.live = header.live ++ values ∧ header'.name = header.name := by
  obtain ⟨done, s, hin, hsize, hi, hbuf⟩ := h.state
  rw [hline] at hi hbuf
  have hlen : line.length ≤ sizeMax := by
    rw [hbuf, List.length_append, List.length_append] at hsize
    omega
  have hfound := hin.lineFound_field hreq hne hbuf
  rw [← hi, h.found] at hfound
  have hparse := parseHeaderLine_eq r hlen
  cases hcut : cutAt 58 line with
  | none =>
      have hfield : fieldLine line = none := by
        rw [fieldLine, hcut]
        rfl
      rw [hfield] at hparse
      simp only at hparse
      rw [hparse] at hfound
      cases hfound
  | some p =>
      obtain ⟨name, text⟩ := p
      obtain ⟨rfl, hname, -⟩ := cutAt_some hcut
      have htrim := stringTrimStartAnyOfCstr_eq (s := text)
        (fun hmem => hzero (by simp [hmem])) (ascii " \t")
      have hfield : fieldLine (name ++ 58 :: text)
          = some (name, cutAll 44 (text.dropWhile (· ∈ ascii " \t"))) := by
        rw [fieldLine, hcut, ← htrim]
        rfl
      rw [hfield] at hparse
      obtain ⟨scratch, headers, heq, hadd⟩ := hparse
      have hscratch := parseHeaderLine_scratch hlen hcut heq
      rw [heq] at hfound
      cases hfound
      rw [htrim] at hscratch
      refine ⟨name, text, _, rfl, hname, hadd, intersperse_cutAll 44 _, hscratch, ?_⟩
      intro header
      obtain ⟨n, header', hn, hrounds, hlive, hheader⟩ := exists_rounds_values scratch header
      refine ⟨n, header', hn, hrounds, ?_, hheader⟩
      rw [hlive, ← hscratch]

theorem headerLine_values_accept :
    ∃ r l r' l', Takes {} [] fieldRead 20 r l r' l' ∧ ∃ name text values,
      ascii "A: b" = name ++ 58 :: text ∧ 58 ∉ name
        ∧ r'.headers.toList = addField name values r.headers.toList
        ∧ (values.intersperse (ascii ",")).flatten = text.dropWhile (· ∈ ascii " \t")
        ∧ r'.scratch = text.dropWhile (· ∈ ascii " \t")
        ∧ ∀ header, ∃ n header', n ≤ r'.scratch.length + 1
          ∧ Rounds (valueRound r'.scratch) n (valueSplit r'.scratch 0, header) header'
          ∧ header'.live = header.live ++ values ∧ header'.name = header.name := by
  have hbrings : Brings [] fieldRead [ascii "GET / HTTP/1.1"] (ascii "A: b") (ascii "\r\n") :=
    brings_second rfl (by unfold NoTerminator; decide)
  have hdone : headOf [ascii "GET / HTTP/1.1"] = .fields (ascii "GET") (ascii "/") [] := rfl
  obtain ⟨r, l, r', l', htakes, -⟩ := hbrings.takes_field {} hdone (by decide) (by decide) rfl
  obtain ⟨hin, hbuf, -⟩ := hbrings.found htakes.scans
  refine ⟨r, l, r', l', htakes, ?_⟩
  apply headerLine_values htakes (hbrings.foundRequestLine hdone htakes.scans)
  · rw [hbuf, hin.endOfLastLine]
    rfl
  · decide
  · decide

end

end CWebServer.Http
