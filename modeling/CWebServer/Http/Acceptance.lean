import CWebServer.Http.Runs
import CWebServer.Http.Serialize
import CWebServer.Strings.Decimal

/-!
# Http — Acceptance

Which streams `http_request_parse` accepts, and what the accepted requests
have for a `Content-Length`: `sscanf` takes more than digits for a number.
-/

namespace CWebServer.Http

open CWebServer.Strings CWebServer.Lib

/-- These reads bring a whole request, none of them stops the loop early, and
its values can be printed. -/
structure Delivers (d : List Chunk) (method uri : Bytes) (fs : Fields) (n : Option Nat) :
    Prop where
  complete : Complete (bytesOf d) method uri fs n
  cuts : CutsAllowed (bytesOf d) d
  plain : PlainFormats fs

/-- **What is accepted**: the reads made bring one request, whole and as it
is. -/
theorem accepted_delivers {r r' : HttpRequest} {stream rest : Stream}
    (h : httpRequestParse r stream = .returned 0 r' rest) :
    ∃ d n, stream = deliver d ++ rest ∧ Delivers d r'.method r'.uri r'.headers.toList n
      ∧ r'.body = (bytesOf d).drop (headLength (bytesOf d)) := by
  obtain ⟨used, n, hs, hcomplete, hbody, htext⟩ := complete_of_accepted h
  obtain ⟨r₁, l, hloop, -, ⟨text, -, hr'⟩, -⟩ := httpRequestParse_zero h
  obtain ⟨d, hto, ⟨hd, -⟩ | ⟨hd, hon⟩⟩ := readLoop_ok_iff.mp hloop
  · obtain rfl := List.append_cancel_right (hs.symm.trans hd)
    rw [received_deliver] at hcomplete hbody
    have hparse := hcomplete.parse hbody ⟨rfl, rfl, rfl, rfl⟩ htext (r := r) rfl rest
    refine ⟨d, n, hs, ⟨hcomplete, ?_, (requestToString_isSome r').mp htext⟩, hbody⟩
    exact hparse.2 r' rest (hs ▸ h)
  · have hsame : used ++ rest = deliver d ++ [.endOfStream] ++ rest := by
      rw [← hs, hd, List.append_assoc]
      rfl
    have hused := List.append_cancel_right hsame
    have hbuf : r₁.readBuf = received used := by
      rw [hused, received_append, received_deliver, hto.reading.2]
      exact (List.append_nil _).symm
    rw [← hto.reading.2] at hon
    exact absurd (hto.reading.1.readsOn_iff.mpr hon) (hcomplete.stop hto.reading.1 hbuf)

/-- Every list of fields is that of some collection. -/
theorem exists_toList (fs : Fields) : ∃ hs : HttpHeaders, hs.toList = fs := by
  let slot : Bytes × List Bytes → HttpHeader :=
    fun f => ⟨f.1, f.2, f.2.length, Nat.le_refl _⟩
  have hlength : fs.length ≤ (fs.map slot).length := by rw [List.length_map]
  refine ⟨⟨fs.map slot, fs.length, hlength⟩, ?_⟩
  have hslot : (fun h : HttpHeader => (h.name, h.live)) ∘ slot = id := by
    funext f
    simp [slot, HttpHeader.live]
  have htake : (fs.map slot).take fs.length = fs.map slot := List.take_of_length_le (by simp)
  rw [HttpHeaders.toList, HttpHeaders.live, htake, List.map_map, hslot, List.map_id]

/-- Such reads are accepted, whatever comes behind them. -/
theorem Delivers.accepted {d : List Chunk} {method uri : Bytes} {fs : Fields} {n : Option Nat}
    (h : Delivers d method uri fs n) (r : HttpRequest) (rest : Stream) :
    ∃ r', httpRequestParse r (deliver d ++ rest) = .returned 0 r' rest ∧ r'.method = method
      ∧ r'.uri = uri ∧ r'.headers.toList = fs
      ∧ r'.body = (bytesOf d).drop (headLength (bytesOf d)) := by
  obtain ⟨hs, hfs⟩ := exists_toList fs
  let request : HttpRequest :=
    { method := method, uri := uri, headers := hs
      body := (bytesOf d).drop (headLength (bytesOf d)) }
  have htext : (requestToString request).isSome = true := by
    rw [requestToString_isSome]
    show PlainFormats hs.toList
    rw [hfs]
    exact h.plain
  have hrequest : request.method = method ∧ request.uri = uri ∧ request.headers.toList = fs
      ∧ request.body = (bytesOf d).drop (headLength (bytesOf d)) := ⟨rfl, rfl, hfs, rfl⟩
  obtain ⟨r', hparse, hsame⟩ := (h.complete.parse rfl (r := r) hrequest htext rfl rest).1 h.cuts
  exact ⟨r', hparse, hsame.1.symm, hsame.2.1.symm, hsame.2.2.1.symm.trans hfs, hsame.2.2.2.symm⟩

/-- The loop ends behind reads that bring a whole head, and the values of its
fields cannot be used as formats. -/
def BringsFormats (stream : Stream) : Prop :=
  ∃ d rest method uri fs n, EndsBehind d stream rest
    ∧ (∀ pre post, d = pre ++ post → post ≠ [] → ReadsOn (bytesOf pre))
    ∧ headOf (crlfLines (bytesOf d)) = .ended method uri fs n ∧ ¬PlainFormats fs

/-- The log line is what makes a call undefined. -/
theorem httpRequestParse_undefined {r : HttpRequest} {stream : Stream} :
    httpRequestParse r stream = .undefined
      ↔ ∃ r₁ l rest, readLoop stream r.clear {} = .ok (r₁, l, rest)
        ∧ l.foundEndOfHeader = true
        ∧ ¬PlainFormats r₁.headers.toList := by
  constructor
  · intro h
    have hends := httpRequestParse_ends r stream
    rw [h] at hends
    cases hends with
    | @unprintable r₁ l rest hloop hend htext =>
        refine ⟨r₁, l, rest, hloop, hend, ?_⟩
        intro hplain
        have hsome := (requestToString_isSome
          { r₁ with body := r₁.body ++ r₁.readBuf.drop l.startOfBody }).mpr hplain
        rw [htext] at hsome
        cases hsome
  · rintro ⟨r₁, l, rest, hloop, hend, hplain⟩
    have htext : requestToString { r₁ with body := r₁.body ++ r₁.readBuf.drop l.startOfBody }
        = none := by
      rw [← Option.not_isSome_iff_eq_none, requestToString_isSome]
      exact hplain
    simp only [httpRequestParse, hloop, hend, Bool.not_true, Bool.false_eq_true, if_false, htext]

/-- **Which streams make a call undefined**, whatever it finds in the request.
-/
theorem httpRequestParse_undefined_iff {r : HttpRequest} {stream : Stream} :
    httpRequestParse r stream = .undefined ↔ BringsFormats stream := by
  rw [httpRequestParse_undefined]
  constructor
  · rintro ⟨r₁, l, rest, hloop, hend, hplain⟩
    obtain ⟨d, hto, hends⟩ := readLoop_ok_iff.mp hloop
    obtain ⟨hreading, hbuf⟩ := hto.reading
    rcases hreading.stage with hin | ⟨n, hended⟩
    · rw [hin.foundEndOfHeader] at hend
      cases hend
    · refine ⟨d, rest, r₁.method, r₁.uri, _, n, hends, fun pre post => hto.readsOn,
        ?_, hplain⟩
      rw [← hbuf]
      exact hended.head
  · rintro ⟨d, rest, method, uri, fs, n, hends, hon, hhead, hplain⟩
    obtain ⟨r₁, l, hto⟩ := exists_readsTo r hon (by simp [hhead])
    obtain ⟨hreading, hbuf⟩ := hto.reading
    rw [← hbuf] at hhead
    obtain ⟨hend, hfields⟩ : l.foundEndOfHeader = true ∧ r₁.headers.toList = fs := by
      rcases hreading.stage with hin | ⟨k, hended⟩
      · rw [hin.head] at hhead
        split at hhead <;> cases hhead
      · rw [hended.head] at hhead
        cases hhead
        exact ⟨hended.foundEndOfHeader, rfl⟩
    exact ⟨r₁, l, rest, readLoop_ok_iff.mpr ⟨d, hto, hends⟩, hend, hfields ▸ hplain⟩

/-! ## The declared length -/

/-- An accepted request that has a `Content-Length` has the length of its body
there, in digits between blanks. -/
def StrictLength (r : HttpRequest) (stream : Stream) : Prop :=
  ∀ r' rest values, httpRequestParse r stream = .returned 0 r' rest →
    lookup (ascii "Content-Length") r'.headers.toList = some values →
    ∃ v, values = [v] ∧ DigitsText v r'.body.length

/-- The stream begins with a request that is accepted, and the text of its
`Content-Length` has another byte in the white space in front of the digits
or behind them. -/
def BringsLenient (stream : Stream) : Prop :=
  ∃ d rest method uri fs n v, stream = deliver d ++ rest ∧ Delivers d method uri fs n
    ∧ lookup (ascii "Content-Length") fs = some [v] ∧ Lenient v

/-- A head has at least two bytes and two line breaks. -/
theorem Complete.headLength_gt {m method uri : Bytes} {fs : Fields} {n : Option Nat}
    (h : Complete m method uri fs n) : 4 < headLength m := by
  obtain ⟨line, lines, hdata, hle, -, -, hne, -⟩ := data_of_ended h.head
  have hlength := congrArg List.length hdata
  have hline : 0 < line.length := by
    apply List.length_pos_of_ne_nil
    intro he
    exact hne (by simp [he])
  simp only [crlfJoin_append, crlfJoin_cons, crlfJoin_nil, List.length_append, List.length_cons,
    List.length_nil, List.length_drop, List.cons_append] at hlength
  omega

/-- What an accepted request declares is not the largest number, so it was
not cut down to it. -/
theorem Complete.lt_sizeMax {m method uri : Bytes} {fs : Fields} {n : Nat}
    (h : Complete m method uri fs (some n)) : n < sizeMax := by
  have hbound := h.bound n rfl
  have hlength := h.length
  have hhead := h.headLength_gt
  rw [Option.getD_some] at hlength
  simp only [sizeMax]
  omega

/-- **The declared length is strict** exactly if no such text is accepted. -/
theorem strictLength_iff (r : HttpRequest) (stream : Stream) :
    StrictLength r stream ↔ ¬BringsLenient stream := by
  constructor
  · rintro hstrict ⟨d, rest, method, uri, fs, n, v, rfl, hdelivers, hlookup, hlenient⟩
    obtain ⟨r', hparse, -, -, hfs, -⟩ := hdelivers.accepted r rest
    obtain ⟨v', hvalues, hdigits⟩ := hstrict r' rest [v] hparse (by rw [hfs]; exact hlookup)
    obtain rfl : v = v' := (List.cons.inj hvalues).1
    exact hdigits.not_lenient hlenient
  · intro hno r' rest values hparse hlookup
    obtain ⟨d, n, hs, hdelivers, hbody⟩ := accepted_delivers hparse
    have hcomplete := hdelivers.complete
    obtain ⟨line, lines, -, hle, -, -, -, -, hdeclares⟩ := data_of_ended hcomplete.head
    have hlength := hcomplete.length
    have hsize : r'.body.length = n.getD 0 := by
      rw [hbody, List.length_drop]
      omega
    have hscanf := hdeclares.lookup
    simp only [hlookup] at hscanf
    obtain ⟨v, rfl, hv⟩ := hscanf
    refine ⟨v, rfl, ?_⟩
    rw [hsize]
    apply digitsText_of_sscanfZu hv
    · exact fun hlenient => hno ⟨d, rest, _, _, _, n, v, hs, hdelivers, hlookup, hlenient⟩
    · cases n with
      | none => exact Nat.zero_lt_succ _
      | some n => exact hcomplete.lt_sizeMax

/-- A request with a body of five bytes. -/
def lenientRead : Chunk :=
  ⟨ascii "PUT / HTTP/1.1\r\nContent-Length: 5abc\r\n\r\nhello", by decide⟩

/-- `5abc` is accepted for a body of five bytes. -/
theorem not_strictLength :
    (∃ r', httpRequestParse {} [.bytes lenientRead] = .returned 0 r' []
      ∧ lookup (ascii "Content-Length") r'.headers.toList = some [ascii "5abc"])
      ∧ ¬StrictLength {} [.bytes lenientRead] := by
  have hparse : httpRequestParse {} [.bytes lenientRead] = .returned 0 _ [] := rfl
  have hlookup : ∀ r', httpRequestParse {} [.bytes lenientRead] = .returned 0 r' [] →
      lookup (ascii "Content-Length") r'.headers.toList = some [ascii "5abc"] := by
    intro r' h
    rw [hparse] at h
    cases h
    decide
  refine ⟨⟨_, hparse, hlookup _ hparse⟩, ?_⟩
  intro hstrict
  obtain ⟨v, hvalues, hdigits⟩ := hstrict _ [] _ hparse (hlookup _ hparse)
  obtain rfl : ascii "5abc" = v := (List.cons.inj hvalues).1
  exact hdigits.not_lenient ⟨97, by decide, by decide, by decide⟩

end CWebServer.Http
