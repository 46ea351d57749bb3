import CWebServer.Http.Cuts

/-!
# Http — Recycling of Requests

Two runs of `http_request_parse` over the same stream, on two requests with
different pasts. `Agree` relates the two requests while they are parsed: all
is the same but `scratch`, which has no accessor, and the slots of the header
collection that are not in use.
-/

namespace CWebServer.Http

open CWebServer.Strings

/-- Two requests that differ in `scratch` and in unused slots only. -/
structure Agree (r r' : HttpRequest) : Prop where
  readBuf : r.readBuf = r'.readBuf
  same : SameRequest r r'

/-- Two runs end alike: both well, in related results, or both with related
errors. -/
def EndAlike {ε α : Type} (error : ε → ε → Prop) (ok : α → α → Prop) :
    Except ε α → Except ε α → Prop
  | .ok a, .ok a' => ok a a'
  | .error e, .error e' => error e e'
  | _, _ => False

theorem EndAlike.cases {ε α : Type} {error : ε → ε → Prop} {ok : α → α → Prop}
    {x x' : Except ε α} (h : EndAlike error ok x x') :
    (∃ e e', x = .error e ∧ x' = .error e' ∧ error e e')
      ∨ ∃ a a', x = .ok a ∧ x' = .ok a' ∧ ok a a' := by
  rcases x with e | a <;> rcases x' with e' | a'
  · exact .inl ⟨e, e', rfl, rfl, h⟩
  · exact absurd h id
  · exact absurd h id
  · exact .inr ⟨a, a', rfl, rfl, h⟩

/-- The request and the local variables after a part of the loop. -/
def AgreeLocals (p p' : HttpRequest × ParseLocals) : Prop :=
  Agree p.1 p'.1 ∧ p.2 = p'.2

section Lines

variable {r r' : HttpRequest}

/-! ## One line -/

/-- The request line. -/
theorem Agree.parseRequestLine (h : Agree r r') (e : Nat) :
    EndAlike Agree Agree (parseRequestLine r e) (parseRequestLine r' e) := by
  obtain ⟨hbuf, hmethod, huri, hfields, hbody⟩ := h
  simp only [CWebServer.Http.parseRequestLine, hbuf]
  cases (scanRequestLine e (r'.readBuf.take e) 0 {}).foundEndOfProtocolVersion with
  | true => exact ⟨rfl, rfl, rfl, hfields, hbody⟩
  | false => exact ⟨rfl, hmethod, huri, hfields, hbody⟩

/-- What the loop over the values appends does not depend on the header. -/
theorem appendValues_appends (scratch : Bytes) (fuel : Nat) (split : Nat × List (Nat × Nat)) :
    ∃ values, ∀ h : HttpHeader, (appendValues scratch fuel split h).live = h.live ++ values
      ∧ (appendValues scratch fuel split h).name = h.name := by
  induction fuel generalizing split with
  | zero =>
      obtain ⟨n, _ | ⟨⟨start, stop⟩, rest⟩⟩ := split
      · exact ⟨[], fun h => by simp [appendValues]⟩
      · exact ⟨[stringSetSubstr scratch start stop], fun h => by simp [appendValues]⟩
  | succ fuel ih =>
      obtain ⟨n, _ | ⟨⟨start, stop⟩, _ | ⟨⟨next, stop'⟩, rest⟩⟩⟩ := split
      · exact ⟨[], fun h => by simp [appendValues]⟩
      · exact ⟨[stringSetSubstr scratch start stop], fun h => by simp [appendValues]⟩
      · by_cases hn : n = 2
        · subst hn
          obtain ⟨values, hvalues⟩ := ih (stringSplit scratch next (ascii ",") 2 2)
          exact ⟨stringSetSubstr scratch start stop :: values,
            fun h => by simp [appendValues, hvalues]⟩
        · exact ⟨[stringSetSubstr scratch start stop], fun h => by simp [appendValues, hn]⟩

/-- A header line. -/
theorem Agree.parseHeaderLine (h : Agree r r') (line : Bytes) :
    EndAlike Agree Agree (parseHeaderLine r line) (parseHeaderLine r' line) := by
  obtain ⟨hbuf, hmethod, huri, hfields, hbody⟩ := h
  unfold CWebServer.Http.parseHeaderLine
  split
  · rename_i nameStart nameEnd valueStart stop rest hsplit
    let scratch := stringTrimStartAnyOfCstr (stringSetSubstrSelf line valueStart sizeMax)
      (ascii " \t")
    obtain ⟨values, hvalues⟩ := appendValues_appends scratch scratch.length
      (stringSplit scratch 0 (ascii ",") 2 2)
    have hadd := fun hs : HttpHeaders => toList_getCstrLen hs (slice line nameStart nameEnd)
      (appendValues scratch scratch.length (stringSplit scratch 0 (ascii ",") 2 2)) values
      (fun h => (hvalues h).2) fun h => (hvalues h).1
    obtain ⟨i, hs, hget, htoList⟩ := hadd r.headers
    obtain ⟨i', hs', hget', htoList'⟩ := hadd r'.headers
    simp only [hget, hget']
    exact ⟨hbuf, hmethod, huri, by rw [htoList, htoList', hfields], hbody⟩
  · exact ⟨hbuf, hmethod, huri, hfields, hbody⟩

/-- The empty line. -/
theorem Agree.endHeader (h : Agree r r') (l : ParseLocals) (i : Nat) :
    EndAlike Agree AgreeLocals (endHeader r l i) (endHeader r' l i) := by
  have hfields : r.headers.toList = r'.headers.toList := h.same.2.2.1
  simp only [CWebServer.Http.endHeader, contentLength_toList, hfields, h.readBuf]
  cases fieldsContentLength r'.headers.toList with
  | missing => exact ⟨h, rfl⟩
  | value n => exact ⟨h, rfl⟩
  | invalid => exact h

/-- **One line** leaves related requests related. -/
theorem Agree.lineFound (h : Agree r r') (l : ParseLocals) (i : Nat) :
    EndAlike Agree AgreeLocals (lineFound r l i) (lineFound r' l i) := by
  unfold CWebServer.Http.lineFound
  cases l.foundRequestLine with
  | false =>
      rcases (h.parseRequestLine i).cases with ⟨e, e', hr, hr', he⟩ | ⟨q, q', hr, hr', hq⟩
      · simp only [Bool.not_false, if_true, hr, hr']
        exact he
      · simp only [Bool.not_false, if_true, hr, hr']
        exact ⟨hq, rfl⟩
  | true =>
      cases l.foundEndOfHeader with
      | true => exact ⟨h, rfl⟩
      | false =>
          simp only [Bool.not_true, Bool.not_false, if_true, Bool.false_eq_true, if_false]
          by_cases hempty : i - l.endOfLastLine = 0
          · rw [if_pos hempty, if_pos hempty]
            exact h.endHeader l i
          · rw [if_neg hempty, if_neg hempty, ← h.readBuf]
            rcases (h.parseHeaderLine (slice r.readBuf l.endOfLastLine i)).cases with
              ⟨e, e', hr, hr', he⟩ | ⟨q, q', hr, hr', hq⟩
            · rw [hr, hr']
              exact he
            · rw [hr, hr']
              exact ⟨hq, rfl⟩

end Lines

/-! ## The loops -/

/-- **The loop over the lines.** -/
theorem Agree.scanLines {s : Bytes} {i : Nat} {r r' : HttpRequest} (h : Agree r r')
    (l : ParseLocals) :
    EndAlike Agree AgreeLocals (scanLines s i r l) (scanLines s i r' l) := by
  fun_induction CWebServer.Http.scanLines s i r l generalizing r' with
  | case1 => exact ⟨h, rfl⟩
  | case2 => exact ⟨h, rfl⟩
  | case3 a b s i r l hcrlf e hr =>
      rw [CWebServer.Http.scanLines, if_pos hcrlf]
      rcases (h.lineFound l i).cases with
        ⟨e₁, e', hr₁, hr', he⟩ | ⟨q, q', hr₁, hr', hq⟩
      · obtain rfl : e = e₁ := Except.error.inj (hr.symm.trans hr₁)
        rw [hr']
        exact he
      · exact absurd (hr.symm.trans hr₁) (by simp)
  | case4 a b s i r l hcrlf q l' hr hend =>
      rw [CWebServer.Http.scanLines, if_pos hcrlf]
      rcases (h.lineFound l i).cases with
        ⟨e₁, e', hr₁, hr', he⟩ | ⟨q₁, ⟨q', l₁⟩, hr₁, hr', hq, hl⟩
      · exact absurd (hr.symm.trans hr₁) (by simp)
      · obtain rfl : (q, l') = q₁ := Except.ok.inj (hr.symm.trans hr₁)
        obtain rfl : l' = l₁ := hl
        simp only [hr', hend, if_true]
        exact ⟨hq, rfl⟩
  | case5 a b s i r l hcrlf q l' hr hend ih =>
      rw [CWebServer.Http.scanLines, if_pos hcrlf]
      rcases (h.lineFound l i).cases with
        ⟨e₁, e', hr₁, hr', he⟩ | ⟨q₁, ⟨q', l₁⟩, hr₁, hr', hq, hl⟩
      · exact absurd (hr.symm.trans hr₁) (by simp)
      · obtain rfl : (q, l') = q₁ := Except.ok.inj (hr.symm.trans hr₁)
        obtain rfl : l' = l₁ := hl
        simp only [hr', if_neg hend]
        exact ih hq
  | case6 a b s i r l hcrlf ih =>
      rw [CWebServer.Http.scanLines, if_neg hcrlf]
      exact ih h

theorem Agree.readBytes {r r' : HttpRequest} (h : Agree r r') (l : ParseLocals) (c : Chunk) :
    EndAlike Agree AgreeLocals (readBytes r l c) (readBytes r' l c) := by
  have happend : Agree { r with readBuf := r'.readBuf ++ c.val }
      { r' with readBuf := r'.readBuf ++ c.val } := ⟨rfl, h.same⟩
  simp only [CWebServer.Http.readBytes, h.readBuf]
  cases !l.foundRequestLine || !l.foundEndOfHeader with
  | true => exact happend.scanLines l
  | false => exact ⟨happend, rfl⟩

/-- **The loop over the reads.** -/
theorem Agree.readLoop {stream : Stream} {r r' : HttpRequest} (h : Agree r r') (l : ParseLocals) :
    EndAlike (fun p p' => Agree p.1 p'.1 ∧ p.2 = p'.2) (fun p p' => Agree p.1 p'.1 ∧ p.2 = p'.2)
      (readLoop stream r l) (readLoop stream r' l) := by
  induction stream generalizing r r' l with
  | nil => exact ⟨h, rfl⟩
  | cons x stream ih =>
      unfold CWebServer.Http.readLoop
      rw [← h.readBuf]
      by_cases hmore : r.readBuf.length < l.maxReadLength
      · rw [if_pos hmore, if_pos hmore]
        cases x with
        | error text => exact ⟨⟨rfl, h.same⟩, rfl⟩
        | endOfStream => exact ⟨h, rfl⟩
        | bytes c =>
            rcases (h.readBytes l c).cases with
              ⟨e, e', hr, hr', he⟩ | ⟨⟨q, l₁⟩, ⟨q', l₂⟩, hr, hr', hq, hl⟩
            · simp only [hr, hr']
              exact ⟨he, rfl⟩
            · obtain rfl : l₁ = l₂ := hl
              simp only [hr, hr']
              exact ih hq l₁
      · rw [if_neg hmore, if_neg hmore]
        exact ⟨h, rfl⟩

/-! ## The call -/

/-- What can be seen of a call: the code, the method, the URI, the header
collection and the body of the request it leaves, and the reads it leaves. -/
def ParseOutcome.observe :
    ParseOutcome → Option (Nat × Bytes × Bytes × Fields × Bytes × Stream)
  | .returned code r stream => some (code, r.method, r.uri, r.headers.toList, r.body, stream)
  | .undefined => none

theorem observe_returned {r r' : HttpRequest} (h : SameRequest r r') {code : Nat}
    {stream : Stream} :
    (ParseOutcome.returned code r stream).observe
      = (ParseOutcome.returned code r' stream).observe := by
  obtain ⟨hmethod, huri, hfields, hbody⟩ := h
  rw [ParseOutcome.observe, ParseOutcome.observe, hmethod, huri, hfields, hbody]

/-- All that is cleared is cleared alike. -/
theorem agree_clear (r r' : HttpRequest) : Agree r.clear r'.clear :=
  ⟨rfl, rfl, rfl, rfl, rfl⟩

/-- **Request recycling is non-interfering**: whatever the request was used
for before, a call on it ends as on a new one. -/
theorem httpRequestParse_recycled (r : HttpRequest) (stream : Stream) :
    (httpRequestParse r stream).observe = (httpRequestParse {} stream).observe := by
  unfold httpRequestParse
  rcases (@Agree.readLoop stream _ _ (agree_clear r {}) {}).cases with
    ⟨⟨e, s⟩, ⟨e', s'⟩, hr, hr', he, hs⟩
      | ⟨⟨q, l, s⟩, ⟨q', l', s'⟩, hr, hr', hq, hs⟩
  · obtain rfl : s = s' := hs
    simp only [hr, hr']
    exact observe_returned he.same
  · obtain ⟨rfl, rfl⟩ : l = l' ∧ s = s' := Prod.mk.inj hs
    have hbuf : q.readBuf = q'.readBuf := hq.readBuf
    have hsame : SameRequest q q' := hq.same
    obtain ⟨hmethod, huri, hfields, hbody⟩ : SameRequest q q' := hq.same
    have hbody' : q.body ++ q.readBuf.drop l.startOfBody
        = q'.body ++ q'.readBuf.drop l.startOfBody := by
      rw [hbody, hbuf]
    have htext : requestToString { q with body := q.body ++ q.readBuf.drop l.startOfBody }
        = requestToString { q' with body := q'.body ++ q'.readBuf.drop l.startOfBody } :=
      requestToString_congr ⟨hmethod, huri, hfields, hbody'⟩
    simp only [hr, hr', htext]
    cases l.foundEndOfHeader with
    | false => exact observe_returned hsame
    | true =>
        simp only [Bool.not_true, Bool.false_eq_true, if_false, hbody']
        cases requestToString { q' with body := q'.body ++ q'.readBuf.drop l.startOfBody } with
        | none => rfl
        | some text =>
            dsimp only
            split
            · simp only [ParseOutcome.observe, hmethod, huri, hfields]
            · simp only [ParseOutcome.observe, hmethod, huri, hfields]

end CWebServer.Http
