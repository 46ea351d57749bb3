import CWebServer.Http.ResponseRecycling

/-!
# Http — Non-interference

A handler's script on a new response and on a cleared one, each written to the
same destination. What a destination sees determines the writes, so the bytes
are the same for all of them exactly if the same is printed.
-/

namespace CWebServer.Http

open CWebServer.Strings CWebServer.Lib

/-! ## The rest of the response -/

/-- The response without its headers. -/
def HttpResponse.front (r : HttpResponse) : Int × Bytes × Bytes × Nat :=
  (r.statusCode, r.reasonPhrase, r.bodyBuffer, r.bodyPosition)

/-- What a script writes to the body. -/
def ScriptCall.body : ScriptCall → Bytes
  | .writeBody src => src
  | _ => []

def Script.body (script : Script) : Bytes := script.flatMap ScriptCall.body

section

variable {r r' : HttpResponse}

theorem front_call (h : r.front = r'.front) (c : ScriptCall) :
    (r.call c).front = (r'.call c).front := by
  simp only [HttpResponse.front, Prod.mk.injEq] at h
  cases c with
  | setStatusCode statusCode => simp [HttpResponse.front, HttpResponse.call,
      HttpResponse.setStatusCode, h]
  | getCstr name => simp [HttpResponse.front, HttpResponse.call, h]
  | writeBody src => simp [HttpResponse.front, HttpResponse.call, HttpResponse.writeBody, h]
  | appendValue slot edits =>
      have hfront : ∀ r : HttpResponse, (r.call (.appendValue slot edits)).front = r.front := by
        intro r
        unfold HttpResponse.call
        dsimp only
        split <;> rfl
      rw [hfront, hfront]
      simp [HttpResponse.front, h]

/-- A script does the same to the rest of two responses. -/
theorem front_run (h : r.front = r'.front) (script : Script) :
    (runScript script r).front = (runScript script r').front := by
  induction script generalizing r r' with
  | nil => exact h
  | cons c script ih => exact ih (front_call h c)

/-- One call with the position at the end of the body. -/
theorem body_call (h : r.bodyPosition = r.bodyBuffer.length) (c : ScriptCall) :
    (r.call c).bodyBuffer = r.bodyBuffer ++ c.body
      ∧ (r.call c).bodyPosition = (r.call c).bodyBuffer.length := by
  cases c with
  | setStatusCode statusCode => exact ⟨(List.append_nil _).symm, h⟩
  | getCstr name => exact ⟨(List.append_nil _).symm, h⟩
  | writeBody src => simp [HttpResponse.call, HttpResponse.writeBody, ScriptCall.body, h]
  | appendValue slot edits =>
      unfold HttpResponse.call ScriptCall.body
      dsimp only
      split <;> exact ⟨(List.append_nil _).symm, h⟩

/-- The body of a run is what the script writes. -/
theorem body_run (h : r.bodyPosition = r.bodyBuffer.length) (script : Script) :
    (runScript script r).bodyBuffer = r.bodyBuffer ++ script.body := by
  induction script generalizing r with
  | nil => exact (List.append_nil _).symm
  | cons c script ih =>
      obtain ⟨hbody, hposition⟩ := body_call h c
      rw [runScript_cons, ih hposition, hbody, List.append_assoc]
      rfl

end

/-! ## What a destination sees -/

theorem writeAll_congr {d d' : Destination} {i : Nat}
    (h : ∀ j, i ≤ j → d.accepts j = d'.accepts j) (bs : List Bytes) :
    writeAll d i bs = writeAll d' i bs := by
  induction bs generalizing i with
  | nil => rfl
  | cons b bs ih =>
      rw [writeAll, writeAll, h i (Nat.le_refl i), ih fun j hj => h j (by omega)]

/-- A destination that takes one write and fails for all others. -/
def takesOnly (i : Nat) : Destination where
  accepts j b := if j = i then some b.length else none
  accepts_le := by
    intro j b n h
    split at h
    · cases h
      exact ⟨Nat.le_refl _, List.length_pos_iff.mpr⟩
    · exact absurd h (by simp)

/-- A destination that takes one byte of one write and then does as another. -/
def takesByteThen (i : Nat) (d : Destination) : Destination where
  accepts j b := if j = i then some (min 1 b.length) else d.accepts j b
  accepts_le := by
    intro j b n h
    split at h
    · cases h
      refine ⟨Nat.min_le_right _ _, ?_⟩
      intro hb
      have := List.length_pos_iff.mpr hb
      omega
    · exact d.accepts_le j b n h

theorem writeAll_takesOnly (i : Nat) (b : Bytes) (bs : List Bytes) :
    (writeAll (takesOnly i) i (b :: bs)).2 = b := by
  have hrest : (writeAll (takesOnly i) (i + 1) bs).2 = [] := by
    cases bs with
    | nil => rfl
    | cons c bs => simp [writeAll, takesOnly, streamWriteResult]
  have haccepts : (takesOnly i).accepts i b = some b.length := if_pos rfl
  rw [writeAll, haccepts]
  split
  · simp
  · simp [hrest]

theorem writeAll_takesByteThen (i : Nat) (d : Destination) (b : Bytes) (bs : List Bytes) :
    writeAll (takesByteThen i d) i (b :: bs)
      = ((writeAll d (i + 1) bs).1, b.take 1 ++ (writeAll d (i + 1) bs).2) := by
  have haccepts : (takesByteThen i d).accepts i b = some (min 1 b.length) := if_pos rfl
  have hresult : ¬streamWriteResult (some (min 1 b.length)) < 0 := by
    rcases Nat.le_one_iff_eq_zero_or_eq_one.mp (Nat.min_le_left 1 b.length) with h | h <;>
      rw [h] <;> decide
  have hrest : writeAll (takesByteThen i d) (i + 1) bs = writeAll d (i + 1) bs :=
    writeAll_congr (fun j hj => by funext b; exact if_neg (by omega)) bs
  rw [writeAll, haccepts, if_neg hresult, hrest]
  simp [List.take_eq_take_min]

/-- What all destinations see determines the writes. -/
theorem writeAll_injective {i : Nat} {bs cs : List Bytes}
    (h : ∀ d, writeAll d i bs = writeAll d i cs) : bs = cs := by
  induction bs generalizing i cs with
  | nil =>
      cases cs with
      | nil => rfl
      | cons c cs =>
          -- the second list fails where the first has no write
          have hfail := congrArg Prod.fst (h (takesOnly (i + 1)))
          simp [writeAll, takesOnly, streamWriteResult] at hfail
  | cons b bs ih =>
      cases cs with
      | nil =>
          have hfail := congrArg Prod.fst (h (takesOnly (i + 1)))
          simp [writeAll, takesOnly, streamWriteResult] at hfail
      | cons c cs =>
          have hfirst := congrArg Prod.snd (h (takesOnly i))
          rw [writeAll_takesOnly, writeAll_takesOnly] at hfirst
          subst hfirst
          congr 1
          apply ih (i := i + 1)
          intro d
          have hrest := h (takesByteThen i d)
          rw [writeAll_takesByteThen, writeAll_takesByteThen] at hrest
          obtain ⟨hcode, haccepted⟩ := Prod.mk.inj hrest
          exact Prod.ext hcode (List.append_cancel_left haccepted)

/-! ## Writing two responses -/

/-- Both calls are defined for every destination, return the same and have the
same bytes accepted. -/
def WritesSame (r r' : HttpResponse) : Prop :=
  ∀ d, ∃ code accepted s s', httpResponseWrite r d = .returned code s accepted
    ∧ httpResponseWrite r' d = .returned code s' accepted

section

variable {r r' : HttpResponse}

theorem writesSame_iff :
    WritesSame r r' ↔ (responseToString r.fixed).isSome = true
      ∧ (responseToString r'.fixed).isSome = true ∧ r.fixed.writes = r'.fixed.writes := by
  constructor
  · intro h
    have hcalls : ∀ d, (responseToString r.fixed).isSome = true
        ∧ (responseToString r'.fixed).isSome = true
        ∧ writeAll d 0 r.fixed.writes = writeAll d 0 r'.fixed.writes := by
      intro d
      obtain ⟨code, accepted, s, s', hs, hs'⟩ := h d
      obtain ⟨hsome, hwrites⟩ := httpResponseWrite_returned.mp ⟨s, hs⟩
      obtain ⟨hsome', hwrites'⟩ := httpResponseWrite_returned.mp ⟨s', hs'⟩
      exact ⟨hsome, hsome', hwrites.trans hwrites'.symm⟩
    exact ⟨(hcalls (takesOnly 0)).1, (hcalls (takesOnly 0)).2.1,
      writeAll_injective fun d => (hcalls d).2.2⟩
  · rintro ⟨hsome, hsome', hwrites⟩ d
    have hwritten : writeAll d 0 r.fixed.writes
        = ((writeAll d 0 r.fixed.writes).1, (writeAll d 0 r.fixed.writes).2) := rfl
    obtain ⟨s, hs⟩ := httpResponseWrite_returned.mpr ⟨hsome, hwritten⟩
    rw [hwrites] at hs hwritten
    obtain ⟨s', hs'⟩ := httpResponseWrite_returned.mpr ⟨hsome', hwritten⟩
    exact ⟨_, _, s, s', hs, hs'⟩

/-- The writes for one field. -/
def fieldWrites (f : Bytes × List Bytes) : List Bytes :=
  (cstr f.1 ++ ascii ": ") :: (f.2.map cstr).intersperse (ascii ",") ++ [ascii "\r\n"]

theorem writes_eq (r : HttpResponse) :
    r.fixed.writes = statusLine r
      :: (shown (fixFields r.bodyBuffer.length r.headers.toList)).flatMap fieldWrites
        ++ [ascii "\r\n", r.bodyBuffer] := by
  have hfields : (shown (fixFields r.bodyBuffer.length r.headers.toList)).flatMap fieldWrites
      = r.fixHeaders.live.flatMap headerWrites := by
    rw [← toList_fixHeaders, shown, HttpHeaders.toList, List.map_map, List.flatMap_map]
    congr 1
    funext h
    simp [fieldWrites, headerWrites, cstr_cstr, Function.comp_def]
  rw [hfields]
  rfl

/-- What `printf` makes of a response. -/
theorem formattable_fixed (r : HttpResponse) :
    r.fixed.Formattable ↔ ∀ b ∈ statusLine r
      :: ((shown (fixFields r.bodyBuffer.length r.headers.toList)).flatMap fieldWrites
        ++ [ascii "\r\n"]), b.length < 2 ^ 31 := by
  have hlast : ∀ bs : List Bytes, (bs ++ [ascii "\r\n", r.bodyBuffer]).dropLast
      = bs ++ [ascii "\r\n"] := by
    intro bs
    rw [List.append_cons, List.dropLast_concat]
  rw [HttpResponse.Formattable, writes_eq, hlast, List.cons_append]

theorem statusLine_front (h : r.front = r'.front) : statusLine r = statusLine r' := by
  simp only [HttpResponse.front, Prod.mk.injEq] at h
  simp only [statusLine, h.1, h.2.1]

theorem bodyBuffer_front (h : r.front = r'.front) : r.bodyBuffer = r'.bodyBuffer := by
  simp only [HttpResponse.front, Prod.mk.injEq] at h
  exact h.2.2.1

end

/-! ## Scripts on cleared responses -/

/-- On every response that was cleared, the script writes what it writes on a
new one. -/
def NonInterfering (script : Script) : Prop :=
  ∀ r, ReachableResponse r → WritesSame (runScript script .init) (runScript script r.clear)

section

variable {script : Script}

theorem front_clear (r : HttpResponse) : r.clear.front = HttpResponse.init.front := rfl

theorem recycles_init (n : Nat) : HttpHeaders.init.Recycles [] n := by
  constructor
  · intro h hh
    exact absurd hh List.not_mem_nil
  · intro i hi j hj
    simp [HttpHeaders.init]

theorem toList_runScript_init (script : Script) :
    (runScript script .init).headers.toList = script.plan.realize [] :=
  realizedBy_eq (run_realize script rfl (recycles_init _))

theorem body_runScript_init (script : Script) :
    (runScript script .init).bodyBuffer = script.body :=
  body_run rfl script

/-- The script writes the same on both if the same is printed. -/
theorem writesSame_of_shown (r : HttpResponse)
    (hplain : PlainFormats (fixFields script.body.length (script.plan.realize [])))
    (hshown : shown (fixFields script.body.length (script.plan.realize []))
      = shown (fixFields script.body.length (runScript script r.clear).headers.toList)) :
    WritesSame (runScript script .init) (runScript script r.clear) := by
  have hfront := front_run (front_clear r) script
  have hbody := body_runScript_init script
  rw [writesSame_iff, responseToString_isSome, responseToString_isSome, writes_eq, writes_eq,
    statusLine_front hfront, bodyBuffer_front hfront, hbody, toList_runScript_init]
  refine ⟨hplain, ?_, by rw [hshown]⟩
  rwa [← plainFormats_shown, ← hshown, plainFormats_shown]

/-- What is printed on both if the script writes the same. -/
theorem headerBlock_of_writesSame {r : HttpResponse}
    (h : WritesSame (runScript script .init) (runScript script r.clear)) :
    headerBlock (fixFields script.body.length (script.plan.realize []))
      = headerBlock (fixFields script.body.length (runScript script r.clear).headers.toList) := by
  have hfront := front_run (front_clear r) script
  have hbody := body_runScript_init script
  have hbytes := congrArg List.flatten (writesSame_iff.mp h).2.2
  rw [flatten_writes, flatten_writes, serialization, serialization, statusLine_front hfront,
    bodyBuffer_front hfront, hbody, toList_runScript_init] at hbytes
  exact List.append_cancel_left (List.append_cancel_right (List.append_cancel_right hbytes))

/-- **Recycled responses do not interfere** with exactly the scripts whose
values can be used as formats and are overwritten where they are printed; a
`Content-Length` may instead be one that is replaced.
-/
theorem nonInterfering_iff (script : Script) :
    NonInterfering script ↔ PlainFormats (fixFields script.body.length (script.plan.realize []))
      ∧ script.plan.PrintsOverwritten
      ∧ ∀ edits, script.plan.contentLength = some edits →
          KeepsContentLength script.body.length edits := by
  constructor
  · intro h
    have hstale : ∀ s, headerBlock (fixFields script.body.length (script.plan.realize s))
        = headerBlock (fixFields script.body.length (script.plan.realize [])) := by
      intro s
      obtain ⟨r, hr, hrecycles⟩ := exists_recycles script.length s
      have hblock := headerBlock_of_writesSame (h r hr)
      rw [realizedBy_eq (run_realize script rfl hrecycles)] at hblock
      exact hblock.symm
    have hover := printsOverwritten_of_headerBlock ((hstale [97]).trans (hstale [98]).symm)
    have hplain := (writesSame_iff.mp (h _ .init)).1
    rw [responseToString_isSome, body_runScript_init, toList_runScript_init] at hplain
    exact ⟨hplain, hover, fun edits hedits => keeps_of_headerBlock hover hstale hedits⟩
  · rintro ⟨hplain, hover, hkeeps⟩ r -
    refine writesSame_of_shown r hplain ?_
    have hinit := run_realize script rfl (r := .init) (recycles_init _)
    rw [toList_runScript_init] at hinit
    exact shown_fixFields hinit (realizedBy_run script r) hover hkeeps

/-- A destination that takes everything. -/
def takesAll : Destination where
  accepts _ b := some b.length
  accepts_le := by
    intro i b n h
    cases h
    exact ⟨Nat.le_refl _, List.length_pos_iff.mpr⟩

/-- An appended value on a response that was used and cleared still has the
earlier text. -/
theorem not_nonInterfering_append :
    ¬NonInterfering [.getCstr (ascii "a"), .appendValue 0 [.append (ascii "x")]] := by
  intro h
  have hused := ReachableResponse.init.run
    [.getCstr (ascii "a"), .appendValue 0 [.set (ascii "secret")]]
  obtain ⟨code, accepted, s, s', hs, hs'⟩ := h _ hused takesAll
  have hnew : httpResponseWrite (runScript [.getCstr (ascii "a"),
      .appendValue 0 [.append (ascii "x")]] .init) takesAll = .returned 0 _
        (ascii "HTTP/1.1 200 OK\r\na: x\r\nContent-Length: 0\r\n\r\n") := rfl
  have hcleared : httpResponseWrite (runScript [.getCstr (ascii "a"),
      .appendValue 0 [.append (ascii "x")]] (runScript [.getCstr (ascii "a"),
      .appendValue 0 [.set (ascii "secret")]] .init).clear) takesAll = .returned 0 _
        (ascii "HTTP/1.1 200 OK\r\na: secretx\r\nContent-Length: 0\r\n\r\n") := rfl
  rw [hnew] at hs
  rw [hcleared] at hs'
  have haccepted :=
    (WriteOutcome.returned.inj hs).2.2.trans (WriteOutcome.returned.inj hs').2.2.symm
  exact absurd haccepted (by decide)

end

end CWebServer.Http
