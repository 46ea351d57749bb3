import CWebServer.Http.Fields
import CWebServer.Http.RequestLine
import CWebServer.Lib.Lines
import Mathlib.Data.List.TakeWhile

/-!
# Http — Head

The head of a request as a machine over its lines, and how the scan for CRLF
follows it. `InHead` and `Ended` tie the variables of `http_request_parse` to
the lines that the buffer holds.
-/

namespace CWebServer.Http

open CWebServer.Strings CWebServer.Lib

/-- The complete lines of a text, each ended by CRLF. -/
def crlfLines (b : Bytes) : List Bytes := (splitLines 13 10 b).1

/-- These lines, each with its CRLF. -/
def crlfJoin (ls : List Bytes) : Bytes := joinLines 13 10 ls

@[simp] theorem crlfJoin_nil : crlfJoin [] = [] := rfl

@[simp] theorem crlfJoin_append (ls ls' : List Bytes) :
    crlfJoin (ls ++ ls') = crlfJoin ls ++ crlfJoin ls' :=
  joinLines_append ls ls'

@[simp] theorem crlfJoin_cons (l : Bytes) (ls : List Bytes) :
    crlfJoin (l :: ls) = l ++ 13 :: 10 :: crlfJoin ls :=
  joinLines_cons l ls

/-- How far the lines read so far describe a request. `declared` is the
length that the header gives for the body. -/
inductive Head
  | start
  | fields (method uri : Bytes) (fields : Fields)
  | ended (method uri : Bytes) (fields : Fields) (declared : Option Nat)
  | failed
deriving DecidableEq, Repr

/-- One line more. The lines of the body do not matter. -/
def Head.step : Head → Bytes → Head
  | .start, line =>
      match requestLine line with
      | some (method, uri) => .fields method uri []
      | none => .failed
  | .fields method uri fs, [] =>
      match fieldsContentLength fs with
      | .missing => .ended method uri fs none
      | .value n => .ended method uri fs (some n)
      | .invalid => .failed
  | .fields method uri fs, line =>
      match fieldLine line with
      | some (name, values) => .fields method uri (addField name values fs)
      | none => .failed
  | .ended method uri fs declared, _ => .ended method uri fs declared
  | .failed, _ => .failed

def headOf (ls : List Bytes) : Head := ls.foldl Head.step .start

/-- The bytes up to the end of the first empty line. -/
def headLength (b : Bytes) : Nat :=
  (crlfJoin ((crlfLines b).takeWhile (· ≠ []))).length + 2

/-! ## The machine -/

@[simp] theorem headOf_nil : headOf [] = .start := rfl

@[simp] theorem headOf_append (ls ls' : List Bytes) :
    headOf (ls ++ ls') = ls'.foldl Head.step (headOf ls) :=
  List.foldl_append

theorem foldl_failed (ls : List Bytes) : ls.foldl Head.step .failed = .failed := by
  induction ls with
  | nil => rfl
  | cons l ls ih => exact ih

theorem foldl_ended (m u : Bytes) (fs : Fields) (n : Option Nat) (ls : List Bytes) :
    ls.foldl Head.step (.ended m u fs n) = .ended m u fs n := by
  induction ls with
  | nil => rfl
  | cons l ls ih => exact ih

/-- A line never leads back to the start. -/
theorem Head.step_ne_start (h : Head) (line : Bytes) : h.step line ≠ .start := by
  unfold Head.step
  split <;> (try split) <;> simp

theorem headOf_eq_start {ls : List Bytes} (h : headOf ls = .start) : ls = [] := by
  rcases ls.eq_nil_or_concat with rfl | ⟨ls', l, rfl⟩
  · rfl
  · rw [List.concat_eq_append, headOf_append] at h
    exact absurd h (Head.step_ne_start _ l)

/-- Only an empty line leads out of the fields, and it leads to the end or to
a failure. -/
theorem headOf_fields {ls : List Bytes} {m u : Bytes} {fs : Fields}
    (h : headOf ls = .fields m u fs) : [] ∉ ls := by
  induction ls using List.reverseRecOn generalizing m u fs with
  | nil => simp
  | append_singleton ls l ih =>
      rw [headOf_append, List.foldl_cons, List.foldl_nil] at h
      simp only [List.mem_append, List.mem_singleton, not_or]
      cases hh : headOf ls with
      | start =>
          obtain rfl := headOf_eq_start hh
          rw [hh, Head.step] at h
          refine ⟨by simp, ?_⟩
          rintro rfl
          cases h
      | fields m' u' fs' =>
          refine ⟨ih hh, ?_⟩
          rintro rfl
          rw [hh, Head.step] at h
          split at h <;> cases h
      | ended m' u' fs' n =>
          rw [hh] at h
          cases h
      | failed =>
          rw [hh] at h
          cases h

/-! ## The variables of the parser -/

/-- The head is not over: `done` are the lines handled so far. -/
structure InHead (r : HttpRequest) (l : ParseLocals) (done : List Bytes) : Prop where
  body : r.body = []
  endOfLastLine : l.endOfLastLine = (crlfJoin done).length
  foundEndOfHeader : l.foundEndOfHeader = false
  maxReadLength : l.maxReadLength = maxSocketReadSizeInChunks * chunkReadSize
  head : headOf done =
    if l.foundRequestLine then .fields r.method r.uri r.headers.toList else .start
  fresh : l.foundRequestLine = false → r.headers.toList = []

/-- The loop bound that the end of the header sets. -/
def bodyBound (declared : Option Nat) (startOfBody readLength : Nat) : Nat :=
  match declared with
  | none => readLength
  | some n => (startOfBody - 2 + n) % 2 ^ 64

/-- The head is over: `ls` are its lines, perhaps with others behind them. -/
structure Ended (r : HttpRequest) (l : ParseLocals) (ls : List Bytes) (declared : Option Nat) :
    Prop where
  body : r.body = []
  foundRequestLine : l.foundRequestLine = true
  foundEndOfHeader : l.foundEndOfHeader = true
  head : headOf ls = .ended r.method r.uri r.headers.toList declared
  emptyLine : [] ∈ ls
  startOfBody : l.startOfBody = (crlfJoin (ls.takeWhile (· ≠ []))).length + 2
  expectedContentLength : l.expectedContentLength = declared.getD 0
  maxReadLength : l.maxReadLength = bodyBound declared l.startOfBody r.readBuf.length

/-- The lines in front of the first empty one. -/
theorem takeWhile_append_of_empty {ls : List Bytes} (h : [] ∈ ls) (ls' : List Bytes) :
    (ls ++ ls').takeWhile (· ≠ []) = ls.takeWhile (· ≠ []) := by
  rw [List.takeWhile_append, if_neg]
  intro hall
  have hmem : [] ∈ ls.takeWhile (· ≠ []) := by
    rw [(List.takeWhile_prefix _).eq_of_length hall]
    exact h
  simpa using List.mem_takeWhile_imp hmem

/-- Lines of the body change nothing. -/
theorem Ended.append {r : HttpRequest} {l : ParseLocals} {ls : List Bytes} {n : Option Nat}
    (h : Ended r l ls n) (ls' : List Bytes) : Ended r l (ls ++ ls') n := by
  refine { h with head := ?_, emptyLine := by simp [h.emptyLine], startOfBody := ?_ }
  · rw [headOf_append, h.head, foldl_ended]
  · rw [h.startOfBody, takeWhile_append_of_empty h.emptyLine]

/-- `l.endOfLastLine` moves behind the line. -/
def ParseLocals.nextLine (l : ParseLocals) (i : Nat) : ParseLocals :=
  { l with endOfLastLine := i + 2 }

/-- The machine takes `line` behind the lines `done`, or fails on it as the
loop does. -/
def TakesLine (r : HttpRequest) (l : ParseLocals) (done : List Bytes) (line : Bytes) : Prop :=
  match lineFound r l (crlfJoin done ++ line).length with
  | .error _ => headOf (done ++ [line]) = .failed
  | .ok (r', l') => r'.readBuf = r.readBuf ∧
      (InHead r' (l'.nextLine (crlfJoin done ++ line).length) (done ++ [line])
        ∨ ∃ n, Ended r' l' (done ++ [line]) n)

/-- The first line is the request line. -/
theorem InHead.lineFound_first {r : HttpRequest} {l : ParseLocals} {done : List Bytes}
    {line s : Bytes} (hh : InHead r l done) (hreq : l.foundRequestLine = false)
    (hb : r.readBuf = crlfJoin done ++ (line ++ 13 :: 10 :: s)) :
    done = [] ∧ lineFound r l (crlfJoin done ++ line).length =
      (requestLine line).elim (.error { r with scratch := line }) fun p =>
        .ok ({ r with method := p.1, uri := p.2 }, { l with foundRequestLine := true }) := by
  have hhead := hh.head
  rw [hreq] at hhead
  obtain rfl := headOf_eq_start hhead
  refine ⟨rfl, ?_⟩
  have hbuf : r.readBuf = line ++ 13 :: 10 :: s := by simpa using hb
  simp only [lineFound, hreq, Bool.not_false, if_true, crlfJoin_nil, List.nil_append,
    parseRequestLine_eq hbuf]
  cases requestLine line <;> rfl

theorem takesLine_first {r : HttpRequest} {l : ParseLocals} {done : List Bytes} {line s : Bytes}
    (hh : InHead r l done) (hreq : l.foundRequestLine = false)
    (hb : r.readBuf = crlfJoin done ++ (line ++ 13 :: 10 :: s)) : TakesLine r l done line := by
  obtain ⟨rfl, hfound⟩ := hh.lineFound_first hreq hb
  have hstep : headOf [line] = Head.step .start line := rfl
  rw [TakesLine, hfound]
  simp only [crlfJoin_nil, List.nil_append, hstep, Head.step]
  cases hline : requestLine line with
  | none => rfl
  | some p =>
      refine ⟨rfl, .inl ?_⟩
      exact
        { body := hh.body
          endOfLastLine := by simp [ParseLocals.nextLine]
          foundEndOfHeader := hh.foundEndOfHeader
          maxReadLength := hh.maxReadLength
          head := by simp [hstep, Head.step, ParseLocals.nextLine, hline, hh.fresh hreq]
          fresh := by simp [ParseLocals.nextLine] }

/-- The machine's step on a line behind the request line. -/
theorem InHead.headOf_snoc {r : HttpRequest} {l : ParseLocals} {done : List Bytes}
    (hh : InHead r l done) (hreq : l.foundRequestLine = true) (line : Bytes) :
    headOf (done ++ [line]) = Head.step (.fields r.method r.uri r.headers.toList) line := by
  have hhead := hh.head
  rw [hreq, if_pos rfl] at hhead
  rw [headOf_append, hhead]
  rfl

theorem InHead.sub_endOfLastLine {r : HttpRequest} {l : ParseLocals} {done : List Bytes}
    (hh : InHead r l done) (line : Bytes) :
    (crlfJoin done ++ line).length - l.endOfLastLine = line.length := by
  rw [hh.endOfLastLine, List.length_append]
  omega

/-- The empty line ends the head; the declared length says what is left to read. -/
theorem takesLine_empty {r : HttpRequest} {l : ParseLocals} {done : List Bytes}
    (hh : InHead r l done) (hreq : l.foundRequestLine = true) : TakesLine r l done [] := by
  have hhead := hh.head
  rw [hreq, if_pos rfl] at hhead
  have hstep := hh.headOf_snoc hreq []
  have hsub := hh.sub_endOfLastLine []
  rw [List.append_nil, List.length_nil] at hsub
  have hempty := headOf_fields hhead
  have hnot : ∀ x ∈ done, decide (x ≠ []) = true := by
    intro x hx
    simpa using fun he : x = [] => hempty (he ▸ hx)
  have hwhile : (done ++ [[]]).takeWhile (· ≠ []) = done := by
    rw [List.takeWhile_append_of_pos hnot]
    simp
  simp only [TakesLine, lineFound, hreq, hh.foundEndOfHeader, hsub, hstep,
    Bool.not_true, Bool.not_false, if_true, Bool.false_eq_true, if_false, endHeader,
    contentLength_toList, Head.step, List.append_nil]
  rw [Head.step] at hstep
  cases hdeclared : fieldsContentLength r.headers.toList with
  | invalid => rfl
  | missing =>
      refine ⟨rfl, .inr ⟨none, ?_⟩⟩
      exact
        { body := hh.body
          foundRequestLine := rfl
          foundEndOfHeader := rfl
          head := by rw [hstep, hdeclared]
          emptyLine := by simp
          startOfBody := by rw [hwhile]
          expectedContentLength := rfl
          maxReadLength := rfl }
  | value n =>
      refine ⟨rfl, .inr ⟨some n, ?_⟩⟩
      exact
        { body := hh.body
          foundRequestLine := rfl
          foundEndOfHeader := rfl
          head := by rw [hstep, hdeclared]
          emptyLine := by simp
          startOfBody := by rw [hwhile]
          expectedContentLength := rfl
          maxReadLength := rfl }

/-- A line that is not empty is a field. -/
theorem InHead.lineFound_field {r : HttpRequest} {l : ParseLocals} {done : List Bytes}
    {line s : Bytes} (hh : InHead r l done) (hreq : l.foundRequestLine = true) (hne : line ≠ [])
    (hb : r.readBuf = crlfJoin done ++ (line ++ 13 :: 10 :: s)) :
    lineFound r l (crlfJoin done ++ line).length
      = (parseHeaderLine r line).map fun r => (r, l) := by
  have hslice : slice r.readBuf l.endOfLastLine (crlfJoin done ++ line).length = line := by
    have hmiddle := slice_middle (crlfJoin done) line (13 :: 10 :: s)
    rw [hb, hh.endOfLastLine, ← List.append_assoc]
    exact hmiddle
  have hlen : ¬ line.length = 0 := fun hzero => hne (List.eq_nil_of_length_eq_zero hzero)
  simp only [lineFound, hreq, hh.foundEndOfHeader, hh.sub_endOfLastLine, Bool.not_true,
    Bool.not_false, if_true, Bool.false_eq_true, if_false, if_neg hlen, hslice]
  cases parseHeaderLine r line <;> rfl

theorem takesLine_field {r : HttpRequest} {l : ParseLocals} {done : List Bytes} {c : UInt8}
    {line s : Bytes} (hh : InHead r l done) (hreq : l.foundRequestLine = true)
    (hlen : r.readBuf.length ≤ sizeMax)
    (hb : r.readBuf = crlfJoin done ++ (c :: line ++ 13 :: 10 :: s)) :
    TakesLine r l done (c :: line) := by
  have hstep := hh.headOf_snoc hreq (c :: line)
  have hend : (crlfJoin done ++ c :: line).length + 2
      = (crlfJoin (done ++ [c :: line])).length := by
    simp
    omega
  have hshort : (c :: line).length ≤ sizeMax := by
    rw [hb, List.length_append, List.length_append] at hlen
    omega
  have hparse := parseHeaderLine_eq r hshort
  rw [TakesLine, hh.lineFound_field hreq (List.cons_ne_nil c line) hb]
  simp only [hstep, Head.step]
  cases hline : fieldLine (c :: line) with
  | none =>
      rw [hline] at hparse
      simp only at hparse
      rw [hparse]
      rfl
  | some p =>
      obtain ⟨name, values⟩ := p
      rw [hline] at hparse
      obtain ⟨scratch, headers, heq, hadd⟩ := hparse
      rw [heq]
      refine ⟨rfl, .inl ?_⟩
      exact
        { body := hh.body
          endOfLastLine := hend
          foundEndOfHeader := hh.foundEndOfHeader
          maxReadLength := hh.maxReadLength
          head := by simp [hstep, Head.step, ParseLocals.nextLine, hline, hadd, hreq]
          fresh := by simp [ParseLocals.nextLine, hreq] }

/-- **A line is found** behind the lines `done`: the machine takes it. -/
theorem lineFound_head {r : HttpRequest} {l : ParseLocals} {done : List Bytes} {line s : Bytes}
    (hh : InHead r l done) (hlen : r.readBuf.length ≤ sizeMax)
    (hb : r.readBuf = crlfJoin done ++ (line ++ 13 :: 10 :: s)) : TakesLine r l done line := by
  cases hreq : l.foundRequestLine with
  | false => exact takesLine_first hh hreq hb
  | true =>
      cases line with
      | nil => exact takesLine_empty hh hreq
      | cons c line => exact takesLine_field hh hreq hlen hb

theorem prependLine_crlf (p s : Bytes) :
    prependLine p (crlfLines (13 :: 10 :: s)) = [p] ++ crlfLines s := by
  simp [crlfLines, splitLines, prependLine]

/-- **The scan for CRLF** takes the machine over the lines it finds, from
behind the bytes `p` of a line. -/
theorem scanLines_head {s : Bytes} {i : Nat} {r : HttpRequest} {l : ParseLocals} {p : Bytes}
    {done : List Bytes} (hh : InHead r l done) (hlen : r.readBuf.length ≤ sizeMax)
    (hb : r.readBuf = crlfJoin done ++ (p ++ s)) (hi : i = (crlfJoin done ++ p).length) :
    match scanLines s i r l with
    | .error _ => headOf (done ++ prependLine p (crlfLines s)) = .failed
    | .ok (r', l') => r'.readBuf = r.readBuf ∧
        (InHead r' l' (done ++ prependLine p (crlfLines s))
          ∨ ∃ n, Ended r' l' (done ++ prependLine p (crlfLines s)) n) := by
  fun_induction scanLines s i r l generalizing p done with
  | case1 i r l => exact ⟨rfl, .inl (by simpa [crlfLines, splitLines, prependLine] using hh)⟩
  | case2 a i r l => exact ⟨rfl, .inl (by simpa [crlfLines, splitLines, prependLine] using hh)⟩
  | case3 a b s i r l hcrlf r' hfound =>
      obtain ⟨rfl, rfl⟩ := hcrlf
      have hline := lineFound_head hh hlen hb
      rw [TakesLine, ← hi, hfound] at hline
      simp only at hline
      rw [prependLine_crlf, ← List.append_assoc, headOf_append, hline, foldl_failed]
  | case4 a b s i r l hcrlf r' l' hfound hend =>
      obtain ⟨rfl, rfl⟩ := hcrlf
      have hline := lineFound_head hh hlen hb
      rw [TakesLine, ← hi, hfound] at hline
      obtain ⟨hbuf, hin | ⟨n, hended⟩⟩ := hline
      · have := hin.foundEndOfHeader
        rw [ParseLocals.nextLine, hend] at this
        cases this
      · rw [prependLine_crlf, ← List.append_assoc]
        exact ⟨hbuf, .inr ⟨n, hended.append _⟩⟩
  | case5 a b s i r l hcrlf r' l' hfound hopen ih =>
      obtain ⟨rfl, rfl⟩ := hcrlf
      have hline := lineFound_head hh hlen hb
      rw [TakesLine, ← hi, hfound] at hline
      obtain ⟨hbuf, hin | ⟨n, hended⟩⟩ := hline
      · have hrest := ih (p := []) hin (by rw [hbuf]; exact hlen)
          (by rw [hbuf, hb]; simp) (by rw [hi]; simp; omega)
        rw [prependLine_empty, hbuf] at hrest
        rw [prependLine_crlf, ← List.append_assoc]
        exact hrest
      · exact absurd hended.foundEndOfHeader hopen
  | case6 a b s i r l hnot ih =>
      have hrest := ih (p := p ++ [a]) hh hlen (by rw [hb]; simp)
        (by rw [hi]; simp; omega)
      rw [prependLine_append] at hrest
      rw [crlfLines, splitLines_fst_cons_of_not hnot]
      exact hrest

end CWebServer.Http
