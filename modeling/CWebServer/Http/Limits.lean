import CWebServer.Http.Runs
import CWebServer.Lib.Delimiters

/-!
# Http — Limits

When `http_request_parse` stops reading, and how much it has in `read_buf`
then. It reads nothing behind a request that is there; but the limit on the
head is no limit on what is read with a declared length, and each read may go
past it.
-/

namespace CWebServer.Http

open CWebServer.Strings CWebServer.Lib

/-- The reads that the loop leaves. -/
def loopRest : Except (HttpRequest × Stream) (HttpRequest × ParseLocals × Stream) → Stream
  | .error (_, rest) => rest
  | .ok (_, _, rest) => rest

/-- The `read_buf` that it leaves. -/
def loopBuf : Except (HttpRequest × Stream) (HttpRequest × ParseLocals × Stream) → Bytes
  | .error (r, _) => r.readBuf
  | .ok (r, _, _) => r.readBuf

/-- The reads that a call does not make. -/
def unread (r : HttpRequest) (stream : Stream) : Stream :=
  loopRest (readLoop stream r.clear {})

/-- What a call has in `read_buf` at its end. There is nothing that makes it
shorter. -/
def accumulated (r : HttpRequest) (stream : Stream) : Bytes :=
  loopBuf (readLoop stream r.clear {})

theorem httpRequestParse_unread {r r' : HttpRequest} {stream rest : Stream} {code : Nat}
    (h : httpRequestParse r stream = .returned code r' rest) :
    rest = unread r stream ∧ r'.readBuf = accumulated r stream := by
  have hends := httpRequestParse_ends r stream
  rw [h] at hends
  rw [unread, accumulated]
  cases hends with
  | loopFailed hloop | unfinished hloop | parsed hloop =>
      rw [hloop]
      exact ⟨rfl, rfl⟩

/-! ## No further read -/

/-- These bytes start with a whole head and, where it declares a length, with
a body at least that long. -/
def HoldsRequest (b : Bytes) : Prop :=
  ∃ line lines body, b = crlfJoin (line :: lines ++ [[]]) ++ body
    ∧ (∀ x ∈ line :: lines, NoTerminator 13 10 x) ∧ [] ∉ lines
    ∧ ∀ fs n, fieldsOf lines [] = some fs → fieldsContentLength fs = .value n →
      n ≤ body.length

/-- The lines of a text that starts with these. -/
theorem crlfLines_crlfJoin {ls : List Bytes} (h : ∀ x ∈ ls, NoTerminator 13 10 x) (s : Bytes) :
    crlfLines (crlfJoin ls ++ s) = ls ++ crlfLines s :=
  congrArg Prod.fst (splitLines_joinLines (by decide) h s)

theorem noTerminator_head {line : Bytes} {lines : List Bytes}
    (h : ∀ x ∈ line :: lines, NoTerminator 13 10 x) :
    ∀ x ∈ line :: lines ++ [[]], NoTerminator 13 10 x := by
  intro x hx
  rcases List.mem_append.mp hx with hx | hx
  · exact h x hx
  · obtain rfl := List.mem_singleton.mp hx
    exact noTerminator_nil

/-- A text starts with one head only. -/
theorem head_unique {line line' body body' : Bytes} {lines lines' : List Bytes}
    (hno : ∀ x ∈ line :: lines, NoTerminator 13 10 x)
    (hno' : ∀ x ∈ line' :: lines', NoTerminator 13 10 x) (hne : [] ∉ lines)
    (hne' : [] ∉ lines')
    (h : crlfJoin (line :: lines ++ [[]]) ++ body = crlfJoin (line' :: lines' ++ [[]]) ++ body') :
    line = line' ∧ lines = lines' ∧ body = body' := by
  have hlines := congrArg crlfLines h
  rw [crlfLines_crlfJoin (noTerminator_head hno), crlfLines_crlfJoin (noTerminator_head hno'),
    List.append_assoc, List.append_assoc, List.cons_append, List.cons_append] at hlines
  obtain ⟨rfl, hrest⟩ := List.cons.inj hlines
  have hcut : splitFirst [] (lines ++ [] :: crlfLines body)
      = splitFirst [] (lines' ++ [] :: crlfLines body') := congrArg _ hrest
  rw [splitFirst_append hne, splitFirst_append hne'] at hcut
  obtain rfl : lines = lines' := congrArg Prod.fst (Option.some.inj hcut)
  exact ⟨rfl, rfl, List.append_cancel_left h⟩

theorem HoldsRequest.not_readsOn {b : Bytes} (h : HoldsRequest b) : ¬ReadsOn b := by
  obtain ⟨line, lines, body, hb, hno, hne, hbody⟩ := h
  have hempty : [] ∈ crlfLines b := by
    rw [hb, crlfLines_crlfJoin (noTerminator_head hno)]
    simp
  intro hon
  rw [ReadsOn] at hon
  cases hhead : headOf (crlfLines b) with
  | start =>
      rw [headOf_eq_start hhead] at hempty
      cases hempty
  | fields m u fs => exact headOf_fields hhead hempty
  | failed =>
      rw [hhead] at hon
      exact hon
  | ended m u fs n =>
      cases n with
      | none =>
          rw [hhead] at hon
          exact hon
      | some n =>
          simp only [hhead] at hon
          obtain ⟨line', lines', hdata, hle, hno', -, hne', hfs, hdeclares⟩ :=
            data_of_ended hhead
          obtain ⟨rfl, rfl, hdrop⟩ := head_unique hno hno' hne
            (fun hmem => hne' (List.mem_cons_of_mem line' hmem)) (hb.symm.trans hdata)
          have hlong := hbody fs n hfs hdeclares
          rw [hdrop, List.length_drop] at hlong
          have hmod := Nat.mod_le (headLength b - 2 + n) (2 ^ 64)
          have htwo : 2 ≤ headLength b := Nat.le_add_left 2 _
          omega

/-- Behind some reads the loop has stopped, or it goes on from a state that
belongs to the bytes they gave. -/
theorem readLoop_append {r : HttpRequest} {l : ParseLocals} (h : Reading r l)
    (used rest : Stream) :
    (∃ left, loopRest (readLoop (used ++ rest) r l) = left ++ rest)
      ∨ ∃ r' l', readLoop (used ++ rest) r l = readLoop rest r' l' ∧ Reading r' l'
        ∧ r'.readBuf = r.readBuf ++ received used := by
  induction used generalizing r l with
  | nil => exact .inr ⟨r, l, rfl, h, by simp⟩
  | cons x used ih =>
      by_cases hlt : r.readBuf.length < l.maxReadLength
      · rw [List.cons_append]
        cases x with
        | error text =>
            rw [readLoop, if_pos hlt]
            exact .inl ⟨used, rfl⟩
        | endOfStream =>
            rw [readLoop, if_pos hlt]
            exact .inl ⟨used, rfl⟩
        | bytes c =>
            rw [readLoop, if_pos hlt]
            have hread := readBytes_reading h hlt c
            cases hbytes : readBytes r l c with
            | error r' => exact .inl ⟨used, rfl⟩
            | ok p =>
                obtain ⟨r₁, l₁⟩ := p
                rw [hbytes] at hread
                obtain ⟨hbuf, hnext⟩ := hread
                rcases ih hnext with hleft | ⟨r', l', hloop, hreading, hbuf'⟩
                · exact .inl hleft
                · refine .inr ⟨r', l', hloop, hreading, ?_⟩
                  rw [hbuf', hbuf, received_bytes, List.append_assoc]
      · rw [readLoop_stop hlt]
        exact .inl ⟨x :: used, rfl⟩

/-- **No further read** is made as soon as the bytes read hold a request. -/
theorem unread_of_holdsRequest {r : HttpRequest} {used : Stream}
    (h : HoldsRequest (received used)) (rest : Stream) :
    ∃ left, unread r (used ++ rest) = left ++ rest := by
  rcases readLoop_append (reading_initial r) used rest with
    hleft | ⟨r', l', hloop, hreading, hbuf⟩
  · exact hleft
  · have hbuf' : r'.readBuf = received used := by
      rw [hbuf]
      rfl
    have hstop : ¬r'.readBuf.length < l'.maxReadLength := by
      rw [hreading.readsOn_iff, hbuf']
      exact h.not_readsOn
    refine ⟨[], ?_⟩
    rw [unread, hloop, readLoop_stop hstop]
    rfl

/-- `PUT` with a body of three bytes. -/
def putRead : Chunk := ⟨ascii "PUT / HTTP/1.1\r\nContent-Length: 3\r\n\r\nabc", by decide⟩

theorem unread_of_holdsRequest_put :
    ∃ left, unread {} ([.bytes putRead] ++ [.endOfStream]) = left ++ [.endOfStream] := by
  apply unread_of_holdsRequest
  refine ⟨ascii "PUT / HTTP/1.1", [ascii "Content-Length: 3"], ascii "abc", rfl, ?_, ?_, ?_⟩
  · unfold NoTerminator
    decide
  · decide
  · intro fs n hfs hn
    cases hfs
    cases hn
    decide

/-! ## What is accumulated -/

/-- The request that a part of the call leaves, if it fails or not. -/
def leaves {α : Type} (request : α → HttpRequest) : Except HttpRequest α → HttpRequest
  | .ok a => request a
  | .error r => r

theorem parseRequestLine_readBuf (r : HttpRequest) (i : Nat) :
    (leaves id (parseRequestLine r i)).readBuf = r.readBuf := by
  simp only [parseRequestLine]
  split <;> rfl

theorem parseHeaderLine_readBuf (r : HttpRequest) (line : Bytes) :
    (leaves id (parseHeaderLine r line)).readBuf = r.readBuf := by
  unfold parseHeaderLine
  split <;> rfl

theorem endHeader_readBuf (r : HttpRequest) (l : ParseLocals) (i : Nat) :
    (leaves Prod.fst (endHeader r l i)).readBuf = r.readBuf := by
  simp only [endHeader]
  cases contentLength r.headers <;> rfl

/-- A line leaves `read_buf` as it is. -/
theorem lineFound_readBuf (r : HttpRequest) (l : ParseLocals) (i : Nat) :
    (leaves Prod.fst (lineFound r l i)).readBuf = r.readBuf := by
  simp only [lineFound]
  split
  · have hline := parseRequestLine_readBuf r i
    cases hparse : parseRequestLine r i <;> rw [hparse] at hline <;> exact hline
  · split
    · split
      · exact endHeader_readBuf r l i
      · have hline := parseHeaderLine_readBuf r (slice r.readBuf l.endOfLastLine i)
        cases hparse : parseHeaderLine r (slice r.readBuf l.endOfLastLine i) <;>
          rw [hparse] at hline <;> exact hline
    · rfl

theorem scanLines_readBuf (s : Bytes) (i : Nat) (r : HttpRequest) (l : ParseLocals) :
    (leaves Prod.fst (scanLines s i r l)).readBuf = r.readBuf := by
  fun_induction scanLines s i r l with
  | case1 | case2 => rfl
  | case3 a b s i r l hcrlf r' hfound =>
      have hline := lineFound_readBuf r l i
      rw [hfound] at hline
      exact hline
  | case4 a b s i r l hcrlf r' l' hfound hend =>
      have hline := lineFound_readBuf r l i
      rw [hfound] at hline
      exact hline
  | case5 a b s i r l hcrlf r' l' hfound hopen ih =>
      have hline := lineFound_readBuf r l i
      rw [hfound] at hline
      exact ih.trans hline
  | case6 a b s i r l hnot ih => exact ih

/-- A read appends what it gets. -/
theorem readBytes_readBuf (r : HttpRequest) (l : ParseLocals) (c : Chunk) :
    (leaves Prod.fst (readBytes r l c)).readBuf = r.readBuf ++ c.val := by
  simp only [readBytes]
  split
  · exact scanLines_readBuf _ _ _ _
  · rfl

/-- One read, if the loop only appends from then on. -/
theorem length_le_loopBuf_bytes {r : HttpRequest} {l : ParseLocals}
    (hlt : r.readBuf.length < l.maxReadLength) (c : Chunk) {s : Stream}
    (hrest : ∀ r' l', r'.readBuf.length ≤ (loopBuf (readLoop s r' l')).length) :
    r.readBuf.length + c.val.length ≤ (loopBuf (readLoop (.bytes c :: s) r l)).length := by
  have hbuf := congrArg List.length (readBytes_readBuf r l c)
  rw [List.length_append] at hbuf
  rw [readLoop, if_pos hlt]
  cases hbytes : readBytes r l c with
  | error r' =>
      rw [hbytes] at hbuf
      exact Nat.le_of_eq hbuf.symm
  | ok p =>
      rw [hbytes] at hbuf
      exact Nat.le_trans (Nat.le_of_eq hbuf.symm) (hrest p.1 p.2)

/-- The loop only appends. -/
theorem length_le_loopBuf (s : Stream) (r : HttpRequest) (l : ParseLocals) :
    r.readBuf.length ≤ (loopBuf (readLoop s r l)).length := by
  induction s generalizing r l with
  | nil => exact Nat.le_refl r.readBuf.length
  | cons x s ih =>
      by_cases hlt : r.readBuf.length < l.maxReadLength
      · cases x with
        | error text =>
            rw [readLoop, if_pos hlt]
            exact Nat.le_refl r.readBuf.length
        | endOfStream =>
            rw [readLoop, if_pos hlt]
            exact Nat.le_refl r.readBuf.length
        | bytes c => exact Nat.le_trans (Nat.le_add_right _ _) (length_le_loopBuf_bytes hlt c ih)
      · rw [readLoop_stop hlt]
        exact Nat.le_refl r.readBuf.length

/-- Where there is a further read within the limit, there was one before. -/
theorem ReadsOn.of_append {b x : Bytes} (h : ReadsOn (b ++ x))
    (hle : (b ++ x).length ≤ maxSocketReadSize) : ReadsOn b := by
  rcases eq_or_ne x [] with rfl | hx
  · rwa [List.append_nil] at h
  · have hpos := List.length_pos_of_ne_nil hx
    rw [List.length_append] at hle
    rw [ReadsOn, crlfLines_append, headOf_append] at h
    rw [ReadsOn]
    cases hhead : headOf (crlfLines b) with
    | start | fields _ _ _ =>
        show b.length < maxSocketReadSize
        omega
    | failed =>
        rw [hhead, foldl_failed] at h
        exact h
    | ended m u fs n =>
        obtain ⟨line, lines, more, hls, -⟩ := headOf_ended hhead
        have hsame : headLength (b ++ x) = headLength b := by
          rw [headLength, crlfLines_append, takeWhile_append_of_empty (by simp [hls])]
          rfl
        rw [hhead, foldl_ended, hsame, List.length_append] at h
        cases n with
        | none => exact h
        | some n =>
            simp only at h ⊢
            omega

/-- A read that goes past the limit, and is made: the bytes before it are
those of a head that is not over, or less than its end and the declared
length together. -/
def CrossesLimit (stream : Stream) : Prop :=
  ∃ pre c post, stream = deliver pre ++ .bytes c :: post
    ∧ (bytesOf pre).length ≤ maxSocketReadSize
    ∧ maxSocketReadSize < (bytesOf pre).length + c.val.length ∧ ReadsOn (bytesOf pre)

theorem CrossesLimit.lt_accumulated {stream : Stream} (h : CrossesLimit stream) (r : HttpRequest) :
    maxSocketReadSize < (accumulated r stream).length := by
  obtain ⟨pre, c, post, rfl, hle, hgt, hon⟩ := h
  have hreads : ∀ a b, pre = a ++ b → b ≠ [] → ReadsOn (bytesOf a) := by
    intro a b hab _
    rw [hab, bytesOf_append] at hle hon
    exact hon.of_append hle
  obtain ⟨r', l, hto⟩ := exists_readsTo r hreads hon.not_failed
  obtain ⟨hreading, hbuf⟩ := hto.reading
  have hlt := hreading.readsOn_iff.mpr (hbuf ▸ hon)
  have hlong := length_le_loopBuf_bytes hlt c (length_le_loopBuf post)
  rw [accumulated, hto.readLoop]
  rw [hbuf] at hlong
  omega

/-- The first read past the limit. -/
theorem ReadsTo.exists_crossing {r₀ r : HttpRequest} {l : ParseLocals} {pre : List Chunk}
    {s : Stream} (h : ReadsTo r₀ pre r l) (hle : (bytesOf pre).length ≤ maxSocketReadSize)
    (hgt : maxSocketReadSize < (loopBuf (Http.readLoop s r l)).length) :
    CrossesLimit (deliver pre ++ s) := by
  obtain ⟨hreading, hbuf⟩ := h.reading
  rw [← hbuf] at hle
  induction s generalizing pre r l with
  | nil =>
      simp only [Http.readLoop, loopBuf] at hgt
      omega
  | cons x s ih =>
      by_cases hlt : r.readBuf.length < l.maxReadLength
      · cases x with
        | error text =>
            rw [Http.readLoop, if_pos hlt] at hgt
            simp only [loopBuf] at hgt
            omega
        | endOfStream =>
            rw [Http.readLoop, if_pos hlt] at hgt
            simp only [loopBuf] at hgt
            omega
        | bytes c =>
            by_cases hcross : maxSocketReadSize < r.readBuf.length + c.val.length
            · rw [hbuf] at hle hcross
              exact ⟨pre, c, s, rfl, hle, hcross, hbuf ▸ hreading.readsOn_iff.mp hlt⟩
            · have hlength := congrArg List.length (readBytes_readBuf r l c)
              rw [List.length_append] at hlength
              rw [Http.readLoop, if_pos hlt] at hgt
              cases hbytes : readBytes r l c with
              | error r' =>
                  rw [hbytes] at hgt hlength
                  simp only [loopBuf] at hgt
                  simp only [leaves] at hlength
                  omega
              | ok p =>
                  obtain ⟨r', l'⟩ := p
                  rw [hbytes] at hgt hlength
                  simp only [leaves] at hlength
                  have hnext := h.read hlt hbytes
                  obtain ⟨hreading', hbuf'⟩ := hnext.reading
                  have hle' : r'.readBuf.length ≤ maxSocketReadSize := by omega
                  have hcrosses := ih hnext hle' hgt hreading' hbuf'
                  rw [deliver, List.map_append, List.append_assoc] at hcrosses
                  exact hcrosses
      · rw [readLoop_stop hlt] at hgt
        simp only [loopBuf] at hgt
        omega

/-- **What a call accumulates** stays within the limit exactly if no read that
is made goes past it. -/
theorem accumulated_le_iff (r : HttpRequest) (stream : Stream) :
    (accumulated r stream).length ≤ maxSocketReadSize ↔ ¬CrossesLimit stream := by
  constructor
  · intro hle hcrosses
    exact absurd (hcrosses.lt_accumulated r) (Nat.not_lt_of_le hle)
  · intro hcrosses
    by_contra hlong
    have hstart : ReadsTo r [] r.clear {} := .start
    exact hcrosses (hstart.exists_crossing (Nat.zero_le _) (Nat.lt_of_not_le hlong))

/-- A head that declares a body of 100000 bytes. -/
def longHead : List Bytes := [ascii "PUT / HTTP/1.1", ascii "Content-Length: 100000", []]

def longHeadRead : Chunk := ⟨crlfJoin longHead, by decide⟩

/-- As many bytes as one read gets. -/
def fullRead : Chunk := ⟨List.replicate chunkReadSize 97, by
  rw [List.length_replicate]
  exact ⟨Nat.zero_lt_succ 1023, Nat.le_refl chunkReadSize⟩⟩

theorem length_fullRead : fullRead.val.length = 1024 := List.length_replicate

theorem length_bytesOf_replicate (n : Nat) (c : Chunk) :
    (bytesOf (List.replicate n c)).length = n * c.val.length := by
  simp [bytesOf]

/-- Behind that head the loop goes on until it has the body. -/
theorem not_accumulated_le :
    ¬(accumulated {} (deliver (longHeadRead :: List.replicate 100 fullRead))).length
      ≤ maxSocketReadSize := by
  have hno : ∀ x ∈ longHead, NoTerminator 13 10 x := by
    unfold NoTerminator
    decide
  let body : Bytes := bytesOf (List.replicate 63 fullRead)
  have hbytes : bytesOf (longHeadRead :: List.replicate 63 fullRead) = crlfJoin longHead ++ body :=
    rfl
  have hbody : body.length = 63 * 1024 := by
    rw [length_bytesOf_replicate, length_fullRead]
  have hlines := crlfLines_crlfJoin hno body
  have hhead : headOf longHead = .ended (ascii "PUT") (ascii "/")
      [(ascii "Content-Length", [ascii "100000"])] (some 100000) := by decide
  have hlength : headLength (crlfJoin longHead ++ body) = 42 := by
    rw [headLength, hlines, takeWhile_append_of_empty (by decide)]
    decide
  have hjoin : (crlfJoin longHead).length = 42 := by decide
  apply Nat.not_le_of_lt
  apply CrossesLimit.lt_accumulated
  refine ⟨longHeadRead :: List.replicate 63 fullRead, fullRead,
    deliver (List.replicate 36 fullRead), rfl, ?_, ?_, ?_⟩
  · rw [hbytes, List.length_append, hjoin, hbody]
    decide
  · rw [hbytes, List.length_append, hjoin, hbody, length_fullRead]
    decide
  · rw [ReadsOn, hbytes, hlines, headOf_append, hhead, foldl_ended, hlength, List.length_append,
      hjoin, hbody]
    -- 64554 bytes are there, and the bound is 100040
    simp only
    omega

end CWebServer.Http
