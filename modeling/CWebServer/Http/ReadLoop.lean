import CWebServer.Http.Head

/-!
# Http — ReadLoop

The `while` loop of `http_request_parse`. Between two reads the variables of
the parser are those of the head machine on the lines of `read_buf`, however
the bytes came; so a request that is accepted is framed as its bytes say.
-/

namespace CWebServer.Http

open CWebServer.Strings CWebServer.Lib

/-- The bytes that these reads give. -/
def received (s : Stream) : Bytes :=
  s.flatMap fun x =>
    match x with
    | .bytes c => c.val
    | _ => []

@[simp] theorem received_nil : received [] = [] := rfl

@[simp] theorem received_bytes (c : Chunk) (s : Stream) :
    received (.bytes c :: s) = c.val ++ received s := rfl

@[simp] theorem received_append (s s' : Stream) :
    received (s ++ s') = received s ++ received s' :=
  List.flatMap_append

/-- The state between two reads. -/
structure Reading (r : HttpRequest) (l : ParseLocals) : Prop where
  stage : InHead r l (crlfLines r.readBuf) ∨ ∃ n, Ended r l (crlfLines r.readBuf) n
  /-- One read goes past the bound, but not two. -/
  size : r.readBuf.length < (maxSocketReadSizeInChunks + 1) * chunkReadSize
    ∨ r.readBuf.length < l.maxReadLength + chunkReadSize

theorem reading_initial (r : HttpRequest) : Reading r.clear {} := by
  refine ⟨.inl ?_, .inl (Nat.zero_lt_succ _)⟩
  exact
    { body := rfl
      endOfLastLine := rfl
      foundEndOfHeader := rfl
      maxReadLength := rfl
      head := rfl
      fresh := fun _ => rfl }

/-- The lines of a longer text. -/
theorem crlfLines_append (s x : Bytes) :
    crlfLines (s ++ x) = crlfLines s ++ crlfLines ((splitLines 13 10 s).2 ++ x) :=
  congrArg Prod.fst (splitLines_append s x)

/-- **One read** takes the machine over the lines that it completes. -/
theorem readBytes_reading {r : HttpRequest} {l : ParseLocals} (h : Reading r l)
    (hlt : r.readBuf.length < l.maxReadLength) (c : Chunk) :
    match readBytes r l c with
    | .error _ => headOf (crlfLines (r.readBuf ++ c.val)) = .failed
    | .ok (r', l') => r'.readBuf = r.readBuf ++ c.val ∧ Reading r' l' := by
  have hchunk := c.property.2
  rcases h.stage with hin | ⟨n, hended⟩
  · -- still in the head: the scan resumes behind the last line
    have hmax := hin.maxReadLength
    have hjoin : crlfJoin (crlfLines r.readBuf) ++ (splitLines 13 10 r.readBuf).2 = r.readBuf :=
      joinLines_splitLines r.readBuf
    have hlen : (r.readBuf ++ c.val).length < (maxSocketReadSizeInChunks + 1) * chunkReadSize := by
      rw [List.length_append, Nat.add_mul]
      omega
    have hdrop : (r.readBuf ++ c.val).drop l.endOfLastLine
        = (splitLines 13 10 r.readBuf).2 ++ c.val := by
      conv_lhs => rw [← hjoin]
      rw [hin.endOfLastLine, List.append_assoc, List.drop_left']
      rfl
    have hhead : InHead { r with readBuf := r.readBuf ++ c.val } l (crlfLines r.readBuf) :=
      { body := hin.body
        endOfLastLine := hin.endOfLastLine
        foundEndOfHeader := hin.foundEndOfHeader
        maxReadLength := hin.maxReadLength
        head := hin.head
        fresh := hin.fresh }
    have hscan := scanLines_head (p := []) (i := l.endOfLastLine)
      (s := (splitLines 13 10 r.readBuf).2 ++ c.val) hhead
      (Nat.le_of_lt (Nat.lt_of_lt_of_le hlen (by decide)))
      (by rw [List.nil_append, ← List.append_assoc, hjoin])
      (by rw [List.append_nil, hin.endOfLastLine])
    rw [prependLine_empty, ← crlfLines_append] at hscan
    simp only [readBytes, hin.foundEndOfHeader, Bool.not_false, Bool.or_true, if_true, hdrop]
    revert hscan
    cases scanLines ((splitLines 13 10 r.readBuf).2 ++ c.val) l.endOfLastLine
      { r with readBuf := r.readBuf ++ c.val } l with
    | error r' => exact id
    | ok p =>
        rintro ⟨hbuf, hstage⟩
        refine ⟨hbuf, ?_, .inl ?_⟩
        · rw [hbuf]
          exact hstage
        · rw [hbuf]
          exact hlen
  · have hskip : readBytes r l c = .ok ({ r with readBuf := r.readBuf ++ c.val }, l) := by
      simp [readBytes, hended.foundRequestLine, hended.foundEndOfHeader]
    rw [hskip]
    refine ⟨rfl, .inr ⟨n, ?_⟩, .inr ?_⟩
    · rw [crlfLines_append]
      have happend := hended.append (crlfLines ((splitLines 13 10 r.readBuf).2 ++ c.val))
      refine { happend with maxReadLength := ?_ }
      -- without a declared length there is no further read
      have hbound := hended.maxReadLength
      cases n with
      | none =>
          rw [hbound] at hlt
          exact absurd hlt (Nat.lt_irrefl _)
      | some k => exact hbound
    · simp only [List.length_append]
      omega

/-- At the bound the loop leaves the rest of the stream. -/
theorem readLoop_stop {r : HttpRequest} {l : ParseLocals}
    (h : ¬ r.readBuf.length < l.maxReadLength) (s : Stream) :
    readLoop s r l = .ok (r, l, s) := by
  cases s with
  | nil => rfl
  | cons x s => cases x <;> rw [readLoop, if_neg h]

/-- **The loop** ends in a state that belongs to the bytes it has received. -/
theorem readLoop_reading {s : Stream} {r : HttpRequest} {l : ParseLocals} (h : Reading r l)
    {r' : HttpRequest} {l' : ParseLocals} {rest : Stream}
    (hloop : readLoop s r l = .ok (r', l', rest)) :
    Reading r' l' ∧ ∃ used, s = used ++ rest ∧ r'.readBuf = r.readBuf ++ received used := by
  induction s generalizing r l with
  | nil =>
      cases hloop
      exact ⟨h, [], rfl, by simp⟩
  | cons x s ih =>
      by_cases hlt : r.readBuf.length < l.maxReadLength
      · cases x with
        | error text =>
            rw [readLoop, if_pos hlt] at hloop
            cases hloop
        | endOfStream =>
            rw [readLoop, if_pos hlt] at hloop
            cases hloop
            exact ⟨h, [.endOfStream], rfl, by simp [received]⟩
        | bytes c =>
            rw [readLoop, if_pos hlt] at hloop
            have hread := readBytes_reading h hlt c
            revert hread hloop
            cases readBytes r l c with
            | error r₁ => exact fun hloop => nomatch hloop
            | ok p =>
                rintro hloop ⟨hbuf, hnext⟩
                obtain ⟨hfinal, used, hs, hused⟩ := ih hnext hloop
                refine ⟨hfinal, .bytes c :: used, by rw [hs]; rfl, ?_⟩
                rw [hused, hbuf, received_bytes, List.append_assoc]
      · rw [readLoop_stop hlt] at hloop
        cases hloop
        exact ⟨h, [], rfl, by simp⟩

end CWebServer.Http
