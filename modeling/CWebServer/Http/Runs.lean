import CWebServer.Http.Cuts

/-!
# Http — Runs

The run of `http_request_parse` as a relation: `ReadsTo` follows the `while`
loop from read to read, and `Scans` the `for` loop over `i` within one read.
`ReadsOn` says of the bytes received so far whether there is a further read.
-/

namespace CWebServer.Http

open CWebServer.Strings CWebServer.Lib

/-- `MAX_SOCKET_READ_SIZE_IN_CHUNKS * CHUNK_READ_SIZE`. -/
def maxSocketReadSize : Nat := maxSocketReadSizeInChunks * chunkReadSize

/-! ## From read to read -/

/-- The variables at the head of the `while` loop behind these reads. -/
inductive ReadsTo (r₀ : HttpRequest) : List Chunk → HttpRequest → ParseLocals → Prop
  | start : ReadsTo r₀ [] r₀.clear {}
  | read {d : List Chunk} {r r' : HttpRequest} {l l' : ParseLocals} {c : Chunk} :
      ReadsTo r₀ d r l → r.readBuf.length < l.maxReadLength →
        readBytes r l c = .ok (r', l') →
        ReadsTo r₀ (d ++ [c]) r' l'

/-- Behind these bytes there is a further read. -/
def ReadsOn (b : Bytes) : Prop :=
  match headOf (crlfLines b) with
  | .start | .fields _ _ _ => b.length < maxSocketReadSize
  | .ended _ _ _ (some n) => b.length < (headLength b - 2 + n) % 2 ^ 64
  | .ended _ _ _ none | .failed => False

section

variable {r₀ r : HttpRequest} {l : ParseLocals} {d : List Chunk}

theorem ReadsTo.reading (h : ReadsTo r₀ d r l) : Reading r l ∧ r.readBuf = bytesOf d := by
  induction h with
  | start => exact ⟨reading_initial r₀, rfl⟩
  | @read d r r' l l' c _ hlt hbytes ih =>
      have hread := readBytes_reading ih.1 hlt c
      rw [hbytes] at hread
      refine ⟨hread.2, ?_⟩
      rw [hread.1, ih.2, bytesOf_append]
      simp [bytesOf]

/-- The loop itself gets there. -/
theorem ReadsTo.readLoop (h : ReadsTo r₀ d r l) (rest : Stream) :
    Http.readLoop (deliver d ++ rest) r₀.clear {} = Http.readLoop rest r l := by
  induction h generalizing rest with
  | start => rfl
  | read _ hlt hbytes ih =>
      rw [deliver, List.map_append, List.append_assoc, ← deliver, ih]
      show Http.readLoop (.bytes _ :: rest) _ _ = _
      rw [Http.readLoop, if_pos hlt, hbytes]

/-- The loop condition, in terms of the bytes received. -/
theorem Reading.readsOn_iff (h : Reading r l) :
    r.readBuf.length < l.maxReadLength ↔ ReadsOn r.readBuf := by
  unfold ReadsOn
  rcases h.stage with hin | ⟨n, hended⟩
  · rw [hin.head, hin.maxReadLength, maxSocketReadSize]
    cases l.foundRequestLine <;> rfl
  · have hstart : l.startOfBody = headLength r.readBuf := hended.startOfBody
    rw [hended.head, hended.maxReadLength, hstart]
    cases n with
    | none => simp [bodyBound]
    | some k => rfl

theorem ReadsOn.not_failed {b : Bytes} (h : ReadsOn b) : headOf (crlfLines b) ≠ .failed := by
  intro hfailed
  rw [ReadsOn, hfailed] at h
  exact h

/-- Behind all but the last of the reads there was a further one. -/
theorem ReadsTo.readsOn (h : ReadsTo r₀ d r l) {pre post : List Chunk} (hd : d = pre ++ post)
    (hpost : post ≠ []) : ReadsOn (bytesOf pre) := by
  induction h generalizing post with
  | start => exact absurd (List.append_eq_nil_iff.mp hd.symm).2 hpost
  | read hto hlt hbytes ih =>
      rcases post.eq_nil_or_concat with rfl | ⟨post', c', rfl⟩
      · exact absurd rfl hpost
      · rw [List.concat_eq_append, ← List.append_assoc] at hd
        obtain ⟨hd', -⟩ := List.append_inj' hd rfl
        by_cases hlast : post' = []
        · rw [hlast, List.append_nil] at hd'
          subst hd'
          rw [← hto.reading.2]
          exact hto.reading.1.readsOn_iff.mp hlt
        · exact ih hd' hlast

/-- **How far the loop reads**: as long as there is a further read, and up to
a line on which it fails. -/
theorem exists_readsTo (r₀ : HttpRequest)
    (hd : ∀ pre post, d = pre ++ post → post ≠ [] → ReadsOn (bytesOf pre))
    (hok : headOf (crlfLines (bytesOf d)) ≠ .failed) : ∃ r l, ReadsTo r₀ d r l := by
  induction d using List.reverseRecOn with
  | nil => exact ⟨_, _, .start⟩
  | append_singleton d c ih =>
      have hon : ReadsOn (bytesOf d) := hd d [c] rfl (by simp)
      obtain ⟨r, l, hto⟩ := ih
        (fun pre post hsplit hpost => hd pre (post ++ [c]) (by rw [hsplit, List.append_assoc])
          (by simp))
        hon.not_failed
      obtain ⟨hreading, hbuf⟩ := hto.reading
      have hlt := hreading.readsOn_iff.mpr (hbuf ▸ hon)
      have hread := readBytes_reading hreading hlt c
      cases hbytes : readBytes r l c with
      | error r' =>
          rw [hbytes] at hread
          rw [bytesOf_append, ← hbuf] at hok
          exact absurd (by simpa [bytesOf] using hread) hok
      | ok p => exact ⟨p.1, p.2, hto.read hlt hbytes⟩

/-- The loop ends behind these reads: it wants no more, or the stream is at
its end. -/
def EndsBehind (d : List Chunk) (stream rest : Stream) : Prop :=
  stream = deliver d ++ rest ∧ (ReadsOn (bytesOf d) → rest = [])
    ∨ stream = deliver d ++ .endOfStream :: rest ∧ ReadsOn (bytesOf d)

theorem ReadsTo.exists_of_readLoop {s rest : Stream} {r' : HttpRequest} {l' : ParseLocals}
    (hto : ReadsTo r₀ d r l) (h : Http.readLoop s r l = .ok (r', l', rest)) :
    ∃ more, ReadsTo r₀ (d ++ more) r' l' ∧ EndsBehind (d ++ more) (deliver d ++ s) rest := by
  induction s generalizing d r l with
  | nil =>
      cases h
      exact ⟨[], by rwa [List.append_nil], .inl ⟨by rw [List.append_nil d], fun _ => rfl⟩⟩
  | cons x s ih =>
      by_cases hlt : r.readBuf.length < l.maxReadLength
      · cases x with
        | error text =>
            rw [Http.readLoop, if_pos hlt] at h
            cases h
        | endOfStream =>
            rw [Http.readLoop, if_pos hlt] at h
            cases h
            refine ⟨[], by rwa [List.append_nil], .inr ⟨by rw [List.append_nil], ?_⟩⟩
            rw [List.append_nil, ← hto.reading.2]
            exact hto.reading.1.readsOn_iff.mp hlt
        | bytes c =>
            rw [Http.readLoop, if_pos hlt] at h
            cases hbytes : readBytes r l c with
            | error r₁ =>
                rw [hbytes] at h
                cases h
            | ok p =>
                rw [hbytes] at h
                have hto' := hto.read hlt hbytes
                obtain ⟨more, hmore, hends⟩ := ih hto' h
                have hd : deliver (d ++ [c]) ++ s = deliver d ++ .bytes c :: s := by
                  simp [deliver]
                rw [List.append_assoc] at hmore
                rw [List.append_assoc, hd] at hends
                exact ⟨c :: more, hmore, hends⟩
      · rw [readLoop_stop hlt] at h
        cases h
        refine ⟨[], by rwa [List.append_nil], .inl ⟨by rw [List.append_nil], ?_⟩⟩
        intro hread
        rw [List.append_nil, ← hto.reading.2] at hread
        exact absurd (hto.reading.1.readsOn_iff.mpr hread) hlt

/-- **Where the loop ends**, if it does not fail. -/
theorem readLoop_ok_iff {stream rest : Stream} :
    readLoop stream r₀.clear {} = .ok (r, l, rest)
      ↔ ∃ d, ReadsTo r₀ d r l ∧ EndsBehind d stream rest := by
  constructor
  · exact ReadsTo.start.exists_of_readLoop
  · rintro ⟨d, hto, ⟨rfl, hrest⟩ | ⟨rfl, hon⟩⟩
    · rw [hto.readLoop]
      by_cases hlt : r.readBuf.length < l.maxReadLength
      · have hon := hto.reading.1.readsOn_iff.mp hlt
        rw [hrest (by rwa [← hto.reading.2])]
        rfl
      · exact readLoop_stop hlt rest
    · have hlt := hto.reading.1.readsOn_iff.mpr (by rwa [hto.reading.2])
      rw [hto.readLoop]
      show Http.readLoop (.endOfStream :: rest) r l = _
      rw [readLoop, if_pos hlt]

end

/-! ## Within a read -/

/-- A CRLF stands at this index of the buffer. -/
def CrlfAt (r : HttpRequest) (i : Nat) : Prop := [13, 10] <+: r.readBuf.drop i

/-- Where the `for` loop over `i` comes to in the read `c`, behind the reads
`d`. -/
inductive Scans (r₀ : HttpRequest) (d : List Chunk) (c : Chunk) :
    Nat → HttpRequest → ParseLocals → Prop
  | begin {r : HttpRequest} {l : ParseLocals} :
      ReadsTo r₀ d r l → r.readBuf.length < l.maxReadLength →
        l.foundRequestLine = false ∨ l.foundEndOfHeader = false →
        Scans r₀ d c l.endOfLastLine { r with readBuf := r.readBuf ++ c.val } l
  | skip {i : Nat} {r : HttpRequest} {l : ParseLocals} :
      Scans r₀ d c i r l → i + 1 < r.readBuf.length → ¬CrlfAt r i →
        Scans r₀ d c (i + 1) r l
  | line {i : Nat} {r r' : HttpRequest} {l l' : ParseLocals} :
      Scans r₀ d c i r l → CrlfAt r i → lineFound r l i = .ok (r', l') →
        l'.foundEndOfHeader = false → Scans r₀ d c (i + 2) r' (l'.nextLine i)

/-- The line whose CRLF stands at `i` is found in the read `c`, and the call
goes on behind it. -/
structure Takes (r₀ : HttpRequest) (d : List Chunk) (c : Chunk) (i : Nat) (r : HttpRequest)
    (l : ParseLocals) (r' : HttpRequest) (l' : ParseLocals) : Prop where
  scans : Scans r₀ d c i r l
  crlf : CrlfAt r i
  found : lineFound r l i = .ok (r', l')

section

variable {r₀ r : HttpRequest} {l : ParseLocals} {d : List Chunk} {c : Chunk} {i : Nat}

/-- What is known where the scan stands: behind the lines `done` and the bytes
`p` of the next one, with `s` left in the buffer. -/
structure ScanState (r₀ : HttpRequest) (d : List Chunk) (c : Chunk) (i : Nat) (r : HttpRequest)
    (l : ParseLocals) (done : List Bytes) (p s : Bytes) : Prop where
  run : ∃ r₁ l₁, ReadsTo r₀ d r₁ l₁ ∧ r₁.readBuf.length < l₁.maxReadLength
    ∧ readBytes r₁ l₁ c = scanLines s i r l
  inHead : InHead r l done
  lines : ∀ x ∈ done, NoTerminator 13 10 x
  bytes : r.readBuf = bytesOf (d ++ [c])
  size : r.readBuf.length ≤ sizeMax
  split : r.readBuf = crlfJoin done ++ (p ++ s)
  index : i = (crlfJoin done ++ p).length
  noCrlf : NoTerminator 13 10 (p ++ s.take 1)

theorem ScanState.drop_eq {done : List Bytes} {p s : Bytes}
    (h : ScanState r₀ d c i r l done p s) :
    r.readBuf.drop i = s := by
  rw [h.split, h.index, ← List.append_assoc, List.drop_left]

theorem ScanState.noCrlf_line {done : List Bytes} {p s : Bytes}
    (h : ScanState r₀ d c i r l done p s) : NoTerminator 13 10 p :=
  fun hin => h.noCrlf (hin.trans (List.prefix_append p _).isInfix)

theorem ScanState.begin (hto : ReadsTo r₀ d r l) (hlt : r.readBuf.length < l.maxReadLength)
    (hopen : l.foundRequestLine = false ∨ l.foundEndOfHeader = false) :
    ScanState r₀ d c l.endOfLastLine { r with readBuf := r.readBuf ++ c.val } l
      (crlfLines r.readBuf) [] ((splitLines 13 10 r.readBuf).2 ++ c.val) := by
  obtain ⟨hreading, hbuf⟩ := hto.reading
  have hin : InHead r l (crlfLines r.readBuf) := by
    rcases hreading.stage with hin | ⟨n, hended⟩
    · exact hin
    · rw [hended.foundRequestLine, hended.foundEndOfHeader] at hopen
      simp at hopen
  have hjoin : crlfJoin (crlfLines r.readBuf) ++ (splitLines 13 10 r.readBuf).2 = r.readBuf :=
    joinLines_splitLines r.readBuf
  have hsplit : r.readBuf ++ c.val = crlfJoin (crlfLines r.readBuf)
      ++ ((splitLines 13 10 r.readBuf).2 ++ c.val) := by rw [← List.append_assoc, hjoin]
  have hscan : readBytes r l c
      = scanLines ((r.readBuf ++ c.val).drop l.endOfLastLine) l.endOfLastLine
        { r with readBuf := r.readBuf ++ c.val } l := by
    simp [readBytes, hin.foundEndOfHeader]
  have hdrop : (r.readBuf ++ c.val).drop l.endOfLastLine
      = (splitLines 13 10 r.readBuf).2 ++ c.val := by
    rw [hsplit, hin.endOfLastLine, List.drop_left]
  rw [hdrop] at hscan
  have hlen : (r.readBuf ++ c.val).length ≤ sizeMax := by
    have hchunk := c.property.2
    rw [hin.maxReadLength] at hlt
    simp only [maxSocketReadSizeInChunks, chunkReadSize, sizeMax, List.length_append] at *
    omega
  exact
    { run := ⟨r, l, hto, hlt, hscan⟩
      inHead :=
        { body := hin.body
          endOfLastLine := hin.endOfLastLine
          foundEndOfHeader := hin.foundEndOfHeader
          maxReadLength := hin.maxReadLength
          head := hin.head
          fresh := hin.fresh }
      lines := (noTerminator_splitLines r.readBuf).1
      bytes := by rw [bytesOf_append, ← hbuf]; simp [bytesOf]
      size := hlen
      split := hsplit
      index := by rw [hin.endOfLastLine, List.append_nil]
      noCrlf := by
        intro hinfix
        have hshort := hinfix.length_le
        rw [List.nil_append, List.length_take] at hshort
        simp only [List.length_cons, List.length_nil] at hshort
        omega }

theorem ScanState.skip {done : List Bytes} {p s : Bytes} (h : ScanState r₀ d c i r l done p s)
    (hlt : i + 1 < r.readBuf.length) (hnot : ¬CrlfAt r i) :
    ∃ a s', s = a :: s' ∧ ScanState r₀ d c (i + 1) r l done (p ++ [a]) s' := by
  have hlen : s.length = r.readBuf.length - i := by rw [← h.drop_eq, List.length_drop]
  rw [CrlfAt, h.drop_eq] at hnot
  rcases s with _ | ⟨a, _ | ⟨b, s⟩⟩
  · rw [List.length_nil] at hlen
    omega
  · rw [List.length_singleton] at hlen
    omega
  · have hpair : ¬(a = 13 ∧ b = 10) := by
      rintro ⟨rfl, rfl⟩
      exact hnot (List.prefix_append [13, 10] s)
    obtain ⟨r₁, l₁, hto, hread, hscan⟩ := h.run
    rw [scanLines, if_neg hpair] at hscan
    refine ⟨a, b :: s, rfl, ?_⟩
    exact
      { run := ⟨r₁, l₁, hto, hread, hscan⟩
        inHead := h.inHead
        lines := h.lines
        bytes := h.bytes
        size := h.size
        split := by rw [h.split]; simp
        index := by rw [h.index, ← List.append_assoc]; simp [Nat.add_assoc]
        noCrlf := by
          -- a terminator would end in the last two bytes
          intro hinfix
          have hpre : p ++ [a] ++ (b :: s).take 1 = p ++ [a] ++ [b] := rfl
          rw [hpre] at hinfix
          rcases List.infix_concat_iff.mp hinfix with hsuffix | hinner
          · have hlast : [13, 10] = [a, b] := by
              apply List.IsSuffix.eq_of_length
              · rw [List.append_assoc] at hsuffix
                exact List.suffix_of_suffix_length_le hsuffix (List.suffix_append p [a, b])
                  (by simp)
              · rfl
            cases hlast
            exact hpair ⟨rfl, rfl⟩
          · exact h.noCrlf hinner }

theorem ScanState.line {done : List Bytes} {p s : Bytes} (h : ScanState r₀ d c i r l done p s)
    (hcrlf : CrlfAt r i) {r' : HttpRequest} {l' : ParseLocals}
    (hfound : lineFound r l i = .ok (r', l')) (hopen : l'.foundEndOfHeader = false) :
    ∃ s', s = 13 :: 10 :: s'
      ∧ ScanState r₀ d c (i + 2) r' (l'.nextLine i) (done ++ [p]) [] s' := by
  rw [CrlfAt, h.drop_eq] at hcrlf
  obtain ⟨s', rfl⟩ := hcrlf
  have htakes := lineFound_head h.inHead h.size h.split
  rw [TakesLine, ← h.index, hfound] at htakes
  obtain ⟨hbuf, hin | ⟨n, hended⟩⟩ := htakes
  · obtain ⟨r₁, l₁, hto, hread, hscan⟩ := h.run
    have hnext : scanLines (13 :: 10 :: s') i r l = scanLines s' (i + 2) r' (l'.nextLine i) := by
      rw [scanLines, if_pos ⟨rfl, rfl⟩, hfound]
      exact if_neg fun hend => Bool.false_ne_true (hopen ▸ hend)
    refine ⟨s', rfl, ?_⟩
    exact
      { run := ⟨r₁, l₁, hto, hread, hscan.trans hnext⟩
        inHead := hin
        lines := by
          intro x hx
          rcases List.mem_append.mp hx with hx | hx
          · exact h.lines x hx
          · obtain rfl := List.mem_singleton.mp hx
            exact h.noCrlf_line
        bytes := hbuf.trans h.bytes
        size := hbuf ▸ h.size
        split := by rw [hbuf, h.split]; simp
        index := by rw [h.index]; simp; omega
        noCrlf := by
          intro hinfix
          have hshort := hinfix.length_le
          rw [List.nil_append, List.length_take] at hshort
          simp only [List.length_cons, List.length_nil] at hshort
          omega }
  · rw [hended.foundEndOfHeader] at hopen
    cases hopen

/-- **Where the scan stands** it has taken all lines before, and the bytes
behind the last of them hold no further one. -/
theorem Scans.state (h : Scans r₀ d c i r l) :
    ∃ done p s, ScanState r₀ d c i r l done p s := by
  induction h with
  | begin hto hlt hopen => exact ⟨_, _, _, .begin hto hlt hopen⟩
  | skip _ hlt hnot ih =>
      obtain ⟨done, p, s, hstate⟩ := ih
      obtain ⟨a, s', -, hnext⟩ := hstate.skip hlt hnot
      exact ⟨_, _, _, hnext⟩
  | line _ hcrlf hfound hopen ih =>
      obtain ⟨done, p, s, hstate⟩ := ih
      obtain ⟨s', -, hnext⟩ := hstate.line hcrlf hfound hopen
      exact ⟨_, _, _, hnext⟩

/-- A line on which `lineFound` fails makes the call return 1. -/
theorem Scans.fails (h : Scans r₀ d c i r l) (hcrlf : CrlfAt r i) {r' : HttpRequest}
    (hfound : lineFound r l i = .error r') (rest : Stream) :
    httpRequestParse r₀ (deliver (d ++ [c]) ++ rest) = .returned 1 r' rest := by
  obtain ⟨done, p, s, hstate⟩ := h.state
  obtain ⟨r₁, l₁, hto, hlt, hscan⟩ := hstate.run
  rw [CrlfAt, hstate.drop_eq] at hcrlf
  obtain ⟨s', rfl⟩ := hcrlf
  have herror : scanLines (13 :: 10 :: s') i r l = .error r' := by
    rw [scanLines, if_pos ⟨rfl, rfl⟩, hfound]
  have hloop : readLoop (deliver (d ++ [c]) ++ rest) r₀.clear {} = .error (r', rest) := by
    rw [deliver, List.map_append, List.append_assoc, ← deliver, hto.readLoop]
    show readLoop (.bytes c :: rest) r₁ l₁ = _
    rw [readLoop, if_pos hlt, hscan.trans herror]
  rw [httpRequestParse, hloop]

/-! ## Which lines are found -/

/-- The scan goes over the bytes of a line. -/
theorem Scans.skips (h : Scans r₀ d c i r l) {p s : Bytes}
    (hdrop : r.readBuf.drop i = p ++ 13 :: 10 :: s) (hp : NoTerminator 13 10 p) :
    Scans r₀ d c (i + p.length) r l := by
  induction p generalizing i with
  | nil => exact h
  | cons a p ih =>
      have hlen := congrArg List.length hdrop
      simp only [List.length_drop, List.length_append, List.length_cons] at hlen
      have hnot : ¬CrlfAt r i := by
        rw [CrlfAt, hdrop]
        intro hpre
        cases p with
        | nil => simp at hpre
        | cons b p =>
            apply hp
            have hpair : [13, 10] <+: a :: b :: p := by simpa using hpre
            exact hpair.isInfix
      have hnext := ih (i := i + 1) (h.skip (by omega) hnot)
        (by rw [← List.drop_drop, hdrop]; rfl)
        fun hin => hp (hin.trans (List.suffix_cons a p).isInfix)
      rw [List.length_cons, Nat.add_comm p.length, ← Nat.add_assoc]
      exact hnext

/-- The lines read so far do not end the head. -/
def Head.Open : Head → Prop
  | .start | .fields _ _ _ => True
  | .ended _ _ _ _ | .failed => False

theorem Head.Open.of_append {ls ls' : List Bytes} (h : (headOf (ls ++ ls')).Open) :
    (headOf ls).Open := by
  rw [headOf_append] at h
  cases hhead : headOf ls with
  | start => trivial
  | fields m u fs => trivial
  | ended m u fs n =>
      rw [hhead, foldl_ended] at h
      exact h
  | failed =>
      rw [hhead, foldl_failed] at h
      exact h

theorem Head.Open.readsOn_iff {b : Bytes} (h : (headOf (crlfLines b)).Open) :
    ReadsOn b ↔ b.length < maxSocketReadSize := by
  unfold ReadsOn
  cases hhead : headOf (crlfLines b) with
  | start | fields _ _ _ => exact Iff.rfl
  | ended _ _ _ _ | failed =>
      rw [hhead] at h
      exact h.elim

theorem Reading.foundEndOfHeader_of_open (h : Reading r l)
    (hopen : (headOf (crlfLines r.readBuf)).Open) : l.foundEndOfHeader = false := by
  rcases h.stage with hin | ⟨n, hended⟩
  · exact hin.foundEndOfHeader
  · rw [hended.head] at hopen
    exact hopen.elim

/-- The shortest beginning of a list that has a property. -/
theorem exists_first_prefix {α : Type} {P : List α → Prop} {x : List α} (hx : P x) :
    ∃ pre post, x = pre ++ post ∧ P pre ∧ ∀ a b, pre = a ++ b → b ≠ [] → ¬P a := by
  induction hlen : x.length using Nat.strong_induction_on generalizing x with
  | _ n ih =>
      by_cases hshorter : ∃ a b, x = a ++ b ∧ b ≠ [] ∧ P a
      · obtain ⟨a, b, rfl, hb, ha⟩ := hshorter
        have hlt : a.length < n := by
          have := List.length_pos_iff.mpr hb
          rw [← hlen, List.length_append]
          omega
        obtain ⟨pre, post, rfl, hpre, hfirst⟩ := ih a.length hlt ha rfl
        exact ⟨pre, post ++ b, by simp, hpre, hfirst⟩
      · exact ⟨x, [], (List.append_nil x).symm, hx,
          fun a b hab hb ha => hshorter ⟨a, b, hab, hb, ha⟩⟩

/-- From the start of a line, the scan comes to the end of a later one. -/
theorem Scans.lines {done ls : List Bytes} {line t : Bytes} (h : Scans r₀ d c i r l)
    (hin : InHead r l done) (hi : i = (crlfJoin done).length) (hsize : r.readBuf.length ≤ sizeMax)
    (hbuf : r.readBuf = crlfJoin done ++ (crlfJoin ls ++ (line ++ 13 :: 10 :: t)))
    (hno : ∀ x ∈ line :: ls, NoTerminator 13 10 x) (hopen : (headOf (done ++ ls)).Open) :
    ∃ r' l', Scans r₀ d c (crlfJoin (done ++ ls) ++ line).length r' l'
      ∧ InHead r' l' (done ++ ls) ∧ r'.readBuf = r.readBuf := by
  induction ls generalizing i r l done with
  | nil =>
      have hdrop : r.readBuf.drop i = line ++ 13 :: 10 :: t := by
        rw [hbuf, hi, List.drop_left]
        rfl
      have hend := h.skips hdrop (hno line List.mem_cons_self)
      refine ⟨r, l, ?_, by rw [List.append_nil]; exact hin, rfl⟩
      rwa [List.append_nil, List.length_append, ← hi]
  | cons p ls ih =>
      have hdrop : r.readBuf.drop i
          = p ++ 13 :: 10 :: (crlfJoin ls ++ (line ++ 13 :: 10 :: t)) := by
        rw [hbuf, hi, List.drop_left]
        simp
      have hbuf' : r.readBuf
          = crlfJoin done ++ (p ++ 13 :: 10 :: (crlfJoin ls ++ (line ++ 13 :: 10 :: t))) := by
        rw [hbuf]
        simp
      have hend := h.skips hdrop (hno p (by simp))
      have hcrlf : CrlfAt r (i + p.length) := by
        rw [CrlfAt, ← List.drop_drop, hdrop, List.drop_left]
        exact List.prefix_append [13, 10] _
      have hnext : (headOf (done ++ [p])).Open := by
        rw [← List.singleton_append, ← List.append_assoc] at hopen
        exact hopen.of_append
      have htakes := lineFound_head hin hsize hbuf'
      have hindex : (crlfJoin done ++ p).length = i + p.length := by
        rw [List.length_append, hi]
      rw [TakesLine, hindex] at htakes
      cases hfound : lineFound r l (i + p.length) with
      | error r' =>
          rw [hfound] at htakes
          rw [htakes] at hnext
          exact hnext.elim
      | ok q =>
          obtain ⟨r', l'⟩ := q
          rw [hfound] at htakes
          obtain ⟨hkept, hin' | ⟨n, hended⟩⟩ := htakes
          · have hscan := hend.line hcrlf hfound hin'.foundEndOfHeader
            have hlast := ih hscan hin' (by simp [hi]; omega) (hkept ▸ hsize)
              (by rw [hkept, hbuf]; simp)
              (fun x hx => hno x (by
                rcases List.mem_cons.mp hx with rfl | hx
                · exact List.mem_cons_self
                · simp [hx]))
              (by rw [List.append_assoc]; exact hopen)
            rw [List.append_assoc] at hlast
            obtain ⟨r₂, l₂, hscan₂, hin₂, hbuf₂⟩ := hlast
            exact ⟨r₂, l₂, hscan₂, hin₂, hbuf₂.trans hkept⟩
          · rw [hended.head] at hnext
            exact hnext.elim

/-- The reads `d` and `c` bring the lines `done` and `line`, and the CRLF of
the last one is complete with `c` only; `t` is what comes with it. -/
structure Brings (d : List Chunk) (c : Chunk) (done : List Bytes) (line t : Bytes) : Prop where
  bytes : bytesOf (d ++ [c]) = crlfJoin done ++ (line ++ 13 :: 10 :: t)
  noCrlf : ∀ x ∈ line :: done, NoTerminator 13 10 x
  short : (bytesOf d).length < (crlfJoin done ++ line).length + 2

section

variable {done : List Bytes} {line t : Bytes}

/-- What the earlier reads bring are the first of these lines. -/
theorem Brings.split (h : Brings d c done line t) :
    ∃ ls, done = crlfLines (bytesOf d) ++ ls
      ∧ (splitLines 13 10 (bytesOf d)).2 ++ c.val = crlfJoin ls ++ (line ++ 13 :: 10 :: t) := by
  have hbytes : bytesOf d ++ c.val = crlfJoin done ++ (line ++ 13 :: 10 :: t) := by
    have := h.bytes
    rw [bytesOf_append] at this
    simpa [bytesOf] using this
  have hjoin : crlfJoin (crlfLines (bytesOf d)) ++ (splitLines 13 10 (bytesOf d)).2 = bytesOf d :=
    joinLines_splitLines (bytesOf d)
  have hall : crlfLines (bytesOf d ++ c.val) = done ++ line :: crlfLines t := by
    have hlines : crlfJoin done ++ (line ++ 13 :: 10 :: t) = crlfJoin (done ++ [line]) ++ t := by
      simp
    rw [hbytes, hlines]
    have hlines' : ∀ x ∈ done ++ [line], NoTerminator 13 10 x := by
      intro x hx
      exact h.noCrlf x (by simpa [or_comm] using hx)
    have hsplit := splitLines_joinLines (by decide) hlines' t
    exact (congrArg Prod.fst hsplit).trans (by simp [crlfLines])
  rw [crlfLines_append] at hall
  obtain ⟨ls, hdone, -⟩ | ⟨ls, hmore, hrest⟩ := List.append_eq_append_iff.mp hall
  · refine ⟨ls, hdone, ?_⟩
    rw [← hjoin, hdone, crlfJoin_append, List.append_assoc, List.append_assoc] at hbytes
    exact List.append_cancel_left hbytes
  · cases ls with
    | nil =>
        rw [List.append_nil] at hmore
        refine ⟨[], by rw [hmore, List.append_nil], ?_⟩
        rw [← hjoin, hmore, List.append_assoc] at hbytes
        exact List.append_cancel_left hbytes
    | cons x ls =>
        -- the last line would have been complete before
        obtain rfl : line = x := (List.cons.inj hrest).1
        have hlen := congrArg List.length hjoin
        have hshort := h.short
        rw [hmore] at hlen
        simp at hlen hshort
        omega

/-- Every part of the earlier reads is in the open head. -/
theorem Brings.open_parts (h : Brings d c done line t) (hopen : (headOf done).Open)
    {pre post : List Chunk} (hsplit : d = pre ++ post) :
    (headOf (crlfLines (bytesOf pre))).Open := by
  obtain ⟨ls, hdone, -⟩ := h.split
  have hlines : crlfLines (bytesOf d) = crlfLines (bytesOf pre)
      ++ crlfLines ((splitLines 13 10 (bytesOf pre)).2 ++ bytesOf post) := by
    rw [hsplit, bytesOf_append, crlfLines_append]
  rw [hdone, hlines, List.append_assoc] at hopen
  exact hopen.of_append

/-- **A line that is brought is found** if the limit is not reached before and
the lines in front of it do not end the head. -/
theorem Brings.exists_scans (h : Brings d c done line t) (r₀ : HttpRequest)
    (hopen : (headOf done).Open) (hlt : (bytesOf d).length < maxSocketReadSize) :
    ∃ r l, Scans r₀ d c (crlfJoin done ++ line).length r l ∧ InHead r l done
      ∧ r.readBuf = bytesOf (d ++ [c]) := by
  have hreads : ∀ pre post, d = pre ++ post → ReadsOn (bytesOf pre) := by
    intro pre post hsplit
    rw [(h.open_parts hopen hsplit).readsOn_iff]
    rw [hsplit, bytesOf_append, List.length_append] at hlt
    omega
  have hwhole := hreads d [] (List.append_nil d).symm
  obtain ⟨r, l, hto⟩ := exists_readsTo r₀ (fun pre post hsplit _ => hreads pre post hsplit)
    hwhole.not_failed
  obtain ⟨hreading, hbuf⟩ := hto.reading
  have hread := hreading.readsOn_iff.mpr (hbuf ▸ hwhole)
  have hend : l.foundEndOfHeader = false :=
    hreading.foundEndOfHeader_of_open (hbuf ▸ h.open_parts hopen (List.append_nil d).symm)
  have hbegin := Scans.begin (c := c) hto hread (.inr hend)
  have hstate := ScanState.begin (c := c) hto hread (.inr hend)
  obtain ⟨ls, rfl, htail⟩ := h.split
  have hindex := hstate.index
  have hsplit : r.readBuf ++ c.val
      = crlfJoin (crlfLines (bytesOf d)) ++ (crlfJoin ls ++ (line ++ 13 :: 10 :: t)) := by
    rw [← htail, ← hbuf]
    exact hstate.split
  rw [List.append_nil, hbuf] at hindex
  obtain ⟨r', l', hscan, hin, hkept⟩ := hbegin.lines (hbuf ▸ hstate.inHead) hindex hstate.size
    hsplit (fun x hx => h.noCrlf x (by
      rcases List.mem_cons.mp hx with rfl | hx
      · exact List.mem_cons_self
      · simp [hx])) hopen
  exact ⟨r', l', hscan, hin, hkept.trans hstate.bytes⟩

/-- Where the scan has come to the end of the line, it has taken the lines in
front of it. -/
theorem Brings.found (h : Brings d c done line t)
    (hscan : Scans r₀ d c (crlfJoin done ++ line).length r l) :
    InHead r l done ∧ r.readBuf = crlfJoin done ++ (line ++ 13 :: 10 :: t)
      ∧ r.readBuf.length ≤ sizeMax := by
  obtain ⟨done', p, s, hstate⟩ := hscan.state
  have hbytes := hstate.bytes.trans h.bytes
  have hsplit : crlfJoin done' ++ p ++ s = crlfJoin done ++ line ++ 13 :: 10 :: t := by
    rw [List.append_assoc, List.append_assoc, ← hstate.split, hbytes]
  obtain ⟨hsame, -⟩ := List.append_inj hsplit hstate.index.symm
  have hlines : ∀ (ls : List Bytes) (x : Bytes), (∀ y ∈ ls, NoTerminator 13 10 y) →
      NoTerminator 13 10 x → splitLines 13 10 (crlfJoin ls ++ x) = (ls, x) := by
    intro ls x hls hx
    rw [crlfJoin, splitLines_joinLines (by decide) hls, splitLines_of_noTerminator hx,
      List.append_nil]
  have hdone := hlines done' p hstate.lines hstate.noCrlf_line
  rw [hsame, hlines done line (fun x hx => h.noCrlf x (List.mem_cons_of_mem line hx))
    (h.noCrlf line List.mem_cons_self)] at hdone
  obtain rfl : done = done' := congrArg Prod.fst hdone
  exact ⟨hstate.inHead, hbytes, hstate.size⟩

/-- The call returns 1 on a line that the head fails on, or before it gets
there. -/
theorem Brings.returns_one (h : Brings d c done line t) (r₀ : HttpRequest)
    (hopen : (headOf done).Open) (hfailed : headOf (done ++ [line]) = .failed) (rest : Stream) :
    ∃ r' left, httpRequestParse r₀ (deliver (d ++ [c]) ++ rest) = .returned 1 r' left := by
  by_cases hlt : (bytesOf d).length < maxSocketReadSize
  · obtain ⟨r, l, hscan, hin, -⟩ := h.exists_scans r₀ hopen hlt
    obtain ⟨-, hbuf, hsize⟩ := h.found hscan
    have hcrlf : CrlfAt r (crlfJoin done ++ line).length := by
      rw [CrlfAt, hbuf, ← List.append_assoc, List.drop_left]
      exact List.prefix_append [13, 10] t
    have htakes := lineFound_head hin hsize hbuf
    rw [TakesLine] at htakes
    cases hfound : lineFound r l (crlfJoin done ++ line).length with
    | error r' => exact ⟨r', rest, hscan.fails hcrlf hfound rest⟩
    | ok p =>
        rw [hfound] at htakes
        obtain ⟨-, hnext | ⟨n, hended⟩⟩ := htakes
        · have hhead := hnext.head
          rw [hfailed] at hhead
          split at hhead <;> cases hhead
        · have hhead := hended.head
          rw [hfailed] at hhead
          cases hhead
  · -- the loop has stopped at the first read past the limit
    obtain ⟨pre, post, hsplit, hge, hfirst⟩ :=
      exists_first_prefix (P := fun d => ¬(bytesOf d).length < maxSocketReadSize) hlt
    have hpart := h.open_parts hopen hsplit
    have hreads : ∀ a b, pre = a ++ b → b ≠ [] → ReadsOn (bytesOf a) := by
      intro a b hab hb
      have ha : d = a ++ (b ++ post) := by rw [hsplit, hab, List.append_assoc]
      exact (h.open_parts hopen ha).readsOn_iff.mpr (not_not.mp (hfirst a b hab hb))
    have hok : headOf (crlfLines (bytesOf pre)) ≠ .failed := by
      intro hhead
      rw [hhead] at hpart
      exact hpart
    obtain ⟨r, l, hto⟩ := exists_readsTo r₀ hreads hok
    obtain ⟨hreading, hbuf⟩ := hto.reading
    have hend := hreading.foundEndOfHeader_of_open (hbuf ▸ hpart)
    have hstop : ¬r.readBuf.length < l.maxReadLength := by
      rw [hreading.readsOn_iff, hbuf, hpart.readsOn_iff]
      exact hge
    have hloop : readLoop (deliver (d ++ [c]) ++ rest) r₀.clear {}
        = .ok (r, l, deliver (post ++ [c]) ++ rest) := by
      rw [hsplit, List.append_assoc, deliver, List.map_append, List.append_assoc, ← deliver,
        hto.readLoop]
      exact readLoop_stop hstop _
    refine ⟨r, deliver (post ++ [c]) ++ rest, ?_⟩
    rw [httpRequestParse, hloop]
    simp only [hend, Bool.not_false, if_true]

/-- A line that is found has been reached before the limit. -/
theorem Scans.lt_maxSocketReadSize (h : Scans r₀ d c i r l) :
    (bytesOf d).length < maxSocketReadSize := by
  induction h with
  | begin hto hlt hopen =>
      have hstate := ScanState.begin (c := c) hto hlt hopen
      rw [hto.reading.2, hstate.inHead.maxReadLength] at hlt
      exact hlt
  | skip _ _ _ ih => exact ih
  | line _ _ _ _ ih => exact ih

end

end

end CWebServer.Http
