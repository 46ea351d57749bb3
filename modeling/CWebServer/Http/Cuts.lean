import CWebServer.Http.Framing

/-!
# Http — Cuts

The same bytes in two deliveries. A complete request is accepted under the
second one as well, with the same result, exactly if none of its reads ends
where the loop stops too early: past the limit on the head, or within the
last two bytes of the request, since the bound for the body is set from the
index of the empty line and not from the start of the body.
-/

namespace CWebServer.Http

open CWebServer.Strings CWebServer.Lib

/-- Reads that all get bytes. -/
def deliver (d : List Chunk) : Stream := d.map .bytes

def bytesOf (d : List Chunk) : Bytes := d.flatMap (·.val)

/-- A read that ends behind `t` bytes of the request `m` is taken for the
last one although it is not. -/
def StopsAt (m : Bytes) (t : Nat) : Prop :=
  maxSocketReadSizeInChunks * chunkReadSize ≤ t ∧ t < headLength m
    ∨ headLength m ≤ t ∧ m.length ≤ t + 2

/-- No read but the last one ends at such a place. -/
def CutsAllowed (m : Bytes) (d : List Chunk) : Prop :=
  ∀ pre post, d = pre ++ post → post ≠ [] → ¬ StopsAt m (bytesOf pre).length

/-- What a caller reads from a parsed request. -/
def SameRequest (r r' : HttpRequest) : Prop :=
  r.method = r'.method ∧ r.uri = r'.uri ∧ r.headers.toList = r'.headers.toList
    ∧ r.body = r'.body

@[simp] theorem received_deliver (d : List Chunk) : received (deliver d) = bytesOf d := by
  induction d with
  | nil => rfl
  | cons c d ih => rw [deliver, List.map_cons, received_bytes, ← deliver, ih]; rfl

@[simp] theorem bytesOf_append (d d' : List Chunk) : bytesOf (d ++ d') = bytesOf d ++ bytesOf d' :=
  List.flatMap_append

theorem bytesOf_ne_nil {d : List Chunk} (h : d ≠ []) : 0 < (bytesOf d).length := by
  cases d with
  | nil => exact absurd rfl h
  | cons c d =>
      have hc := c.property.1
      rw [bytesOf, List.flatMap_cons, List.length_append]
      omega

/-! ## A complete request -/

/-- `m` is a whole request, and the loop bound for its body is what the code
computes without wrapping around. -/
structure Complete (m method uri : Bytes) (fs : Fields) (n : Option Nat) : Prop where
  head : headOf (crlfLines m) = .ended method uri fs n
  length : m.length = headLength m + n.getD 0
  bound : ∀ k, n = some k → (headLength m - 2 + k) % 2 ^ 64 = m.length - 2

/-- A request that some run accepts is complete. -/
theorem complete_of_accepted {r r' : HttpRequest} {stream rest : Stream}
    (h : httpRequestParse r stream = .returned 0 r' rest) :
    ∃ used n, stream = used ++ rest
      ∧ Complete (received used) r'.method r'.uri r'.headers.toList n
      ∧ r'.body = (received used).drop (headLength (received used))
      ∧ (requestToString r').isSome := by
  obtain ⟨r₁, l, hloop, hend, ⟨text, htext, rfl⟩, hlen⟩ := httpRequestParse_zero h
  obtain ⟨hreading, used, hs, hbuf⟩ := readLoop_reading (reading_initial r) hloop
  rw [HttpRequest.clear, List.nil_append] at hbuf
  rcases hreading.stage with hin | ⟨n, hended⟩
  · rw [hin.foundEndOfHeader] at hend
    cases hend
  · have hstart : l.startOfBody = headLength r₁.readBuf := hended.startOfBody
    obtain ⟨-, -, -, hle, -⟩ := data_of_ended hended.head
    have hlength : r₁.readBuf.length = headLength r₁.readBuf + n.getD 0 := by
      rw [hended.expectedContentLength, hstart] at hlen
      simp only [hended.body, List.nil_append, List.length_drop] at hlen
      omega
    refine ⟨used, n, hs, ⟨?_, ?_, ?_⟩, ?_, ?_⟩
    · rw [← hbuf]
      exact hended.head
    · rw [← hbuf]
      exact hlength
    · -- a bound that wraps around would have ended the loop long before
      intro k hk
      have hbound := hended.maxReadLength
      have hsize := hreading.size
      have htwo : 2 ≤ headLength r₁.readBuf := Nat.le_add_left 2 _
      rw [hk, bodyBound, hstart] at hbound
      rw [hk, Option.getD_some] at hlength
      rw [hbound] at hsize
      simp only [maxSocketReadSizeInChunks, chunkReadSize] at hsize
      rw [← hbuf]
      omega
    · rw [← hbuf, ← hstart, hended.body, List.nil_append]
    · exact Option.isSome_iff_exists.mpr ⟨text, htext⟩

/-- A text that a longer one only completes is shorter than its head. -/
theorem length_lt_headLength {b x : Bytes} (hopen : [] ∉ crlfLines b)
    (hm : [] ∈ crlfLines (b ++ x)) : b.length < headLength (b ++ x) := by
  have hjoin : crlfJoin (crlfLines b) ++ (splitLines 13 10 b).2 = b := joinLines_splitLines b
  have htail := (noTerminator_splitLines (c := 13) (d := 10) b).2
  rw [crlfLines_append] at hm
  rw [headLength, crlfLines_append]
  generalize (splitLines 13 10 b).2 = t at hjoin htail hm
  have hjoin' : crlfJoin (crlfLines (t ++ x)) ++ (splitLines 13 10 (t ++ x)).2 = t ++ x :=
    joinLines_splitLines (t ++ x)
  rw [List.takeWhile_append_of_pos fun y hy => by
    simpa using fun he : y = [] => hopen (he ▸ hy)]
  cases hls : crlfLines (t ++ x) with
  | nil =>
      rw [hls, List.append_nil] at hm
      exact absurd hm hopen
  | cons y ls =>
      -- the tail ends before the terminator of the next line
      have hshort : t.length < y.length + 2 := by
        by_contra hlong
        have hpre : y ++ [13, 10] <+: t := by
          refine List.prefix_of_prefix_length_le ?_ (List.prefix_append t x) ?_
          · rw [← hjoin', hls, crlfJoin_cons]
            exact ⟨crlfJoin ls ++ (splitLines 13 10 (t ++ x)).2, by simp⟩
          · simp only [List.length_append, List.length_cons, List.length_nil]
            omega
        exact htail ((List.suffix_append y [13, 10]).isInfix.trans hpre.isInfix)
      have hnext : y.length ≤ (crlfJoin ((y :: ls).takeWhile (· ≠ []))).length := by
        cases y with
        | nil => exact Nat.zero_le _
        | cons c y => simp
      rw [crlfJoin_append, List.length_append]
      have hlen := congrArg List.length hjoin
      rw [List.length_append] at hlen
      omega

section Delivered

variable {m method uri : Bytes} {fs : Fields} {n : Option Nat}

/-- In the middle of a complete request, the state is that of its head. -/
theorem Complete.ended (hm : Complete m method uri fs n) {r : HttpRequest} {l : ParseLocals}
    {x : Bytes} (hx : m = r.readBuf ++ x) {k : Option Nat}
    (h : Ended r l (crlfLines r.readBuf) k) :
    k = n ∧ r.method = method ∧ r.uri = uri ∧ r.headers.toList = fs
      ∧ l.startOfBody = headLength m ∧ headLength m ≤ r.readBuf.length := by
  have happend := h.append (crlfLines ((splitLines 13 10 r.readBuf).2 ++ x))
  rw [← crlfLines_append, ← hx] at happend
  have hstart : l.startOfBody = headLength r.readBuf := h.startOfBody
  have hstart' : l.startOfBody = headLength m := happend.startOfBody
  obtain ⟨-, -, -, hle, -⟩ := data_of_ended h.head
  have hhead := happend.head
  rw [hm.head] at hhead
  obtain ⟨hme, hu, hfs, hn⟩ := Head.ended.inj hhead
  exact ⟨hn.symm, hme.symm, hu.symm, hfs.symm, hstart', by rw [← hstart', hstart]; exact hle⟩

theorem Complete.inHead (hm : Complete m method uri fs n) {r : HttpRequest} {l : ParseLocals}
    {x : Bytes} (hx : m = r.readBuf ++ x) (h : InHead r l (crlfLines r.readBuf)) :
    r.readBuf.length < headLength m := by
  have hopen : [] ∉ crlfLines r.readBuf := by
    have hhead := h.head
    split at hhead
    · exact headOf_fields hhead
    · rw [headOf_eq_start hhead]
      simp
  rw [hx]
  apply length_lt_headLength hopen
  obtain ⟨line, lines, more, hls, -⟩ := headOf_ended hm.head
  rw [← hx, hls]
  simp

/-- **The loop goes on** behind a part of a complete request exactly if the
part may end there. -/
theorem Complete.continues_iff (hm : Complete m method uri fs n) {r : HttpRequest}
    {l : ParseLocals} (h : Reading r l) {x : Bytes} (hx : m = r.readBuf ++ x) (hne : x ≠ []) :
    r.readBuf.length < l.maxReadLength ↔ ¬ StopsAt m r.readBuf.length := by
  have hlen : m.length = r.readBuf.length + x.length := by rw [hx, List.length_append]
  have hpos := List.length_pos_of_ne_nil hne
  rw [StopsAt]
  rcases h.stage with hin | ⟨k, hended⟩
  · have hlt := hm.inHead hx hin
    rw [hin.maxReadLength]
    omega
  · obtain ⟨rfl, -, -, -, hstart, hle⟩ := hm.ended hx hended
    have hlength := hm.length
    cases k with
    | none =>
        rw [Option.getD_none] at hlength
        omega
    | some k =>
        rw [hended.maxReadLength, bodyBound, hstart, hm.bound k rfl]
        omega

/-- At the end of the request the loop stops. -/
theorem Complete.stop (hm : Complete m method uri fs n) {r : HttpRequest} {l : ParseLocals}
    (h : Reading r l) (hx : r.readBuf = m) : ¬ r.readBuf.length < l.maxReadLength := by
  have hx' : m = r.readBuf ++ [] := by rw [hx, List.append_nil]
  rcases h.stage with hin | ⟨k, hended⟩
  · have hlt := hm.inHead hx' hin
    have hlength := hm.length
    rw [hx] at hlt
    omega
  · obtain ⟨rfl, -, -, -, hstart, -⟩ := hm.ended hx' hended
    rw [hended.maxReadLength, hstart, hx]
    cases k with
    | none => exact Nat.lt_irrefl _
    | some k =>
        rw [bodyBound, hm.bound k rfl]
        omega

/-- **The loop over a delivery** of what is left of a complete request reads
up to the first place where it stops. -/
theorem Complete.readLoop (hm : Complete m method uri fs n) (rest : Stream) (d : List Chunk)
    {r : HttpRequest} {l : ParseLocals} (h : Reading r l) (hx : m = r.readBuf ++ bytesOf d) :
    ∃ r' l' pre post, d = pre ++ post
      ∧ Http.readLoop (deliver d ++ rest) r l = .ok (r', l', deliver post ++ rest)
      ∧ Reading r' l' ∧ r'.readBuf = r.readBuf ++ bytesOf pre
      ∧ (post ≠ [] → StopsAt m r'.readBuf.length)
      ∧ ∀ pre' post', pre = pre' ++ post' → post' ≠ [] →
        ¬ StopsAt m (r.readBuf ++ bytesOf pre').length := by
  induction d generalizing r l with
  | nil =>
      have hall : r.readBuf = m := by rw [hx]; simp [bytesOf]
      refine ⟨r, l, [], [], rfl, readLoop_stop (hm.stop h hall) _, h, by simp [bytesOf],
        by simp, ?_⟩
      intro pre' post' hpre hpost
      exact absurd (List.append_eq_nil_iff.mp hpre.symm).2 hpost
  | cons c d ih =>
      have hne : bytesOf (c :: d) ≠ [] := List.ne_nil_of_length_pos (bytesOf_ne_nil (by simp))
      have hgo := hm.continues_iff h hx hne
      by_cases hlt : r.readBuf.length < l.maxReadLength
      · have hread := readBytes_reading h hlt c
        have hx₁ : m = (r.readBuf ++ c.val) ++ bytesOf d := by
          rw [hx, List.append_assoc]
          rfl
        cases hbytes : readBytes r l c with
        | error r₁ =>
            -- a failure in a part of the request would be one in the whole
            rw [hbytes] at hread
            have hhead := hm.head
            rw [hx₁, crlfLines_append, headOf_append, hread, foldl_failed] at hhead
            cases hhead
        | ok p =>
            obtain ⟨r₁, l₁⟩ := p
            rw [hbytes] at hread
            obtain ⟨hbuf, hnext⟩ := hread
            obtain ⟨r', l', pre, post, hd, hloop, hfinal, hbuf', hstop, hall⟩ :=
              ih hnext (by rw [hbuf]; exact hx₁)
            refine ⟨r', l', c :: pre, post, by rw [hd]; rfl, ?_, hfinal, ?_, hstop, ?_⟩
            · rw [deliver, List.map_cons, List.cons_append, Http.readLoop, if_pos hlt, hbytes]
              exact hloop
            · rw [hbuf', hbuf, List.append_assoc]
              rfl
            · intro pre' post' hpre hpost
              cases pre' with
              | nil =>
                  have := hgo.mp hlt
                  simpa [bytesOf] using this
              | cons c' pre' =>
                  obtain ⟨rfl, hpre₁⟩ := List.cons.inj hpre
                  have := hall pre' post' hpre₁ hpost
                  rw [hbuf, List.append_assoc] at this
                  exact this
      · refine ⟨r, l, [], c :: d, rfl, readLoop_stop hlt _, h, by simp [bytesOf], ?_, ?_⟩
        · intro _
          exact not_not.mp fun hs => hlt (hgo.mpr hs)
        · intro pre' post' hpre hpost
          exact absurd (List.append_eq_nil_iff.mp hpre.symm).2 hpost

end Delivered

/-! ## Two deliveries -/

/-- The text of the last log line depends on what a caller reads only. -/
theorem requestToString_congr {r r' : HttpRequest} (h : SameRequest r r') :
    requestToString r = requestToString r' := by
  obtain ⟨hm, hu, hfs, hb⟩ := h
  simp only [requestToString, httpHeadersToString_eq, hm, hu, hfs, hb]

/-- How a run over a delivery of a complete request returns 0: it reads it
all. -/
theorem Complete.parse {m method uri body : Bytes} {fs : Fields} {n : Option Nat}
    (hm : Complete m method uri fs n) (hbody : body = m.drop (headLength m))
    {r r₁ : HttpRequest}
    (hr₁ : r₁.method = method ∧ r₁.uri = uri ∧ r₁.headers.toList = fs
      ∧ r₁.body = body)
    (htext : (requestToString r₁).isSome)
    {d : List Chunk} (hd : bytesOf d = m) (rest : Stream) :
    (CutsAllowed m d → ∃ r₂, httpRequestParse r (deliver d ++ rest) = .returned 0 r₂ rest
      ∧ SameRequest r₁ r₂)
      ∧ ∀ r₂ rest', httpRequestParse r (deliver d ++ rest) = .returned 0 r₂ rest' →
        CutsAllowed m d := by
  obtain ⟨r', l', pre, post, hsplit, hloop, hreading, hbuf, hstop, hall⟩ :=
    hm.readLoop rest d (reading_initial r) hd.symm
  rw [HttpRequest.clear, List.nil_append] at hbuf
  have hm' : m = r'.readBuf ++ bytesOf post := by rw [hbuf, ← hd, hsplit, bytesOf_append]
  constructor
  · intro hcuts
    -- the loop cannot have stopped early
    have hpost : post = [] := by
      by_contra hne
      exact hcuts pre post hsplit hne (hbuf ▸ hstop hne)
    subst hpost
    have hlen := hm.length
    have hx : m = r'.readBuf ++ [] := hm'
    rcases hreading.stage with hin | ⟨k, hended⟩
    · have hlt := hm.inHead hx hin
      rw [List.append_nil] at hx
      rw [← hx] at hlt
      omega
    · obtain ⟨rfl, hme, hu, hfs, hstart, -⟩ := hm.ended hx hended
      rw [List.append_nil] at hx
      let r₂ : HttpRequest := { r' with body := r'.body ++ r'.readBuf.drop l'.startOfBody }
      have hbody₂ : r₂.body = body := by
        rw [hbody, ← hstart, hx]
        simp [r₂, hended.body]
      have hsame : SameRequest r₁ r₂ :=
        ⟨hr₁.1.trans hme.symm, hr₁.2.1.trans hu.symm, hr₁.2.2.1.trans hfs.symm,
          hr₁.2.2.2.trans hbody₂.symm⟩
      obtain ⟨text, htext₂⟩ :=
        Option.isSome_iff_exists.mp (requestToString_congr hsame ▸ htext)
      have hlength : ¬ r₂.body.length ≠ l'.expectedContentLength := by
        rw [hbody₂, hbody, hended.expectedContentLength, List.length_drop]
        omega
      refine ⟨{ r₂ with scratch := text }, ?_, hsame⟩
      simp only [httpRequestParse, hloop, hended.foundEndOfHeader, Bool.not_true,
        Bool.false_eq_true, if_false]
      simp only [r₂] at htext₂ hlength
      rw [htext₂]
      simp only [if_neg hlength]
      rfl
  · intro r₂ rest' hzero
    obtain ⟨r₃, l₃, hloop₃, hend, ⟨text, -, rfl⟩, hlen₃⟩ :=
      httpRequestParse_zero hzero
    rw [hloop] at hloop₃
    obtain ⟨rfl, rfl, -⟩ : r' = r₃ ∧ l' = l₃ ∧ deliver post ++ rest = rest' := by
      simpa using hloop₃
    have hpost : post = [] := by
      by_contra hne
      -- the body would be too short
      have hmore := bytesOf_ne_nil hne
      have hlen := congrArg List.length hm'
      rw [List.length_append] at hlen
      rcases hreading.stage with hin | ⟨k, hended⟩
      · rw [hin.foundEndOfHeader] at hend
        cases hend
      · obtain ⟨rfl, -, -, -, hstart, hle⟩ := hm.ended hm' hended
        have hlength := hm.length
        simp only [hended.body, hended.expectedContentLength, hstart, List.nil_append,
          List.length_drop] at hlen₃
        omega
    subst hpost
    rw [List.append_nil] at hsplit
    subst hsplit
    exact fun pre' post' hpre hne => hall pre' post' hpre hne

/-- **Where the transport may cut a request**: if one delivery of `m` is read
to its end and accepted, another one is accepted with the same result exactly
if none of its reads but the last ends where the loop stops. -/
theorem accepted_iff_cutsAllowed {r r' r₁ : HttpRequest} {d₁ d₂ : List Chunk}
    {rest₁ rest₂ : Stream} (hsame : bytesOf d₁ = bytesOf d₂)
    (h₁ : httpRequestParse r (deliver d₁ ++ rest₁) = .returned 0 r₁ rest₁) :
    (∃ r₂ rest, httpRequestParse r' (deliver d₂ ++ rest₂) = .returned 0 r₂ rest
      ∧ SameRequest r₁ r₂) ↔ CutsAllowed (bytesOf d₁) d₂ := by
  obtain ⟨used, n, hs, hm, hbody, htext⟩ := complete_of_accepted h₁
  obtain rfl := List.append_cancel_right hs
  rw [received_deliver] at hm hbody
  obtain ⟨hif, honly⟩ :=
    hm.parse hbody (r := r') ⟨rfl, rfl, rfl, rfl⟩ htext hsame.symm rest₂
  constructor
  · rintro ⟨r₂, rest, hzero, -⟩
    exact honly r₂ rest hzero
  · intro hcuts
    obtain ⟨r₂, hzero, hreq⟩ := hif hcuts
    exact ⟨r₂, rest₂, hzero, hreq⟩

/-- A request with a body of one byte, in one read. -/
def wholeDelivery : List Chunk :=
  [⟨ascii "PUT /x HTTP/1.1\r\nContent-Length: 1\r\n\r\nz", by decide⟩]

/-- The same with a cut in front of the body. -/
def cutDelivery : List Chunk :=
  [⟨ascii "PUT /x HTTP/1.1\r\nContent-Length: 1\r\n\r\n", by decide⟩,
    ⟨ascii "z", by decide⟩]

theorem bytesOf_cutDelivery : bytesOf wholeDelivery = bytesOf cutDelivery := by decide

theorem accepted_iff_cutsAllowed_example :
    ∃ r₁, httpRequestParse {} (deliver wholeDelivery ++ []) = .returned 0 r₁ []
      ∧ ((∃ r₂ rest, httpRequestParse {} (deliver cutDelivery ++ []) = .returned 0 r₂ rest
        ∧ SameRequest r₁ r₂) ↔ CutsAllowed (bytesOf wholeDelivery) cutDelivery) := by
  have h : httpRequestParse {} (deliver wholeDelivery ++ []) = .returned 0 _ [] := rfl
  exact ⟨_, h, accepted_iff_cutsAllowed bytesOf_cutDelivery h⟩

/-- Not every cut is allowed: the last byte is not read if it comes alone. -/
theorem not_every_cut_accepted :
    ¬ ∀ (r r₁ : HttpRequest) (d₁ d₂ : List Chunk), bytesOf d₁ = bytesOf d₂ →
      httpRequestParse r (deliver d₁) = .returned 0 r₁ [] →
      ∃ r₂ rest, httpRequestParse r (deliver d₂) = .returned 0 r₂ rest
        ∧ SameRequest r₁ r₂ := by
  intro h
  obtain ⟨r₂, rest, hzero, -⟩ := h {} _ wholeDelivery cutDelivery bytesOf_cutDelivery rfl
  have hone : httpRequestParse {} (deliver cutDelivery) = .returned 1 _ _ := rfl
  rw [hone] at hzero
  cases hzero

end CWebServer.Http
