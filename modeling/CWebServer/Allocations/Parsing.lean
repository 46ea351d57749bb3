import CWebServer.Allocations.Requests

/-!
# Allocations — Parsing

`http_request_parse` over a heap keeps to its own blocks, leaves no block
behind, and does to the request what it does in `Http.Parse`. One lemma for
each part of the parser, in the order of its definitions.
-/

namespace CWebServer.Allocations

open CWebServer.Lib CWebServer.Strings CWebServer.Http

/-! ## Outcomes -/

/-- The blocks of the request that a part of the parser leaves. -/
def leftBlocks {α : Type} (request : α → HeapRequest) : Except HeapRequest α → Multiset Block
  | .ok a => (request a).blocks
  | .error r => r.blocks

/-- The outcome on the request that is seen. -/
def eraseOutcome {α β : Type} (seen : α → β) : Except HeapRequest α → Except HttpRequest β
  | .ok a => .ok (seen a)
  | .error r => .error r.erase

/-- The request and the local variables. -/
def seenLocals (p : HeapRequest × ParseLocals) : HttpRequest × ParseLocals := (p.1.erase, p.2)

namespace HeapRequest

variable (r : HeapRequest)

theorem init_spec : Spec 0 init blocks fun r => r.erase = {} := by
  refine HeapString.init_spec.call 0 rfl fun ⟨scratch, hscratch⟩ _ => ?_
  refine HeapString.init_spec.call scratch.blocks (by simp) fun ⟨method, hmethod⟩ _ => ?_
  refine HeapString.init_spec.call (method.blocks + scratch.blocks) (by simp)
    fun ⟨uri, huri⟩ _ => Spec.pure ?_ ?_
  · simp only [blocks, HeapBytes.blocks_init, HeapHeaders.blocks_init]
    abel
  · simp [erase, hscratch, hmethod, huri, HeapBytes.init]

theorem dealloc_spec : Spec r.blocks r.dealloc (fun _ => 0) fun _ => True := by
  refine r.readBuf.dealloc_spec.call
    (r.scratch.blocks + r.method.blocks + r.uri.blocks + r.headers.blocks + r.body.blocks)
    (by rw [blocks]; abel) fun _ _ => ?_
  refine r.scratch.dealloc_spec.call
    (r.method.blocks + r.uri.blocks + r.headers.blocks + r.body.blocks) (by abel) fun _ _ => ?_
  refine r.method.dealloc_spec.call (r.uri.blocks + r.headers.blocks + r.body.blocks) (by abel)
    fun _ _ => ?_
  refine r.uri.dealloc_spec.call (r.headers.blocks + r.body.blocks) (by abel) fun _ _ => ?_
  refine r.headers.dealloc_spec.call r.body.blocks (by abel) fun _ _ => ?_
  rw [zero_add]
  exact r.body.dealloc_spec

theorem clear_spec : Spec r.blocks r.clear blocks fun r' => r'.erase = r.erase.clear := by
  refine r.readBuf.clear_spec.call
    (r.scratch.blocks + r.method.blocks + r.uri.blocks + r.headers.blocks + r.body.blocks)
    (by rw [blocks]; abel) fun ⟨readBuf, hreadBuf⟩ _ => ?_
  refine r.method.clear_spec.call
    (readBuf.blocks + r.scratch.blocks + r.uri.blocks + r.headers.blocks + r.body.blocks)
    (by abel) fun ⟨method, hmethod⟩ _ => ?_
  refine r.uri.clear_spec.call
    (readBuf.blocks + r.scratch.blocks + method.blocks + r.headers.blocks + r.body.blocks)
    (by abel) fun ⟨uri, huri⟩ _ => ?_
  refine r.body.clear_spec.call
    (readBuf.blocks + r.scratch.blocks + method.blocks + uri.blocks + r.headers.blocks)
    (by abel) fun ⟨body, hbody⟩ _ => Spec.pure ?_ ?_
  · simp only [blocks, HeapHeaders.blocks_clear]
    abel
  · simp [erase, HttpRequest.clear, hreadBuf, hmethod, huri, hbody]

/-! ## Lines -/

/-- Bytes of `read_buf` can be read. -/
theorem read_spec {start stop : Nat} (hstop : stop ≤ r.readBuf.bytes.length) :
    Spec r.blocks (r.readBuf.b.access start (stop - start)) (fun _ => r.blocks) fun _ => True := by
  have hown : r.readBuf.blocks ≤ r.blocks := by
    simp only [blocks, add_assoc]
    exact Multiset.le_add_right _ _
  by_cases hstart : start ≤ stop
  · exact (r.readBuf.access_spec (by omega)).within hown
  · have hempty : stop - start = 0 := by omega
    rw [hempty]
    exact Spec.pure rfl trivial

theorem setScratch_spec {start stop : Nat} (hstop : stop ≤ r.readBuf.bytes.length) :
    Spec r.blocks (r.setScratch start stop) blocks fun r' =>
      r'.erase = { r.erase with scratch := slice r.erase.readBuf start stop } := by
  refine (r.read_spec hstop).bind fun _ _ => ?_
  refine (r.scratch.setCstrLen_spec _).call
    (r.readBuf.blocks + r.method.blocks + r.uri.blocks + r.headers.blocks + r.body.blocks)
    (by rw [blocks]; abel) fun ⟨scratch, hscratch⟩ _ => Spec.pure ?_ ?_
  · rw [blocks]
    abel
  · simp [erase, hscratch]

theorem scratch_le : r.scratch.blocks ≤ r.blocks := by
  rw [blocks, add_comm r.readBuf.blocks]
  simp only [add_assoc]
  exact Multiset.le_add_right _ _

theorem setMethod_spec (text : Bytes) :
    Spec r.blocks (r.method.setCstrLen text)
      (fun method => { r with method := method.1 }.blocks) fun _ => True :=
  (r.method.setCstrLen_spec text).last
    (r.readBuf.blocks + r.scratch.blocks + r.uri.blocks + r.headers.blocks + r.body.blocks)
    (by rw [blocks]; abel) (fun _ _ => by rw [blocks]; abel) fun _ _ => trivial

theorem setUri_spec (text : Bytes) :
    Spec r.blocks (r.uri.setCstrLen text)
      (fun uri => { r with uri := uri.1 }.blocks) fun _ => True :=
  (r.uri.setCstrLen_spec text).last
    (r.readBuf.blocks + r.scratch.blocks + r.method.blocks + r.headers.blocks + r.body.blocks)
    (by rw [blocks]; abel) (fun _ _ => by rw [blocks]; abel) fun _ _ => trivial

theorem parseRequestLine_spec {i : Nat} (hi : i ≤ r.readBuf.bytes.length) :
    Spec r.blocks (r.parseRequestLine i) (leftBlocks id) fun o =>
      eraseOutcome erase o = Http.parseRequestLine r.erase i := by
  have hline : (r.readBuf.bytes.take i).length = i := by
    rw [List.length_take, Nat.min_eq_left hi]
  have hpure : Http.parseRequestLine r.erase i
      = (let st := scanRequestLine i (r.readBuf.bytes.take i) 0 {}
        if st.foundEndOfProtocolVersion then
          .ok { r.erase with
            method := slice r.readBuf.bytes st.methodStart st.methodEnd
            uri := slice r.readBuf.bytes st.uriStart st.uriEnd }
        else .error { r.erase with scratch := r.readBuf.bytes.take i }) := rfl
  rw [hpure]
  refine (r.read_spec hi).bind fun _ _ => ?_
  dsimp only
  split
  · rename_i hfound
    have hfound' : (scanRequestLine (r.readBuf.bytes.take i).length (r.readBuf.bytes.take i) 0
        {}).foundEndOfProtocolVersion = true := by rwa [hline]
    have hbounds := tokenized_of_found hfound'
    rw [hline] at hbounds
    obtain ⟨⟨hmethod, huri⟩, -⟩ := hbounds
    rw [hline] at hmethod huri
    refine (r.read_spec (Nat.le_trans hmethod hi)).bind fun _ _ => ?_
    refine (r.setMethod_spec _).bind fun ⟨method, hm⟩ _ => ?_
    refine (read_spec { r with method } (Nat.le_trans huri hi)).bind fun _ _ => ?_
    refine (setUri_spec { r with method } _).bind fun ⟨uri, hu⟩ _ => Spec.pure rfl ?_
    simp [eraseOutcome, erase, hm, hu]
  · refine (r.setScratch_spec hi).bind fun r' hr' => ?_
    refine (r'.scratch.read_spec.within r'.scratch_le).bind fun _ _ => Spec.pure rfl ?_
    change Except.error r'.erase = _
    rw [hr']
    simp [Http.slice, erase]

end HeapRequest

/-! ## Values -/

section
variable {hs : HeapHeaders} {i : Nat} {p : HeaderPointer} (scratch : HeapString)

theorem appendValue_spec (hp : hs.PointsTo i p) (start stop : Nat) :
    Spec (hs.blocks + scratch.blocks) (HeapRequest.appendValue scratch p start stop hs)
      (fun hs' => hs'.blocks + scratch.blocks) fun hs' =>
        hs'.erase = hs.erase.modify i (·.appendValue (stringSetSubstr scratch.text start stop))
          ∧ hs'.PointsTo i p :=
  HeapHeaders.onHeader_spec hp (·.appendValue (stringSetSubstr scratch.text start stop))
    scratch.blocks fun h => h.appendValue_spec (fun _ => stringSetSubstr scratch.text start stop)
      scratch.blocks fun s => (s.setSubstr_spec scratch start stop).bind
        fun ⟨_, hvalue⟩ _ => Spec.pure rfl hvalue

theorem modify_modify (hs : HttpHeaders) (i : Nat) (f g : HttpHeader → HttpHeader) :
    (hs.modify i f).modify i g = hs.modify i (g ∘ f) := by
  simp [HttpHeaders.modify, List.modify_modify_eq]

theorem appendValues_spec (fuel : Nat) (split : Nat × List (Nat × Nat)) (hp : hs.PointsTo i p) :
    Spec (hs.blocks + scratch.blocks) (HeapRequest.appendValues scratch p fuel split hs)
      (fun hs' => hs'.blocks + scratch.blocks) fun hs' =>
        hs'.erase = hs.erase.modify i (Http.appendValues scratch.text fuel split) := by
  fun_induction HeapRequest.appendValues scratch p fuel split hs with
  | case1 fuel start stop next _ _ hs ih =>
      refine (appendValue_spec scratch hp start stop).bind fun hs' ⟨herase, hp'⟩ => ?_
      refine (scratch.read_spec.within ?_).bind fun _ _ => ?_
      · exact Multiset.le_add_left _ _
      refine (ih hs' hp').mono fun hs'' herase' => ?_
      rw [herase', herase, modify_modify]
      rfl
  | case2 n m start stop rest hs hnot =>
      have hlast : Http.appendValues scratch.text n (m, (start, stop) :: rest)
          = (·.appendValue (stringSetSubstr scratch.text start stop)) := by
        funext h
        rw [Http.appendValues]
        intro fuel next snd tail hn hm hrest
        exact hnot fuel next snd tail hn hm hrest
      rw [hlast]
      exact (appendValue_spec scratch hp start stop).mono fun hs' h => h.1
  | case3 n m hs =>
      have hnone : Http.appendValues scratch.text n (m, []) = id := by
        funext h
        rw [Http.appendValues]
        rfl
      rw [hnone]
      exact Spec.pure rfl (by simp [HttpHeaders.modify])

end

namespace HeapRequest

variable (r : HeapRequest)

/-- The blocks beside those of `scratch` and of the headers. -/
theorem exists_fixed : ∃ fixed, ∀ scratch headers,
    { r with scratch, headers }.blocks = scratch.blocks + headers.blocks + fixed := by
  refine ⟨r.readBuf.blocks + r.method.blocks + r.uri.blocks + r.body.blocks, ?_⟩
  intro scratch headers
  rw [blocks]
  abel

theorem addField_spec {nameStart nameEnd : Nat} (valueStart : Nat)
    (hname : nameStart + (nameEnd - nameStart) ≤ r.scratch.text.length) :
    Spec r.blocks (r.addField nameStart nameEnd valueStart) blocks fun r' =>
      let text := stringTrimStartAnyOfCstr
        (stringSetSubstrSelf r.scratch.text valueStart sizeMax) (ascii " \t")
      let found := r.headers.erase.getCstrLen (Http.slice r.scratch.text nameStart nameEnd) true
      ∃ i, found.1 = some i ∧ r'.erase = { r.erase with
        scratch := text
        headers := found.2.modify i (Http.appendValues text text.length
          (stringSplit text 0 (ascii ",") 2 2)) } := by
  obtain ⟨fixed, hfixed⟩ := r.exists_fixed
  have hscratch := r.scratch.length_lt
  refine ((r.scratch.b.access_spec (by omega)).within r.scratch_le).bind fun _ _ => ?_
  refine (r.headers.getCstrLen_true_spec _).call (r.scratch.blocks + fixed)
    ((hfixed r.scratch r.headers).trans (by abel)) fun found hfound => ?_
  obtain ⟨p, headers⟩ := found
  obtain ⟨herase, i, p', hi, hp, hpoints⟩ := hfound
  obtain rfl : p = some p' := hp
  refine (r.scratch.setSubstrSelf_spec _ _).call (headers.blocks + fixed) (by abel)
    fun ⟨scratch₁, hscratch₁⟩ _ => ?_
  refine (scratch₁.trimStartAnyOfCstr_spec _).call (headers.blocks + fixed) rfl
    fun ⟨scratch, hscratch⟩ _ => ?_
  refine scratch.read_spec.call (headers.blocks + fixed) rfl fun _ _ => ?_
  -- the values are added through the pointer: they do not move the array
  refine (appendValues_spec scratch _ _ hpoints).call fixed (by abel)
    fun headers' hheaders' => Spec.pure ?_ ⟨i, hi, ?_⟩
  · rw [hfixed]
    abel
  · rw [← hscratch₁, ← hscratch, ← herase, ← hheaders']
    rfl

theorem parseHeaderLine_spec {start stop : Nat} (hstop : stop ≤ r.readBuf.bytes.length) :
    Spec r.blocks (r.parseHeaderLine start stop) (leftBlocks id) fun o =>
      eraseOutcome erase o
        = Http.parseHeaderLine r.erase (Http.slice r.erase.readBuf start stop) := by
  refine (r.setScratch_spec hstop).bind fun r₁ hr₁ => ?_
  have hline : Http.slice r.erase.readBuf start stop = r₁.scratch.text :=
    (congrArg HttpRequest.scratch hr₁).symm
  -- the old contents of `scratch` do not matter
  have hpure : Http.parseHeaderLine r.erase (Http.slice r.erase.readBuf start stop)
      = Http.parseHeaderLine r₁.erase r₁.scratch.text := by
    rw [hr₁, hline]
    rfl
  rw [hpure]
  refine (r₁.scratch.read_spec.within r₁.scratch_le).bind fun _ _ => ?_
  have hcolon : ascii ":" = [58] := rfl
  have hsplit :=
    stringSplit_cutAt 58 (s := r₁.scratch.text) (x := []) (t := r₁.scratch.text) rfl
  simp only [List.length_nil, List.nil_append] at hsplit
  simp only [Http.parseHeaderLine, hcolon, hsplit]
  cases hcut : cutAt 58 r₁.scratch.text with
  | none =>
      exact (r₁.scratch.read_spec.within r₁.scratch_le).bind fun _ _ => Spec.pure rfl rfl
  | some c =>
      obtain ⟨w, u⟩ := c
      obtain ⟨hw, -, -⟩ := cutAt_some hcut
      have hname : 0 + (w.length - 0) ≤ r₁.scratch.text.length := by
        rw [hw, List.length_append]
        omega
      refine (r₁.addField_spec (w.length + 1) hname).bind fun r' ⟨i, hi, hr'⟩ =>
        Spec.pure rfl ?_
      change Except.ok r'.erase = Except.ok _
      have hi' : (r₁.erase.headers.getCstrLen (Http.slice r₁.scratch.text 0 w.length) true).1
          = some i := hi
      rw [hr']
      dsimp only
      rw [hi']
      rfl

/-! ## The end of the header -/

theorem readContentLength_spec (h : HeapHeader) :
    Spec h.blocks (readContentLength h) (fun _ => h.blocks) fun length =>
      length = if h.erase.getNumValues = 1 then
          match (h.erase.getValue 0).bind sscanfZu with
          | some n => .value n
          | none => .invalid
        else .invalid := by
  unfold readContentLength
  by_cases hone : h.valuesLength = 1
  · have hpos : 0 < h.values.slots.length := by
      have := h.valuesLength_le
      omega
    have hvalues : h.values.blocks HeapString.blocks ≤ h.blocks := Multiset.le_add_left _ _
    have hslot := List.getElem?_eq_getElem hpos
    have hvalue : h.erase.getValue 0 = some h.values.slots[0].text := by
      simp [HttpHeader.getValue, HeapHeader.erase, hone, hpos]
    rw [if_pos hone, if_pos (show h.erase.getNumValues = 1 from hone), hvalue, hslot]
    refine (HeapArray.accessPointer_spec hpos ((Multiset.le_add_right _ _).trans hvalues)).bind
      fun _ _ => ?_
    refine ((HeapString.read_spec _).within ((HeapArray.own_le hslot).trans hvalues)).bind
      fun _ _ => ?_
    rw [Option.bind_some]
    cases sscanfZu h.values.slots[0].text <;> exact Spec.pure rfl rfl
  · rw [if_neg hone, if_neg (show ¬h.erase.getNumValues = 1 from hone)]
    exact Spec.pure rfl rfl

theorem contentLength_spec (hs : HeapHeaders) :
    Spec hs.blocks (HeapRequest.contentLength hs) (fun c => c.2.blocks) fun c =>
      c.1 = Http.contentLength hs.erase ∧ c.2 = hs := by
  refine (hs.getCstrLen_spec (ascii "Content-Length") false).bind
    fun ⟨p, hs'⟩ ⟨herase, hp, hsame, _⟩ => ?_
  obtain rfl : hs' = hs := hsame rfl
  dsimp only at hp herase
  rw [Http.contentLength]
  cases hget : hs'.erase.getCstrLen (ascii "Content-Length") false with
  | mk found hs'' =>
      rw [hget] at hp herase
      cases found with
      | none =>
          subst hp
          exact Spec.pure rfl ⟨rfl, rfl⟩
      | some i =>
          have hi : i < hs'.erase.headersLength := by
            have hlt := getCstrLen_lt (congrArg Prod.fst hget)
            rwa [hget, ← herase] at hlt
          obtain ⟨p', hpointer, hpoints⟩ := hs'.exists_pointsTo hi
          obtain rfl : p = some p' := hp.trans hpointer
          obtain ⟨rfl, -, haccess⟩ := hpoints.access
          refine haccess.bind fun _ _ => ?_
          obtain ⟨h, hslot⟩ : ∃ h, hs'.headers.slots[p'.index]? = some h :=
            ⟨_, List.getElem?_eq_getElem hpoints.2⟩
          have hslot' : hs'.erase.headers[p'.index]? = some h.erase := by
            simp [HeapHeaders.erase, hslot]
          simp only [hslot, hslot']
          exact ((readContentLength_spec h).within (HeapArray.own_le hslot)).bind
            fun length hlength => Spec.pure rfl ⟨hlength, rfl⟩

theorem endHeader_spec (l : ParseLocals) (i : Nat) :
    Spec r.blocks (r.endHeader l i) (leftBlocks Prod.fst) fun o =>
      eraseOutcome seenLocals o = Http.endHeader r.erase l i := by
  obtain ⟨fixed, hfixed⟩ := r.exists_fixed
  refine (contentLength_spec r.headers).call (r.scratch.blocks + fixed)
    ((hfixed r.scratch r.headers).trans (by abel))
    fun ⟨length, headers⟩ ⟨hlength, hheaders⟩ => ?_
  dsimp only at hlength hheaders
  subst hheaders
  have hown : r.headers.blocks + (r.scratch.blocks + fixed) = r.blocks := by
    rw [← add_assoc, add_comm r.headers.blocks]
    exact (hfixed r.scratch r.headers).symm
  simp only [Http.endHeader]
  have hlength' : length = Http.contentLength r.erase.headers := hlength
  rw [← hlength', hown]
  cases length <;> exact Spec.pure rfl rfl

/-! ## The loops -/

theorem lineFound_spec (l : ParseLocals) {i : Nat} (hi : i ≤ r.readBuf.bytes.length) :
    Spec r.blocks (r.lineFound l i) (leftBlocks Prod.fst) fun o =>
      eraseOutcome seenLocals o = Http.lineFound r.erase l i := by
  simp only [lineFound, Http.lineFound]
  split
  · refine (r.parseRequestLine_spec hi).bind fun o ho => ?_
    rw [← ho]
    cases o <;> exact Spec.pure rfl rfl
  · split
    · split
      · exact r.endHeader_spec l i
      · refine (r.parseHeaderLine_spec hi).bind fun o ho => ?_
        rw [← ho]
        cases o <;> exact Spec.pure rfl rfl
    · exact Spec.pure rfl rfl

theorem scanLines_spec (s : Bytes) {i : Nat} (r : HeapRequest) (l : ParseLocals)
    (hs : i + s.length ≤ r.readBuf.bytes.length) :
    Spec r.blocks (scanLines s i r l) (leftBlocks Prod.fst) fun o =>
      eraseOutcome seenLocals o = Http.scanLines s i r.erase l := by
  induction hn : s.length using Nat.strong_induction_on generalizing s i r l with
  | _ n ih =>
      rcases s with _ | ⟨a, _ | ⟨b, s⟩⟩
      · exact Spec.pure rfl rfl
      · exact Spec.pure rfl rfl
      simp only [List.length_cons] at hs hn
      have hread : Spec r.blocks (r.readBuf.b.access i 2) (fun _ => r.blocks) fun _ => True := by
        have hle : i + 2 ≤ r.readBuf.bytes.length := by omega
        rw [← Nat.add_sub_cancel_left i 2]
        exact r.read_spec hle
      rw [scanLines, Http.scanLines]
      refine hread.bind fun _ _ => ?_
      by_cases hcrlf : a = 13 ∧ b = 10
      · rw [if_pos hcrlf, if_pos hcrlf]
        refine (r.lineFound_spec l (by omega)).bind fun o ho => ?_
        have hbuf := lineFound_readBuf r.erase l i
        rw [← ho] at hbuf ⊢
        cases o with
        | error r' => exact Spec.pure rfl rfl
        | ok p =>
            obtain ⟨r', l'⟩ := p
            change r'.readBuf.bytes = r.readBuf.bytes at hbuf
            change Spec _ (if l'.foundEndOfHeader then _ else _) _ fun o =>
              eraseOutcome seenLocals o = if l'.foundEndOfHeader then _ else _
            split
            · exact Spec.pure rfl rfl
            · exact ih s.length (by omega) s r' _ (by rw [hbuf]; omega) rfl
      · rw [if_neg hcrlf, if_neg hcrlf]
        exact ih (b :: s).length (by simp only [List.length_cons]; omega) (b :: s) r l
          (by simp only [List.length_cons]; omega) rfl

theorem setReadBuf_spec (r : HeapRequest) (n : Nat) :
    Spec r.blocks (r.readBuf.b.setLength n)
      (fun b => b.1.blocks + (r.scratch.blocks + r.method.blocks + r.uri.blocks + r.headers.blocks
        + r.body.blocks)) fun _ => True :=
  (r.readBuf.b.setLength_spec n).last _
    (by rw [blocks]; simp only [HeapBytes.blocks]; abel) (fun _ _ => rfl) fun _ _ => trivial

theorem readBytes_spec (l : ParseLocals) (c : Chunk) :
    Spec r.blocks (r.readBytes l c) (leftBlocks Prod.fst) fun o =>
      eraseOutcome seenLocals o = Http.readBytes r.erase l c := by
  refine (r.setReadBuf_spec _).bind fun ⟨b, hlength, _⟩ _ => ?_
  let r' : HeapRequest := { r with
    readBuf := ⟨r.readBuf.bytes ++ c.val, b, by rw [hlength, List.length_append]⟩ }
  have hown : b.blocks + (r.scratch.blocks + r.method.blocks + r.uri.blocks + r.headers.blocks
      + r.body.blocks) = r'.blocks := by
    simp only [r', blocks, HeapBytes.blocks]
    abel
  rw [hown]
  change Spec _ (if !l.foundRequestLine || !l.foundEndOfHeader then
    scanLines (r'.readBuf.bytes.drop l.endOfLastLine) l.endOfLastLine r' l else _) _ fun o =>
      _ = if !l.foundRequestLine || !l.foundEndOfHeader then
        Http.scanLines (r'.erase.readBuf.drop l.endOfLastLine) l.endOfLastLine r'.erase l else _
  split
  · by_cases hle : l.endOfLastLine ≤ r'.readBuf.bytes.length
    · exact scanLines_spec _ r' l (by rw [List.length_drop]; omega)
    · have hnil : r'.readBuf.bytes.drop l.endOfLastLine = [] :=
        List.drop_eq_nil_of_le (Nat.le_of_not_le hle)
      have hnil' : r'.erase.readBuf.drop l.endOfLastLine = [] := hnil
      rw [hnil, hnil']
      exact Spec.pure rfl rfl
  · exact Spec.pure rfl rfl

theorem prepareRead_spec : Spec r.blocks r.prepareRead blocks fun r' => r'.erase = r.erase := by
  refine (r.readBuf.b.ensureCapacity_spec _).call
    (r.scratch.blocks + r.method.blocks + r.uri.blocks + r.headers.blocks + r.body.blocks)
    (by rw [blocks]; simp only [HeapBytes.blocks]; abel) fun ⟨b, hlength, hcapacity, _⟩ _ => ?_
  refine ((b.access_spec hcapacity).frame _).bind fun _ _ => Spec.pure ?_ rfl
  simp only [blocks, HeapBytes.blocks]
  abel

theorem readError_spec (text : Option Bytes) :
    Spec r.blocks (r.readError text) blocks fun r' =>
      r'.erase = { r.erase with scratch := text.getD r.erase.scratch } := by
  obtain ⟨fixed, hfixed⟩ := r.exists_fixed
  cases text with
  | none => exact (r.scratch.read_spec.within r.scratch_le).bind fun _ _ => Spec.pure rfl rfl
  | some text =>
      refine (r.scratch.setCstrf_spec text).call (r.headers.blocks + fixed)
        ((hfixed r.scratch r.headers).trans (by abel)) fun ⟨scratch, hscratch⟩ _ => ?_
      refine scratch.read_spec.call (r.headers.blocks + fixed) rfl fun _ _ => Spec.pure ?_ ?_
      · exact ((hfixed scratch r.headers).trans (by abel)).symm
      · simp [erase, hscratch]

/-- The request that is left, with the reads that are. -/
def loopBlocks :
    Except (HeapRequest × Stream) (HeapRequest × ParseLocals × Stream) → Multiset Block
  | .ok p => p.1.blocks
  | .error p => p.1.blocks

def eraseLoop : Except (HeapRequest × Stream) (HeapRequest × ParseLocals × Stream) →
    Except (HttpRequest × Stream) (HttpRequest × ParseLocals × Stream)
  | .ok p => .ok (p.1.erase, p.2)
  | .error p => .error (p.1.erase, p.2)

theorem readLoop_spec (stream : Stream) (r : HeapRequest) (l : ParseLocals) :
    Spec r.blocks (readLoop stream r l) loopBlocks fun o =>
      eraseLoop o = Http.readLoop stream r.erase l := by
  induction stream generalizing r l with
  | nil =>
      rw [readLoop, Http.readLoop]
      split
      · refine r.prepareRead_spec.bind fun r' hr' => Spec.pure rfl ?_
        rw [eraseLoop, hr']
      · exact Spec.pure rfl rfl
  | cons x s ih =>
      rw [readLoop, Http.readLoop.eq_def]
      dsimp only
      by_cases hlt : r.readBuf.bytes.length < l.maxReadLength
      · rw [if_pos hlt, if_pos (show r.erase.readBuf.length < l.maxReadLength from hlt)]
        refine r.prepareRead_spec.bind fun r₁ hr₁ => ?_
        rw [← hr₁]
        cases x with
        | error text =>
            refine (r₁.readError_spec text).bind fun r₂ hr₂ => Spec.pure rfl ?_
            rw [eraseLoop, hr₂]
        | endOfStream => exact Spec.pure rfl rfl
        | bytes c =>
            refine (r₁.readBytes_spec l c).bind fun o ho => ?_
            simp only [← ho]
            cases o with
            | error r₂ => exact Spec.pure rfl rfl
            | ok p => exact ih p.1 p.2
      · rw [if_neg hlt, if_neg (show ¬r.erase.readBuf.length < l.maxReadLength from hlt)]
        exact Spec.pure rfl rfl

end HeapRequest

/-! ## The log text -/

/-- Values with the commas that `separate` puts in front of them, from the
`j`th on. -/
def joinFrom : Nat → List Bytes → Bytes
  | _, [] => []
  | j, text :: rest => (if 0 < j then ascii "," else []) ++ text ++ joinFrom (j + 1) rest

theorem joinFrom_succ (j : Nat) (texts : List Bytes) :
    joinFrom (j + 1) texts = (texts.map (ascii "," ++ ·)).flatten := by
  induction texts generalizing j with
  | nil => rfl
  | cons text rest ih =>
      rw [joinFrom, ih, if_pos (Nat.succ_pos j)]
      rfl

theorem joinFrom_zero (texts : List Bytes) :
    joinFrom 0 texts = (texts.intersperse (ascii ",")).flatten := by
  cases texts with
  | nil => rfl
  | cons text rest =>
      rw [joinFrom, joinFrom_succ]
      induction rest generalizing text with
      | nil => simp
      | cons text' rest ih =>
          have h := ih text'
          simp only [Nat.lt_irrefl, if_false, List.nil_append] at h
          simp [List.intersperse_cons_cons, ← h]

theorem separate_spec (dst : HeapString) (j : Nat) :
    Spec dst.blocks (separate dst j) HeapString.blocks fun d =>
      d.text = dst.text ++ if 0 < j then ascii "," else [] := by
  unfold separate
  split
  · exact (dst.appendTerminated_spec _).bind fun ⟨d, hd⟩ _ => Spec.pure rfl hd
  · exact Spec.pure rfl (by simp)

/-- The result for the first element, and those for the rest. -/
theorem exists_of_mapM_cons {α β : Type} {f : α → Option β} {x : α} {l : List α}
    {ys : List β} (h : (x :: l).mapM f = some ys) :
    ∃ y, f x = some y ∧ ∃ ys', l.mapM f = some ys' ∧ y :: ys' = ys := by
  simpa [List.mapM_cons, Option.bind_eq_some_iff] using h

theorem appendTexts_spec {a : HeapArray HeapString} (l : List HeapString) (j : Nat)
    (hl : a.HasAt j l) {texts : List Bytes}
    (htexts : (l.map HeapString.text).mapM vsnprintfNoArgs = some texts) (dst : HeapString) :
    Spec (dst.blocks + a.blocks HeapString.blocks) (appendTexts a.data j l dst)
      (fun d => d.blocks + a.blocks HeapString.blocks) fun d =>
        d.text = dst.text ++ joinFrom j texts := by
  induction l generalizing j texts dst with
  | nil =>
      obtain rfl : [] = texts := by simpa using htexts
      exact Spec.pure rfl (by simp [joinFrom])
  | cons v rest ih =>
      obtain ⟨text, htext, texts', htexts', rfl⟩ := exists_of_mapM_cons htexts
      refine (separate_spec dst j).call _ rfl fun d₁ hd₁ => ?_
      have harray : a.blocks HeapString.blocks ≤ d₁.blocks + a.blocks HeapString.blocks :=
        Multiset.le_add_left _ _
      refine (HeapArray.accessSlot_spec hl.head harray).bind fun _ _ => ?_
      refine (v.read_spec.within ((HeapArray.own_le hl.head).trans harray)).bind fun _ _ => ?_
      rw [htext]
      refine (d₁.appendCstrf_spec text).call _ rfl fun d₂ _ => ?_
      obtain ⟨d₂, hd₂⟩ := d₂
      refine (ih (j + 1) hl.tail htexts' d₂).mono fun d hd => ?_
      rw [hd, hd₂, hd₁, joinFrom]
      simp [List.append_assoc]

theorem appendHeaderTexts_spec {a : HeapArray HeapHeader} (indent : Bytes) (l : List HeapHeader)
    (i : Nat) (hl : a.HasAt i l) {texts : List Bytes}
    (htexts : (l.map HeapHeader.erase).mapM (headerToString indent) = some texts)
    (dst : HeapString) :
    Spec (dst.blocks + a.blocks HeapHeader.blocks) (appendHeaderTexts a.data indent i l dst)
      (fun d => d.blocks + a.blocks HeapHeader.blocks) fun d =>
        d.text = dst.text ++ texts.flatten := by
  induction l generalizing i texts dst with
  | nil =>
      obtain rfl : [] = texts := by simpa using htexts
      exact Spec.pure rfl (by simp)
  | cons h rest ih =>
      obtain ⟨text, htext, texts', htexts', rfl⟩ := exists_of_mapM_cons htexts
      obtain ⟨values, hvalues, rfl⟩ : ∃ values,
          ((h.values.slots.take h.valuesLength).map HeapString.text).mapM vsnprintfNoArgs
              = some values
            ∧ indent ++ indent ++ cstr h.name.text ++ ascii ": "
              ++ (values.intersperse (ascii ",")).flatten ++ ascii "\n" = text := by
        unfold headerToString at htext
        split at htext
        · cases htext
        · rename_i values hvalues
          refine ⟨values, ?_, Option.some.inj htext⟩
          rw [List.map_take]
          exact hvalues
      have hheader : h.blocks ≤ a.blocks HeapHeader.blocks := HeapArray.own_le hl.head
      have harray : a.blocks HeapHeader.blocks ≤ dst.blocks + a.blocks HeapHeader.blocks :=
        Multiset.le_add_left _ _
      -- while the values are read, the rest of the array is the frame
      obtain ⟨fixed, hfixed⟩ : ∃ fixed, a.blocks HeapHeader.blocks
          = h.values.blocks HeapString.blocks + fixed :=
        Multiset.le_iff_exists_add.mp ((Multiset.le_add_left _ _).trans hheader)
      refine (HeapArray.accessSlot_spec hl.head harray).bind fun _ _ => ?_
      have hname : h.name.blocks ≤ dst.blocks + a.blocks HeapHeader.blocks :=
        (Multiset.le_add_right _ _).trans (hheader.trans harray)
      refine (h.name.read_spec.within hname).bind fun _ _ => ?_
      refine (dst.appendCstrf_spec _).call _ rfl fun d₁ _ => ?_
      obtain ⟨d₁, hd₁⟩ := d₁
      refine (appendTexts_spec _ 0 (h.values.hasAt_take h.valuesLength) hvalues d₁).call fixed
        (by rw [hfixed, add_assoc]) fun d₂ hd₂ => ?_
      rw [add_assoc, ← hfixed]
      refine (d₂.appendTerminated_spec _).call _ rfl fun d₃ _ => ?_
      obtain ⟨d₃, hd₃⟩ := d₃
      refine (ih (i + 1) hl.tail htexts' d₃).mono fun d hd => ?_
      have hline : cstr (ascii "\n") = ascii "\n" := rfl
      rw [hd, hd₃, hd₂, hd₁, joinFrom_zero, hline]
      simp [List.append_assoc]

theorem headersToString_spec (hs : HeapHeaders) {indent text : Bytes}
    (htext : httpHeadersToString hs.erase indent = some text) (dst : HeapString) :
    Spec (dst.blocks + hs.blocks) (headersToString hs indent dst)
      (fun d => d.blocks + hs.blocks) fun d => d.text = dst.text ++ text := by
  obtain ⟨texts, htexts, rfl⟩ := Option.map_eq_some_iff.mp htext
  refine (dst.appendCstrf_spec _).call _ rfl fun ⟨d₁, hd₁⟩ _ => ?_
  have hlive : hs.erase.live = (hs.headers.slots.take hs.headersLength).map HeapHeader.erase := by
    rw [List.map_take]
    rfl
  rw [hlive] at htexts
  refine (appendHeaderTexts_spec indent _ 0 (hs.headers.hasAt_take _) htexts d₁).mono
    fun d hd => ?_
  rw [hd, hd₁]
  simp [HttpHeaders.getNum, HeapHeaders.erase, List.append_assoc]

namespace HeapRequest

variable (r : HeapRequest)

theorem method_le : r.method.blocks ≤ r.blocks :=
  Multiset.le_iff_exists_add.mpr
    ⟨r.readBuf.blocks + r.scratch.blocks + r.uri.blocks + r.headers.blocks + r.body.blocks, by
      rw [blocks]
      abel⟩

theorem uri_le : r.uri.blocks ≤ r.blocks :=
  Multiset.le_iff_exists_add.mpr
    ⟨r.readBuf.blocks + r.scratch.blocks + r.method.blocks + r.headers.blocks + r.body.blocks, by
      rw [blocks]
      abel⟩

theorem logText_spec {text : Bytes} (htext : requestToString r.erase = some text) :
    Spec r.blocks r.logText blocks fun r' => r'.erase = { r.erase with scratch := text } := by
  obtain ⟨headers, hheaders, rfl⟩ := Option.map_eq_some_iff.mp htext
  obtain ⟨fixed, hfixed⟩ := r.exists_fixed
  have hown (scratch : HeapString) :
      scratch.blocks + (r.headers.blocks + fixed) = { r with scratch := scratch }.blocks :=
    ((hfixed scratch r.headers).trans (by abel)).symm
  refine (r.scratch.clear_spec).call (r.headers.blocks + fixed) (hown r.scratch).symm
    fun ⟨s₁, hs₁⟩ _ => ?_
  rw [hown]
  refine (r.method.read_spec.within (method_le { r with scratch := s₁ })).bind fun _ _ => ?_
  refine (r.uri.read_spec.within (uri_le { r with scratch := s₁ })).bind fun _ _ => ?_
  refine (s₁.appendCstrf_spec _).call (r.headers.blocks + fixed) (hown s₁).symm
    fun ⟨s₂, hs₂⟩ _ => ?_
  refine (headersToString_spec r.headers hheaders s₂).call fixed (by abel) fun s₃ hs₃ => ?_
  refine (s₃.appendCstrf_spec _).call (r.headers.blocks + fixed) (by abel)
    fun ⟨s₄, hs₄⟩ _ => ?_
  refine s₄.read_spec.call (r.headers.blocks + fixed) rfl fun _ _ => Spec.pure (hown s₄) ?_
  simp [erase, hs₄, hs₃, hs₂, hs₁, List.append_assoc]

/-! ## The call -/

/-- Where the loop ends behind the empty line, the body begins in the
buffer. -/
theorem startOfBody_le {stream rest : Stream} {r₀ r : HttpRequest} {l : ParseLocals}
    (h : Http.readLoop stream r₀.clear {} = .ok (r, l, rest)) (hend : l.foundEndOfHeader = true) :
    l.startOfBody ≤ r.readBuf.length := by
  obtain ⟨d, hto, -⟩ := readLoop_ok_iff.mp h
  rcases hto.reading.1.stage with hin | ⟨n, hended⟩
  · rw [hin.foundEndOfHeader] at hend
    cases hend
  · obtain ⟨-, -, -, hle, -⟩ := data_of_ended hended.head
    have hstart : l.startOfBody = headLength r.readBuf := hended.startOfBody
    rw [hstart]
    exact hle

/-- **`http_request_parse` over a heap**: it uses its own blocks only, and
returns what it returns in `Http.Parse`. -/
theorem parse_spec (stream : Stream) (hdefined : httpRequestParse r.erase stream ≠ .undefined) :
    Spec r.blocks (r.parse stream) (fun p => p.2.1.blocks) fun p =>
      httpRequestParse r.erase stream = .returned p.1 p.2.1.erase p.2.2 := by
  refine r.clear_spec.bind fun r₁ hr₁ => ?_
  refine (readLoop_spec stream r₁ {}).bind fun o ho => ?_
  rw [hr₁] at ho
  simp only [httpRequestParse, ← ho] at hdefined ⊢
  cases o with
  | error p => exact Spec.pure rfl rfl
  | ok p =>
      obtain ⟨r₂, l, rest⟩ := p
      simp only [eraseLoop] at hdefined ⊢
      by_cases hend : l.foundEndOfHeader = true
      · have hstart : l.startOfBody ≤ r₂.readBuf.bytes.length := startOfBody_le ho.symm hend
        simp only [hend, Bool.not_true, Bool.false_eq_true, if_false, loopBlocks] at hdefined ⊢
        rw [if_neg (Nat.not_lt.mpr hstart)]
        refine (r₂.read_spec (Nat.le_refl _)).bind fun _ _ => ?_
        -- the body gets what stands behind the empty line
        refine (r₂.body.append_spec _).call (r₂.readBuf.blocks + r₂.scratch.blocks
          + r₂.method.blocks + r₂.uri.blocks + r₂.headers.blocks) (by rw [blocks]; abel)
          fun body _ => ?_
        obtain ⟨body, hbody⟩ := body
        let r₃ : HeapRequest := { r₂ with body }
        have hr₃ : r₃.erase = { r₂.erase with
            body := r₂.erase.body ++ r₂.erase.readBuf.drop l.startOfBody } := by
          simp [r₃, erase, hbody]
        rw [← hr₃] at hdefined ⊢
        cases htext : requestToString r₃.erase with
        | none =>
            rw [htext] at hdefined
            exact absurd rfl hdefined
        | some text =>
            refine (logText_spec r₃ htext).call 0 ?_ fun r₄ hr₄ => ?_
            · simp only [r₃, blocks]
              abel
            rw [hr₃] at hr₄
            have hbody₄ : r₄.body.bytes
                = r₂.erase.body ++ r₂.erase.readBuf.drop l.startOfBody :=
              congrArg HttpRequest.body hr₄
            rw [add_zero, hbody₄]
            dsimp only
            split
            · exact Spec.pure rfl (by rw [hr₄])
            · exact Spec.pure rfl (by rw [hr₄])
      · simp only [hend, Bool.not_false, if_true]
        exact Spec.pure rfl rfl

end HeapRequest

end CWebServer.Allocations
