import CWebServer.Allocations.Responses

/-!
# Allocations — Writing

What a handler and `http_response_write` do over a heap: they keep to the
blocks of the response, and do to it what they do in `Http.Scripts` and
`Http.Response`.
-/

namespace CWebServer.Allocations

open CWebServer.Lib CWebServer.Strings CWebServer.Http

/-- No reason phrase has a 0. -/
theorem cstr_reasonPhraseOf (statusCode : Int) :
    cstr (reasonPhraseOf statusCode) = reasonPhraseOf statusCode := by
  unfold reasonPhraseOf
  split <;> decide

/-- What is in `scratch` after the writes from the `i`th on. -/
def leftInScratch (d : Destination) (error : Option Bytes) : Nat → List Bytes → Bytes → Bytes
  | _, [], scratch => scratch
  | i, b :: bs, scratch =>
      match d.accepts i b with
      | none => error.getD scratch
      | some n =>
          if streamWriteResult (some n) < 0 then scratch
          else leftInScratch d error (i + 1) bs scratch

theorem HeapBytes.writeAt_spec (d : HeapBytes) {position : Nat}
    (hposition : position ≤ d.bytes.length) (src : Bytes) :
    Spec d.blocks (d.writeAt position hposition src) (fun d' => d'.1.blocks) fun _ => True := by
  unfold writeAt
  split
  · refine (d.b.setLength_spec _).bind fun b _ => ?_
    obtain ⟨b, hlength, _⟩ := b
    have hle : position + src.length ≤ b.capacity := hlength ▸ b.length_le
    exact (b.access_spec hle).bind fun _ _ => Spec.pure rfl trivial
  · exact (d.access_spec (by omega)).bind fun _ _ => Spec.pure rfl trivial

/-! ## Values -/

theorem HeapString.edit_spec (s : HeapString) (edit : StringEdit) :
    Spec s.blocks (s.edit edit) blocks fun s' => s'.text = edit.apply s.text := by
  cases edit with
  | set text =>
      exact (s.setCstrLen_spec text).bind fun ⟨_, hs⟩ _ => Spec.pure rfl hs
  | append text =>
      exact (s.appendAndTerminate_spec text).bind fun ⟨_, hs⟩ _ => Spec.pure rfl hs
  | setLength length fill =>
      exact (s.setLength_spec length fill).bind fun ⟨_, hs⟩ _ => Spec.pure rfl hs

theorem HeapString.edits_spec (s : HeapString) (edits : List StringEdit) :
    Spec s.blocks (edits.foldlM HeapString.edit s) blocks fun s' =>
      s'.text = editString s.text edits := by
  induction edits generalizing s with
  | nil => exact Spec.pure rfl rfl
  | cons edit edits ih =>
      rw [List.foldlM_cons]
      refine (s.edit_spec edit).bind fun s' hs' => (ih s').mono fun s'' hs'' => ?_
      rw [hs'', hs']
      rfl

theorem HeapHeader.appendEdited_spec (h : HeapHeader) (edits : List StringEdit) :
    Spec (h.blocks + 0) (h.appendEdited edits) (fun h' => h'.blocks + 0) fun h' =>
      h'.erase = h.erase.appendEdited edits :=
  h.appendValue_spec (fun s => editString s edits) 0 fun s => (s.edits_spec edits).frame 0

theorem HeapHeaders.appendEdited_spec (hs : HeapHeaders) (slot : Nat) (edits : List StringEdit) :
    Spec hs.blocks (hs.appendEdited slot edits) blocks fun hs' =>
      (hs'.erase = if slot < hs.headersLength then hs.erase.modify slot (·.appendEdited edits)
        else hs.erase) ∧ hs'.headers.data = hs.headers.data := by
  unfold appendEdited
  split
  · rename_i hslot
    obtain ⟨p, hpointer, hpoints⟩ := hs.exists_pointsTo hslot
    rw [hpointer]
    refine (onHeader_spec hpoints (·.appendEdited edits) 0 fun h => h.appendEdited_spec edits).last
      0 (by simp) (fun _ _ => by simp) fun hs' ⟨herase, hpoints'⟩ => ⟨herase, ?_⟩
    rw [hpoints'.access.2.1, hpoints.access.2.1]
  · exact Spec.pure rfl ⟨rfl, rfl⟩

namespace HeapResponse

variable (r : HeapResponse)

/-! ## The whole response -/

theorem setStatusCode_spec (statusCode : Int) :
    Spec r.blocks (r.setStatusCode statusCode) blocks fun r' =>
      r'.erase = r.erase.setStatusCode statusCode := by
  refine (r.reasonPhrase.setCstr_spec _).call
    (r.scratch.blocks + r.headers.blocks + r.bodyBuffer.blocks) (by rw [blocks]; abel)
    fun ⟨reasonPhrase, hreason⟩ _ => Spec.pure (by rw [blocks]; abel) ?_
  rw [cstr_reasonPhraseOf] at hreason
  simp [erase, HttpResponse.setStatusCode, hreason]

theorem init_spec : Spec 0 init blocks fun r => r.erase = .init := by
  refine HeapString.init_spec.bind fun ⟨scratch, hscratch⟩ _ => ?_
  refine HeapString.init_spec.call scratch.blocks (zero_add _).symm
    fun ⟨reasonPhrase, hreason⟩ _ => ?_
  refine (setStatusCode_spec _ 200).last 0 ?_ (fun _ _ => (add_zero _).symm) fun r' hr' => ?_
  · simp only [blocks, HeapHeaders.blocks_init, HeapBytes.blocks_init]
    abel
  · rw [hr']
    simp [erase, HttpResponse.setStatusCode, HttpResponse.init, hscratch, HeapBytes.init]

/-- **The reason phrase is left behind.** -/
theorem dealloc_spec : Spec r.blocks r.dealloc (fun _ => r.reasonPhrase.blocks) fun _ => True := by
  refine r.headers.dealloc_spec.call
    (r.scratch.blocks + r.reasonPhrase.blocks + r.bodyBuffer.blocks) (by rw [blocks]; abel)
    fun _ _ => ?_
  refine r.bodyBuffer.dealloc_spec.call (r.scratch.blocks + r.reasonPhrase.blocks) (by abel)
    fun _ _ => ?_
  exact r.scratch.dealloc_spec.last r.reasonPhrase.blocks (by abel)
    (fun _ _ => (zero_add _).symm) fun _ _ => trivial

theorem clear_spec : Spec r.blocks r.clear blocks fun r' => r'.erase = r.erase.clear := by
  refine r.scratch.clear_spec.call
    (r.reasonPhrase.blocks + r.headers.blocks + r.bodyBuffer.blocks) (by rw [blocks]; abel)
    fun ⟨scratch, hscratch⟩ _ => ?_
  refine (setStatusCode_spec { r with scratch } 200).call 0 (by simp only [blocks]; abel)
    fun r₁ hr₁ => ?_
  refine r₁.bodyBuffer.clear_spec.call
    (r₁.scratch.blocks + r₁.reasonPhrase.blocks + r₁.headers.blocks) (by rw [blocks]; abel)
    fun ⟨bodyBuffer, hbody⟩ _ => Spec.pure ?_ ?_
  · simp only [blocks, HeapHeaders.blocks_clear]
    abel
  · have hfields : r₁.scratch.text = [] ∧ r₁.statusCode = 200
        ∧ r₁.reasonPhrase.text = reasonPhraseOf 200
        ∧ r₁.headers.erase = r.headers.erase := by
      have h := hr₁
      simp only [erase, HttpResponse.setStatusCode, HttpResponse.mk.injEq] at h
      exact ⟨h.1.trans hscratch, h.2.1, h.2.2.1, h.2.2.2.1⟩
    obtain ⟨h₁, h₂, h₃, h₄⟩ := hfields
    simp [erase, HttpResponse.clear, HttpResponse.setStatusCode, h₁, h₂, h₃, h₄, hbody]

/-! ## The handler -/

theorem setHeaders_eq (headers : HeapHeaders) :
    { r with headers }.blocks
      = headers.blocks + (r.scratch.blocks + r.reasonPhrase.blocks + r.bodyBuffer.blocks) := by
  rw [blocks]
  abel

theorem call_spec (c : ScriptCall) :
    Spec r.blocks (r.call c) blocks fun r' => r'.erase = r.erase.call c := by
  cases c with
  | setStatusCode statusCode => exact r.setStatusCode_spec statusCode
  | getCstr name =>
      refine (r.headers.getCstrLen_spec (cstr name) true).call _ (r.setHeaders_eq r.headers)
        fun found herase => Spec.pure (r.setHeaders_eq found.2).symm ?_
      obtain ⟨_, headers⟩ := found
      obtain ⟨herase, -⟩ := herase
      dsimp only at herase
      simp [erase, HttpResponse.call, HttpHeaders.getCstr, herase]
  | appendValue slot edits =>
      refine (r.headers.appendEdited_spec slot edits).call _ (r.setHeaders_eq r.headers)
        fun headers hedited => Spec.pure (r.setHeaders_eq headers).symm ?_
      obtain ⟨herase, -⟩ := hedited
      have hset : { r with headers }.erase = { r.erase with headers := headers.erase } := rfl
      have hheaders : r.erase.headers = r.headers.erase := rfl
      have hlength : r.headers.erase.headersLength = r.headers.headersLength := rfl
      rw [hset, herase, HttpResponse.call, hheaders, hlength]
      split
      · rfl
      · rfl
  | writeBody src =>
      refine (r.bodyBuffer.writeAt_spec r.bodyPosition_le src).call
        (r.scratch.blocks + r.reasonPhrase.blocks + r.headers.blocks) (by rw [blocks]; abel)
        fun bodyBuffer _ => ?_
      obtain ⟨bodyBuffer, hbody⟩ := bodyBuffer
      refine Spec.pure ?_ ?_
      · simp only [blocks]
        abel
      · simp [erase, HttpResponse.call, HttpResponse.writeBody, hbody]

theorem printBody_spec (text : Bytes) :
    Spec r.blocks (r.printBody text) blocks fun r' => r'.erase = r.erase.writeBody text := by
  refine (HeapBuffer.init.setLength_spec (text.length + 1)).call r.blocks (by simp)
    fun b _ => ?_
  obtain ⟨b, hlength, -⟩ := b
  have hroom : text.length + 1 ≤ b.capacity := hlength ▸ b.length_le
  refine (b.access_spec (by omega)).call r.blocks rfl fun _ _ => ?_
  refine (b.access_spec (by omega)).call r.blocks rfl fun _ _ => ?_
  refine (r.call_spec (.writeBody text)).call b.blocks (add_comm _ _) fun r' hr' => ?_
  refine b.dealloc_spec.call r'.blocks (add_comm _ _) fun _ _ => ?_
  exact Spec.pure (zero_add _) hr'

/-! ## The headers that are written -/

theorem staleLength_spec (bodyLength : Nat) (h : HeapHeader) :
    Spec h.blocks (staleLength bodyLength h) (fun _ => h.blocks) fun stale =>
      stale = true ↔ h.erase.getNumValues ≠ 1
        ∨ (h.erase.getValue 0).bind sscanfZu ≠ some bodyLength := by
  unfold staleLength
  by_cases hone : h.valuesLength = 1
  · have hone' : h.erase.getNumValues = 1 := hone
    rw [if_neg (not_not.mpr hone)]
    refine (HeapRequest.readContentLength_spec h).bind fun length hlength => Spec.pure rfl ?_
    rw [hlength, if_pos hone']
    cases (h.erase.getValue 0).bind sscanfZu <;> simp [hone']
  · have hone' : h.erase.getNumValues ≠ 1 := hone
    rw [if_pos hone]
    exact Spec.pure rfl (by simp [hone'])

theorem fixContentLength_spec (bodyLength : Nat) (h : HeapHeader) :
    Spec h.blocks (fixContentLength bodyLength h) HeapHeader.blocks fun h' =>
      h'.erase = Http.fixContentLength bodyLength h.erase := by
  refine (staleLength_spec bodyLength h).bind fun stale hstale => ?_
  have hpure : Http.fixContentLength bodyLength h.erase
      = (let header := (if stale then h.clear else h).erase
        if header.getNumValues = 0 then header.appendValue (decimal bodyLength) else header) := by
    unfold Http.fixContentLength
    by_cases hone : h.erase.getNumValues = 1
    · cases hvalue : (h.erase.getValue 0).bind sscanfZu with
      | none =>
          have hclear : stale = true := hstale.mpr (.inr (by simp [hvalue]))
          simp [hone, hclear]
      | some n =>
          by_cases hn : n = bodyLength
          · have hkeep : stale = false := by
              rw [← Bool.not_eq_true, hstale]
              simp [hone, hvalue, hn]
            simp [hone, hn, hkeep]
          · have hclear : stale = true := hstale.mpr (.inr (by simp [hvalue, hn]))
            simp [hone, hn, hclear]
    · have hclear : stale = true := hstale.mpr (.inl hone)
      simp [hone, hclear]
  rw [hpure]
  have hblocks : (if stale then h.clear else h).blocks = h.blocks := by
    cases stale <;> rfl
  rw [← hblocks]
  dsimp only
  generalize (if stale then h.clear else h) = h'
  split
  · rename_i hzero
    have hset (s : HeapString) : Spec (s.blocks + 0) (s.setDecimal bodyLength)
        (fun s' => s'.blocks + 0) fun s' => s'.text = decimal bodyLength := by
      refine (s.setCstrf_spec (decimal bodyLength)).call 0 rfl fun s' _ => ?_
      obtain ⟨_, hs⟩ := s'
      exact Spec.pure rfl hs
    rw [if_pos (show h'.erase.getNumValues = 0 from hzero)]
    simpa using h'.appendValue_spec (fun _ => decimal bodyLength) 0 hset
  · rename_i hzero
    rw [if_neg (show ¬h'.erase.getNumValues = 0 from hzero)]
    exact Spec.pure rfl rfl

theorem fixHeaders_spec : Spec r.blocks r.fixHeaders blocks fun r' => r'.erase = r.erase.fixed := by
  refine (r.headers.getCstrLen_true_spec (cstr (ascii "Content-Length"))).call _
    (r.setHeaders_eq r.headers) fun found hfound => ?_
  obtain ⟨p, headers⟩ := found
  obtain ⟨herase, i, p', hi, hp, hpoints⟩ := hfound
  obtain rfl : p = some p' := hp
  dsimp only at herase
  have hfix (h : HeapHeader) : Spec (h.blocks + 0) (fixContentLength r.bodyBuffer.bytes.length h)
      (fun h' => h'.blocks + 0)
      fun h' => h'.erase = Http.fixContentLength r.bodyBuffer.bytes.length h.erase := by
    simpa using fixContentLength_spec r.bodyBuffer.bytes.length h
  refine (HeapHeaders.onHeader_spec hpoints _ 0 hfix).call
    (r.scratch.blocks + r.reasonPhrase.blocks + r.bodyBuffer.blocks) (by rw [add_zero])
    fun headers' ⟨herase', _⟩ => Spec.pure ?_ ?_
  · rw [add_zero]
    exact (r.setHeaders_eq headers').symm
  · have hget : r.erase.headers.getCstr (ascii "Content-Length") true = (some i, headers.erase) :=
      Prod.ext hi herase.symm
    have hfixed : r.erase.fixHeaders = headers'.erase := by
      rw [HttpResponse.fixHeaders, hget]
      exact herase'.symm
    rw [HttpResponse.fixed, hfixed]
    rfl

/-! ## The log text -/

theorem setScratch_eq (scratch : HeapString) :
    { r with scratch }.blocks
      = scratch.blocks + (r.headers.blocks + (r.reasonPhrase.blocks + r.bodyBuffer.blocks)) := by
  rw [blocks]
  abel

theorem reasonPhrase_le : r.reasonPhrase.blocks ≤ r.blocks := by
  rw [blocks, add_comm r.scratch.blocks]
  simp only [add_assoc]
  exact Multiset.le_add_right _ _

theorem logText_spec {text : Bytes} (htext : responseToString r.erase = some text) :
    Spec r.blocks r.logText blocks fun r' => r'.erase = { r.erase with scratch := text } := by
  obtain ⟨headers, hheaders, rfl⟩ := Option.map_eq_some_iff.mp htext
  refine r.scratch.clear_spec.call _ (r.setScratch_eq r.scratch) fun ⟨s₁, hs₁⟩ _ => ?_
  rw [← r.setScratch_eq]
  refine (r.reasonPhrase.read_spec.within (reasonPhrase_le { r with scratch := s₁ })).bind
    fun _ _ => ?_
  refine (s₁.appendCstrf_spec _).call _ (r.setScratch_eq s₁) fun ⟨s₂, hs₂⟩ _ => ?_
  refine (headersToString_spec r.headers hheaders s₂).call
    (r.reasonPhrase.blocks + r.bodyBuffer.blocks) (add_assoc _ _ _).symm fun s₃ hs₃ => ?_
  refine (s₃.appendCstrf_spec _).call _ (add_assoc _ _ _) fun ⟨s₄, hs₄⟩ _ => ?_
  refine s₄.read_spec.call _ rfl fun _ _ => Spec.pure (r.setScratch_eq s₄).symm ?_
  simp [erase, hs₄, hs₃, hs₂, hs₁, List.append_assoc]

/-! ## The writes -/

section
variable {own : Multiset Block}

theorem writeCstrf_spec {read : Alloc Unit} (text : Bytes)
    (hread : Spec own read (fun _ => own) fun _ => True) :
    Spec own (writeCstrf read text).offer (fun _ => own) fun _ => True := by
  refine hread.bind fun _ _ => ?_
  refine (HeapBuffer.init.setLength_spec (text.length + 1)).call own (by simp)
    fun ⟨b, hlength, _⟩ _ => ?_
  have hle : text.length + 1 ≤ b.capacity := hlength ▸ b.length_le
  refine (b.access_spec (by omega)).call own rfl fun _ _ => ?_
  refine (b.access_spec (by omega)).call own rfl fun _ _ => ?_
  exact b.dealloc_spec.last own rfl (fun _ _ => (zero_add _).symm) fun _ _ => trivial

theorem writeCstrf_constant_spec (text : Bytes) :
    Spec own (writeCstrf (pure ()) text).offer (fun _ => own) fun _ => True :=
  writeCstrf_spec text (Spec.pure rfl trivial)

theorem valueWrites_spec {a : HeapArray HeapString} (hown : a.blocks HeapString.blocks ≤ own)
    (l : List HeapString) (j : Nat) (hl : a.HasAt j l) :
    ∀ w ∈ valueWrites a.data j l, Spec own w.offer (fun _ => own) fun _ => True := by
  induction l generalizing j with
  | nil => simp [valueWrites]
  | cons v rest ih =>
      have hread : Spec own (do accessPointer a.data j 1; v.read) (fun _ => own) fun _ => True :=
        (HeapArray.accessSlot_spec hl.head hown).bind
          fun _ _ => v.read_spec.within ((HeapArray.own_le hl.head).trans hown)
      have hrest := ih (j + 1) hl.tail
      intro w hw
      rcases List.mem_append.mp hw with hseparator | hw
      · split at hseparator
        · obtain rfl := List.mem_singleton.mp hseparator
          exact writeCstrf_constant_spec _
        · cases hseparator
      · rcases List.mem_cons.mp hw with rfl | hw
        · exact writeCstrf_spec _ hread
        · exact hrest w hw

theorem headerWrites_spec {a : HeapArray HeapHeader} (hown : a.blocks HeapHeader.blocks ≤ own)
    (l : List HeapHeader) (i : Nat) (hl : a.HasAt i l) :
    ∀ w ∈ headerWrites a.data i l, Spec own w.offer (fun _ => own) fun _ => True := by
  induction l generalizing i with
  | nil => simp [headerWrites]
  | cons h rest ih =>
      have hheader : h.blocks ≤ own := (HeapArray.own_le hl.head).trans hown
      have hread : Spec own (do accessPointer a.data i 1; h.name.read) (fun _ => own)
          fun _ => True :=
        (HeapArray.accessSlot_spec hl.head hown).bind
          fun _ _ => h.name.read_spec.within ((Multiset.le_add_right _ _).trans hheader)
      have hvalues := valueWrites_spec ((Multiset.le_add_left _ _).trans hheader)
        _ 0 (h.values.hasAt_take h.valuesLength)
      have hrest := ih (i + 1) hl.tail
      intro w hw
      rw [headerWrites, List.cons_append, List.mem_cons, List.mem_append, List.mem_cons] at hw
      rcases hw with rfl | hw | rfl | hw
      · exact writeCstrf_spec _ hread
      · exact hvalues w hw
      · exact writeCstrf_constant_spec _
      · exact hrest w hw

end

/-- The blocks that the writes read. -/
theorem offeredWrites_spec : ∀ w ∈ r.offeredWrites,
    Spec (r.headers.blocks + (r.reasonPhrase.blocks + r.bodyBuffer.blocks)) w.offer
      (fun _ => r.headers.blocks + (r.reasonPhrase.blocks + r.bodyBuffer.blocks))
      fun _ => True := by
  intro w hw
  rw [offeredWrites, List.cons_append, List.mem_cons, List.mem_append, List.mem_pair] at hw
  rcases hw with rfl | hw | rfl | rfl
  · refine writeCstrf_spec _ (r.reasonPhrase.read_spec.within ?_)
    exact (Multiset.le_add_right _ _).trans (Multiset.le_add_left _ _)
  · exact headerWrites_spec (Multiset.le_add_right _ _) _ 0 (r.headers.headers.hasAt_take _) w hw
  · exact writeCstrf_constant_spec _
  · refine (r.bodyBuffer.access_spec (by omega)).within ?_
    exact (Multiset.le_add_left _ _).trans (Multiset.le_add_left _ _)

theorem map_text_valueWrites (data : Option Nat) (l : List HeapString) (j : Nat) :
    (valueWrites data (j + 1) l).map OfferedWrite.text
      = l.flatMap fun v => [ascii ",", cstr v.text] := by
  induction l generalizing j with
  | nil => rfl
  | cons v rest ih =>
      rw [valueWrites, if_pos (Nat.succ_pos j), List.map_append, List.map_cons,
        List.map_cons, ih, List.flatMap_cons]
      rfl

theorem map_text_valueWrites_zero (data : Option Nat) (l : List HeapString) :
    (valueWrites data 0 l).map OfferedWrite.text
      = (l.map fun v => cstr v.text).intersperse (ascii ",") := by
  cases l with
  | nil => rfl
  | cons v rest =>
      rw [valueWrites, if_neg (Nat.lt_irrefl 0), List.nil_append, List.map_cons,
        map_text_valueWrites]
      change cstr v.text :: _ = _
      induction rest generalizing v with
      | nil => rfl
      | cons v' rest ih =>
          have hrest := ih v'
          rw [List.map_cons] at hrest
          rw [List.flatMap_cons, List.map_cons, List.map_cons,
            List.intersperse_cons_cons, ← hrest]
          rfl

theorem map_text_headerWrites (data : Option Nat) (l : List HeapHeader) (i : Nat) :
    (headerWrites data i l).map OfferedWrite.text
      = (l.map HeapHeader.erase).flatMap Http.headerWrites := by
  induction l generalizing i with
  | nil => rfl
  | cons h rest ih =>
      have hlive : h.erase.live.map cstr
          = (h.values.slots.take h.valuesLength).map fun v => cstr v.text := by
        simp [HttpHeader.live, HeapHeader.erase, List.map_take, Function.comp_def]
      rw [headerWrites, List.map_append, List.map_cons, map_text_valueWrites_zero, List.map_cons,
        ih, List.map_cons, List.flatMap_cons, Http.headerWrites, hlive]
      simp [writeCstrf, HeapHeader.erase]

/-- The writes offer what they offer in `Http.Response`. -/
theorem map_text_offeredWrites : r.offeredWrites.map OfferedWrite.text = r.erase.writes := by
  rw [offeredWrites, List.map_append, List.map_cons, map_text_headerWrites, List.map_take]
  rfl

theorem writeError_spec (error : Option Bytes) (accepted : Option Nat) (scratch : HeapString) :
    Spec scratch.blocks (writeError error accepted scratch) HeapString.blocks fun s =>
      s.text = if accepted = none then error.getD scratch.text else scratch.text := by
  cases accepted with
  | none =>
      cases error with
      | none => exact scratch.read_spec.bind fun _ _ => Spec.pure rfl rfl
      | some text =>
          refine (scratch.setCstrf_spec text).bind fun s _ => ?_
          obtain ⟨s, hs⟩ := s
          exact s.read_spec.bind fun _ _ => Spec.pure rfl hs
  | some n => exact scratch.read_spec.bind fun _ _ => Spec.pure rfl rfl

theorem writeAll_spec (d : Destination) (error : Option Bytes) {own : Multiset Block}
    (ws : List OfferedWrite) (i : Nat) (scratch : HeapString)
    (hws : ∀ w ∈ ws, Spec own w.offer (fun _ => own) fun _ => True) :
    Spec (scratch.blocks + own) (writeAll d error i ws scratch) (fun p => p.2.1.blocks + own)
      fun p => (p.1, p.2.2) = Http.writeAll d i (ws.map OfferedWrite.text)
        ∧ p.2.1.text = leftInScratch d error i (ws.map OfferedWrite.text) scratch.text := by
  induction ws generalizing i with
  | nil => exact Spec.pure rfl ⟨rfl, rfl⟩
  | cons w rest ih =>
      refine (hws w List.mem_cons_self).call scratch.blocks (add_comm _ _) fun _ _ => ?_
      rw [add_comm]
      simp only [List.map_cons, Http.writeAll, leftInScratch]
      cases haccepts : d.accepts i w.text with
      | none =>
          rw [if_pos (show streamWriteResult none < 0 by decide),
            if_pos (show streamWriteResult none < 0 by decide)]
          refine (writeError_spec error none scratch).call own rfl fun s hs => ?_
          exact Spec.pure rfl ⟨rfl, hs⟩
      | some n =>
          by_cases hfailed : streamWriteResult (some n) < 0
          · simp only [hfailed, if_true]
            refine (writeError_spec error (some n) scratch).call own rfl fun s hs => ?_
            exact Spec.pure rfl ⟨rfl, hs⟩
          · simp only [hfailed, if_false]
            refine (ih (i + 1) fun w' hw' => hws w' (List.mem_cons_of_mem w hw')).bind
              fun p hp => ?_
            obtain ⟨code, s, more⟩ := p
            obtain ⟨hwritten, hs⟩ := hp
            refine Spec.pure rfl ⟨?_, hs⟩
            rw [← hwritten]

/-- **`http_response_write` over a heap.** -/
theorem write_spec (d : Destination) (error : Option Bytes)
    (hdefined : httpResponseWrite r.erase d ≠ .undefined) :
    Spec r.blocks (r.write d error) (fun p => p.2.1.blocks) fun p =>
      ∃ s, httpResponseWrite r.erase d = .returned p.1 s p.2.2
        ∧ p.2.1.erase = { s with
          scratch := leftInScratch d error 0 r.erase.fixed.writes s.scratch } := by
  have hfixed : { r.erase with headers := r.erase.fixHeaders } = r.erase.fixed := rfl
  rw [httpResponseWrite, hfixed] at hdefined ⊢
  cases htext : responseToString r.erase.fixed with
  | none =>
      rw [htext] at hdefined
      exact absurd rfl hdefined
  | some text =>
      refine r.fixHeaders_spec.bind fun r₁ hr₁ => ?_
      rw [← hr₁] at htext
      refine (r₁.logText_spec htext).bind fun r₂ hr₂ => ?_
      have hwrites : r₂.offeredWrites.map OfferedWrite.text = r.erase.fixed.writes := by
        rw [map_text_offeredWrites, hr₂, hr₁]
        rfl
      refine (writeAll_spec d error r₂.offeredWrites 0 r₂.scratch r₂.offeredWrites_spec).call
        0 (by rw [add_zero]; exact r₂.setScratch_eq r₂.scratch) fun p hp => ?_
      obtain ⟨code, scratch, accepted⟩ := p
      obtain ⟨hwritten, hscratch⟩ := hp
      refine Spec.pure ?_ ?_
      · rw [add_zero]
        exact (r₂.setScratch_eq scratch).symm
      · have htext₂ : r₂.scratch.text = text := congrArg HttpResponse.scratch hr₂
        rw [hwrites] at hwritten hscratch
        rw [← hwritten]
        refine ⟨_, rfl, ?_⟩
        have herase : { r₂ with scratch }.erase
          = { r₂.erase with scratch := scratch.text } := rfl
        rw [herase, hscratch, htext₂, hr₂, hr₁]

end HeapResponse

end CWebServer.Allocations
