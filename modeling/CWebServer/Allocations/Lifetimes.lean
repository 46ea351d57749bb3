import CWebServer.Allocations.Writing

/-!
# Allocations — Lifetimes

A request and a response from `_init` to `_dealloc`, with any calls between.
What the calls return is what they return without a heap; of the blocks of a
request nothing is left, of those of a response the reason phrase.
-/

namespace CWebServer.Allocations

open CWebServer.Lib CWebServer.Strings CWebServer.Http

/-! ## Requests -/

/-- What a call of `http_request_parse` returns, the request that it leaves and
the reads that it does not make. -/
abbrev ParseResult := Nat × HttpRequest × Stream

/-- One request that parses one stream after the other; `none` is undefined
behaviour. -/
def parses : List Stream → HttpRequest → Option (List ParseResult)
  | [], _ => some []
  | stream :: streams, r =>
      match httpRequestParse r stream with
      | .undefined => none
      | .returned code r' rest => (parses streams r').map ((code, r', rest) :: ·)

namespace HeapRequest

def parses : List Stream → HeapRequest → Alloc (List ParseResult × HeapRequest)
  | [], r => pure ([], r)
  | stream :: streams, r => do
      let (code, r, rest) ← r.parse stream
      let (results, last) ← parses streams r
      pure ((code, r.erase, rest) :: results, last)

/-- A request from `http_request_init` to `http_request_dealloc`. -/
def life (streams : List Stream) : Alloc (List ParseResult) := do
  let r ← init
  let (results, r) ← r.parses streams
  r.dealloc
  pure results

theorem parses_spec {streams : List Stream} {results : List ParseResult} (r : HeapRequest)
    (h : Allocations.parses streams r.erase = some results) :
    Spec r.blocks (r.parses streams) (fun p => p.2.blocks) fun p => p.1 = results := by
  induction streams generalizing r results with
  | nil =>
      obtain rfl : [] = results := Option.some.inj h
      exact Spec.pure rfl rfl
  | cons stream streams ih =>
      rw [Allocations.parses] at h
      cases hparse : httpRequestParse r.erase stream with
      | undefined =>
          rw [hparse] at h
          cases h
      | returned code s rest =>
          rw [hparse] at h
          obtain ⟨results', hresults, rfl⟩ := Option.map_eq_some_iff.mp h
          refine (r.parse_spec stream (by rw [hparse]; exact ParseOutcome.noConfusion)).bind
            fun ⟨code', r', rest'⟩ hr' => ?_
          rw [hparse] at hr'
          obtain ⟨rfl, rfl, rfl⟩ := ParseOutcome.returned.inj hr'
          refine (ih r' hresults).bind fun ⟨results'', last⟩ hrest => Spec.pure rfl ?_
          exact congrArg ((code, r'.erase, rest) :: ·) hrest

theorem life_spec {streams : List Stream} {results : List ParseResult}
    (h : Allocations.parses streams {} = some results) :
    Spec 0 (life streams) (fun _ => 0) fun results' => results' = results := by
  refine init_spec.bind fun r hr => ?_
  refine (r.parses_spec (hr ▸ h)).bind fun ⟨results', last⟩ hresults => ?_
  exact last.dealloc_spec.bind fun _ _ => Spec.pure rfl hresults

end HeapRequest

/-- **A request leaves no block behind**, whatever it parses, and never uses
memory that is not its own. -/
theorem request_life {streams : List Stream} {results : List ParseResult}
    (h : parses streams {} = some results) (heap : Heap) :
    ∃ heap', HeapRequest.life streams heap = some (results, heap')
      ∧ heap'.live = heap.live := by
  obtain ⟨results', heap', hrun, hlive, rfl, -⟩ :=
    HeapRequest.life_spec h heap heap.live (zero_add _).symm
  exact ⟨heap', hrun, hlive.trans (zero_add _)⟩

theorem request_life_example :
    ∃ results heap', HeapRequest.life [exampleStream, [.error none], exampleStream] .empty
      = some (results, heap') ∧ heap'.live = 0 := by
  have hsome : (parses [exampleStream, [.error none], exampleStream] {}).isSome = true := rfl
  obtain ⟨heap', hrun, hlive⟩ := request_life (Option.some_get hsome).symm .empty
  exact ⟨_, heap', hrun, hlive⟩

/-! ## Responses -/

/-- A call on a response. `error` is the text of an error that a write leaves in
`scratch`, if it leaves one. -/
inductive ResponseCall
  | call (c : ScriptCall)
  | clear
  | write (d : Destination) (error : Option Bytes)

/-- What a call of `http_response_write` returns, and the bytes accepted. -/
abbrev WriteResult := Nat × Bytes

/-- `none` is undefined behaviour, as it is in a write whose log line is not
defined, or of a text that is not `Formattable`. -/
def responseCalls : List ResponseCall → HttpResponse → Option (List WriteResult)
  | [], _ => some []
  | .call c :: calls, r => responseCalls calls (r.call c)
  | .clear :: calls, r => responseCalls calls r.clear
  | .write d error :: calls, r =>
      if r.fixed.Formattable then
        match httpResponseWrite r d with
        | .undefined => none
        | .returned code r' accepted =>
            (responseCalls calls { r' with
              scratch := leftInScratch d error 0 r.fixed.writes r'.scratch }).map
                ((code, accepted) :: ·)
      else none

namespace HeapResponse

def calls : List ResponseCall → HeapResponse → Alloc (List WriteResult × HeapResponse)
  | [], r => pure ([], r)
  | .call c :: rest, r => do
      let r ← r.call c
      calls rest r
  | .clear :: rest, r => do
      let r ← r.clear
      calls rest r
  | .write d error :: rest, r => do
      let (code, r, accepted) ← r.write d error
      let (results, last) ← calls rest r
      pure ((code, accepted) :: results, last)

/-- A response from `http_response_init` to `http_response_dealloc`. -/
def life (cs : List ResponseCall) : Alloc (List WriteResult) := do
  let r ← init
  let (results, r) ← r.calls cs
  r.dealloc
  pure results

theorem calls_spec {cs : List ResponseCall} {results : List WriteResult} (r : HeapResponse)
    (h : responseCalls cs r.erase = some results) :
    Spec r.blocks (r.calls cs) (fun p => p.2.blocks) fun p => p.1 = results := by
  induction cs generalizing r results with
  | nil =>
      obtain rfl : [] = results := Option.some.inj h
      exact Spec.pure rfl rfl
  | cons c cs ih =>
      cases c with
      | call c => exact (r.call_spec c).bind fun r' hr' => ih r' (hr' ▸ h)
      | clear => exact r.clear_spec.bind fun r' hr' => ih r' (hr' ▸ h)
      | write d error =>
          rw [responseCalls] at h
          obtain ⟨-, h⟩ := Option.ite_none_right_eq_some.mp h
          cases hwrite : httpResponseWrite r.erase d with
          | undefined =>
              rw [hwrite] at h
              cases h
          | returned code s accepted =>
              rw [hwrite] at h
              obtain ⟨results', hresults, rfl⟩ := Option.map_eq_some_iff.mp h
              refine (r.write_spec d error (by rw [hwrite]; exact WriteOutcome.noConfusion)).bind
                fun ⟨code', r', accepted'⟩ ⟨s', hs', hr'⟩ => ?_
              rw [hwrite] at hs'
              obtain ⟨rfl, rfl, rfl⟩ := WriteOutcome.returned.inj hs'
              have hrest := ih r' (hr' ▸ hresults)
              refine hrest.bind fun ⟨results'', last⟩ hsame => Spec.pure rfl ?_
              exact congrArg (_ :: ·) hsame

end HeapResponse

/-- A string has one block. -/
theorem HeapString.exists_blocks (s : HeapString) : ∃ b, s.blocks = {b} := by
  have hcapacity := s.length_lt
  cases hdata : s.b.data with
  | none =>
      have hzero := s.b.data_eq_none.mp hdata
      omega
  | some p => exact ⟨⟨p, s.b.capacity⟩, by simp [blocks, HeapBuffer.blocks, hdata]⟩

/-- **A response leaves the block of its reason phrase behind**, whatever is
done with it, and nothing else, as long as its writes are defined without a heap
(`responseCalls`). A header pointer is fetched again after a call that moved the
array: `slot` names one that can be used (`header_pointer_usable_iff`). -/
theorem response_life {cs : List ResponseCall} {results : List WriteResult}
    (h : responseCalls cs .init = some results) (heap : Heap) :
    ∃ heap' phrase, HeapResponse.life cs heap = some (results, heap')
      ∧ heap'.live = phrase ::ₘ heap.live ∧ heap.allocated ≤ phrase.name := by
  have hcalls : Spec 0 (do let r ← HeapResponse.init; r.calls cs) (fun p => p.2.blocks)
      fun p => p.1 = results :=
    HeapResponse.init_spec.bind fun r hr => r.calls_spec (hr ▸ h)
  -- the block that stays is the one the reason phrase has after the calls
  have hdealloc (p : List WriteResult × HeapResponse) (hp : p.1 = results) :
      Spec p.2.blocks (do p.2.dealloc; pure p.1) (fun _ => p.2.reasonPhrase.blocks)
        fun results' => results' = results := by
    refine p.2.dealloc_spec.bind fun _ _ => ?_
    exact Spec.pure rfl hp
  obtain ⟨p, results', heap', hrun, -, rfl, hlive, hnew⟩ :=
    hcalls.leaves hdealloc (zero_add heap.live).symm
  obtain ⟨phrase, hphrase⟩ := p.2.reasonPhrase.exists_blocks
  rw [hphrase] at hlive hnew
  refine ⟨heap', phrase, ?_, hlive, ?_⟩
  · rw [HeapResponse.life, ← hrun, bind_assoc]
  · exact (hnew phrase (Multiset.mem_singleton_self _)).resolve_left (Multiset.notMem_zero _)

/-- A header, a body, and both written twice. -/
def exampleCalls : List ResponseCall :=
  [.call (.getCstr (ascii "X")), .call (.appendValue 0 [.append (ascii "a")]),
    .call (.writeBody (ascii "hi")), .write oneByte none, .clear,
    .call (.getCstr (ascii "Y")), .call (.appendValue 0 [.append (ascii "b")]),
    .write oneByte none]

theorem response_life_example :
    ∃ results heap' phrase, HeapResponse.life exampleCalls .empty = some (results, heap')
      ∧ heap'.live = {phrase} := by
  have hsome : (responseCalls exampleCalls .init).isSome = true := rfl
  obtain ⟨heap', phrase, hrun, hlive, -⟩ :=
    response_life (Option.some_get hsome).symm .empty
  exact ⟨_, heap', phrase, hrun, hlive⟩

end CWebServer.Allocations
