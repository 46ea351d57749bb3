import CWebServer.Allocations.Server
import CWebServer.HttpServer.Program

/-!
# Allocations — Tasks

`http_server_task` as calls on a record of the server. Over a heap it sends
what it sends in `HttpServer.Task`, and the program answers what it answers in
`HttpServer.Program`, whatever the server has done before.
-/

namespace CWebServer.Allocations

open CWebServer.Lib CWebServer.Strings CWebServer.Http CWebServer.HttpServer

/-! ## The calls of a task -/

/-- One call after the other on a record. -/
def RecordTexts.calls : List TaskCall → RecordTexts → Option (RecordTexts × List RunResult)
  | [], t => some (t, [])
  | c :: cs, t => (t.call c).bind fun p => (calls cs p.1).map fun q => (q.1, p.2 ++ q.2)

/-- `http_server_task` up to `DONE`, where `http_request_parse` returns `code` and
the callback makes the calls `handler` and returns `result`. -/
def taskCalls (stream : Stream) (code : Nat) (handler : List TaskCall) (result : Int) :
    List TaskCall :=
  .parse stream ::
    if code ≠ 0 then [.clearResponse, .respond (.setStatusCode 400)]
    else [.clearResponse, .read .requestAddress, .read .method, .read .uri] ++ handler
      ++ if result ≠ 0 then [.clearResponse, .respond (.setStatusCode 500)] else []

/-- `http_server_task` on the `i`th of the records in use. -/
def httpServerTaskCalls (i : Nat) (stream : Stream) (code : Nat) (handler : List TaskCall)
    (result : Int) (d : Destination) (error : Option Bytes) (closed : Bool) : List ServerCall :=
  (taskCalls stream code handler result).map (.task i) ++ [.finalize i d error closed]

/-- What the callback does with the request and the response of `t` is done by
these calls, none of which parses. -/
structure DoneBy {α : Type} (server : HttpServerFields α) (t : RecordTexts)
    (handler : List TaskCall) (result : Int) (t' : RecordTexts) : Prop where
  calls : RecordTexts.calls handler t = some (t', [])
  callback : server.callback server.callbackData t.request t.response
    = ⟨result, t'.request, t'.response⟩

/-- `handle_request`. -/
def handleRequestCalls (request : HttpRequest) : List TaskCall :=
  [.read .uri, .printBody (receivedText request.uri)]

/-- What `handle_request` does is done by its calls. -/
theorem doneBy_handleRequest {server : HttpServerFields Unit}
    (hcallback : server.callback = handleRequest) (t : RecordTexts) :
    DoneBy server t (handleRequestCalls t.request) 0
      { t with response := t.response.writeBody (receivedText t.request.uri) } where
  calls := rfl
  callback := by
    rw [hcallback]
    rfl

/-! ## Runs -/

theorem RecordTexts.calls_append {cs cs' : List TaskCall} {t t' t'' : RecordTexts}
    {results results' : List RunResult} (h : calls cs t = some (t', results))
    (h' : calls cs' t' = some (t'', results')) :
    calls (cs ++ cs') t = some (t'', results ++ results') := by
  induction cs generalizing t results with
  | nil =>
      obtain ⟨rfl, rfl⟩ := Prod.mk.inj (Option.some.inj h)
      exact h'
  | cons c cs ih =>
      obtain ⟨p, hp, hrest⟩ := Option.bind_eq_some_iff.mp h
      obtain ⟨q, hq, heq⟩ := Option.map_eq_some_iff.mp hrest
      obtain ⟨rfl, rfl⟩ := Prod.mk.inj heq
      rw [List.cons_append, calls, hp, Option.bind_some, ih hq, Option.map_some,
        List.append_assoc]

theorem RecordTexts.exists_finalize (t : RecordTexts) {d : Destination} {code : Nat}
    {response : HttpResponse} {accepted : Bytes} (hformat : t.response.fixed.Formattable)
    (h : httpResponseWrite t.response d = .returned code response accepted)
    (error : Option Bytes) :
    ∃ t', t.finalize d error = some (t', [.written (code, accepted)]) :=
  ⟨_, by rw [finalize, if_pos hformat, h]⟩

namespace ServerTexts

theorem run_append {cs cs' : List ServerCall} {s s' s'' : ServerTexts}
    {results results' : List RunResult} (h : run cs s = some (s', results))
    (h' : run cs' s' = some (s'', results')) :
    run (cs ++ cs') s = some (s'', results ++ results') := by
  induction cs generalizing s results with
  | nil =>
      obtain ⟨rfl, rfl⟩ := Prod.mk.inj (Option.some.inj h)
      exact h'
  | cons c cs ih =>
      rw [run] at h
      cases hcall : s.call c with
      | none =>
          rw [hcall] at h
          cases h
      | some p =>
          rw [hcall] at h
          obtain ⟨q, hq, heq⟩ := Option.map_eq_some_iff.mp h
          obtain ⟨rfl, rfl⟩ := Prod.mk.inj heq
          rw [List.cons_append, run, hcall]
          simp only [ih hq, Option.map_some, List.append_assoc]

/-- Calls on one record leave the others as they are. -/
theorem run_tasks {cs : List TaskCall} {s : ServerTexts} {i : Nat} {t t' : RecordTexts}
    {results : List RunResult} (ht : s.busy[i]? = some t)
    (h : RecordTexts.calls cs t = some (t', results)) :
    run (cs.map (.task i)) s = some (⟨s.pool, s.busy.set i t'⟩, results) := by
  induction cs generalizing s t results with
  | nil =>
      obtain ⟨rfl, rfl⟩ := Prod.mk.inj (Option.some.inj h)
      obtain ⟨hi, rfl⟩ := List.getElem?_eq_some_iff.mp ht
      rw [List.set_getElem_self]
      rfl
  | cons c cs ih =>
      obtain ⟨p, hp, hrest⟩ := Option.bind_eq_some_iff.mp h
      obtain ⟨q, hq, heq⟩ := Option.map_eq_some_iff.mp hrest
      obtain ⟨rfl, rfl⟩ := Prod.mk.inj heq
      have hcall : s.call (.task i c) = some (⟨s.pool, s.busy.set i p.1⟩, p.2) := by
        simp only [call, ht, hp, Option.map_some]
      obtain ⟨hi, -⟩ := List.getElem?_eq_some_iff.mp ht
      have hrun := @ih ⟨s.pool, s.busy.set i p.1⟩ p.1 q.2 (List.getElem?_set_self hi) hq
      rw [List.map_cons, run, hcall]
      simp only [hrun, List.set_set, Option.map_some]

end ServerTexts

/-! ## The task -/

section

variable {α : Type} {server : HttpServerFields α} {t : RecordTexts} {stream rest : Stream}
  {code : Nat} {request : HttpRequest} {handler : List TaskCall} {result : Int}

/-- What the calls leave is what `http_server_finalize_task` is called with. -/
theorem calls_taskCalls (hparse : httpRequestParse t.request stream = .returned code request rest)
    (hhandler : code = 0 →
      ∃ t', DoneBy server { t with request, response := t.response.clear } handler result t') :
    ∃ t' made, RecordTexts.calls (taskCalls stream code handler result) t
        = some (t', [.parsed (code, request, rest)])
      ∧ ∀ d, httpServerTask server ⟨t.request, t.response⟩ stream d
        = httpServerFinalizeTask made ⟨t'.request, t'.response⟩ d := by
  have hcall : t.call (.parse stream)
      = some ({ t with request }, [.parsed (code, request, rest)]) := by
    rw [RecordTexts.call, hparse]
  rw [taskCalls, RecordTexts.calls, hcall, Option.bind_some]
  by_cases hcode : code = 0
  · obtain ⟨t₁, hcalls, hcallback⟩ := hhandler hcode
    subst hcode
    dsimp only at hcallback
    have htask (d : Destination) : httpServerTask server ⟨t.request, t.response⟩ stream d
        = httpServerFinalizeTask [⟨server.callbackData, request, t.response.clear⟩]
          (respond server.callback server.callbackData request t.response.clear) d :=
      httpServerTask_accepted hparse
    simp only [respond, hcallback] at htask
    have hlog : RecordTexts.calls
        [.clearResponse, .read .requestAddress, .read .method, .read .uri] { t with request }
        = some ({ t with request, response := t.response.clear }, []) := rfl
    -- what a callback that failed has left is cleared again
    let t₂ : RecordTexts := { t₁ with response :=
      if result ≠ 0 then t₁.response.clear.setStatusCode 500 else t₁.response }
    have hafter : RecordTexts.calls
        (if result ≠ 0 then [.clearResponse, .respond (.setStatusCode 500)] else []) t₁
        = some (t₂, []) := by
      by_cases hresult : result ≠ 0
      · simp only [t₂, if_pos hresult]
        rfl
      · simp only [t₂, if_neg hresult]
        rfl
    refine ⟨t₂, _, ?_, htask⟩
    rw [if_neg (not_not.mpr rfl),
      RecordTexts.calls_append (RecordTexts.calls_append hlog hcalls) hafter]
    rfl
  · refine ⟨⟨t.requestAddress, request, t.response.clear.setStatusCode 400⟩, [], ?_,
      fun d => httpServerTask_malformed hparse hcode⟩
    simp [RecordTexts.calls, RecordTexts.call, HttpResponse.call, hcode]

variable {s : ServerTexts} {i : Nat} {d : Destination} {calls : List (CallbackCall α)}
  {sent : Bytes} {task' : TaskTexts}

theorem run_httpServerTaskCalls (ht : s.busy[i]? = some t)
    (hparse : httpRequestParse t.request stream = .returned code request rest)
    (hhandler : code = 0 →
      ∃ t', DoneBy server { t with request, response := t.response.clear } handler result t')
    (htask : httpServerTask server ⟨t.request, t.response⟩ stream d
      = .finished calls sent task')
    (error : Option Bytes) (closed : Bool) :
    ∃ t' written, ServerTexts.run
        (httpServerTaskCalls i stream code handler result d error closed) s
      = some (⟨t' :: s.pool, s.busy.eraseIdx i⟩,
        [.parsed (code, request, rest), .written (written, sent)]) := by
  obtain ⟨t₁, made, hcalls, hdone⟩ := calls_taskCalls hparse hhandler
  rw [hdone] at htask
  obtain ⟨-, -, hformat, -⟩ := httpServerFinalizeTask_finished.mp ⟨task', htask⟩
  rw [httpServerFinalizeTask, if_pos hformat] at htask
  have hrun := ServerTexts.run_tasks ht hcalls
  obtain ⟨hi, -⟩ := List.getElem?_eq_some_iff.mp ht
  cases hwrite : httpResponseWrite t₁.response d with
  | undefined =>
      rw [hwrite] at htask
      cases htask
  | returned written response accepted =>
      rw [hwrite] at htask
      cases htask
      obtain ⟨t', hfinalize⟩ := t₁.exists_finalize hformat hwrite error
      have hlast : ServerTexts.run [.finalize i d error closed] ⟨s.pool, s.busy.set i t₁⟩
          = some (⟨t' :: s.pool, s.busy.eraseIdx i⟩, [.written (written, sent)]) := by
        simp only [ServerTexts.run, ServerTexts.call, hfinalize, List.getElem?_set_self hi,
          List.eraseIdx_set_eq, Option.map_some, List.append_nil]
      exact ⟨t', written, ServerTexts.run_append hrun hlast⟩

end

/-! ## Over a heap -/

theorem HeapServer.serve_run (socketAddress : Bytes) {cs : List ServerCall} {s : ServerTexts}
    {results : List RunResult} (h : ServerTexts.run cs {} = some (s, results)) (heap : Heap) :
    ∃ bound hs heap', serve socketAddress cs heap = some ((bound, hs, results), heap')
      ∧ hs.erase = s ∧ heap'.live = bound.blocks + hs.blocks + heap.live := by
  obtain ⟨p, heap', hrun, hlive, hp, -⟩ := serve_spec socketAddress h heap heap.live
    (zero_add _).symm
  obtain ⟨rfl, rfl⟩ := Prod.mk.inj hp.1
  exact ⟨p.1, p.2.1, heap', hrun, rfl, hlive⟩

section

variable {cs : List ServerCall} {s : ServerTexts} {results : List RunResult} {i : Nat}
  {t : RecordTexts} {stream : Stream} {d : Destination}

/-- **A task over a heap sends what it sends without one**, whatever the server
has done before, and then its record is back in the pool. Without a heap the
run before and the task come to an end: their log lines are defined, and no
text is too long for `printf`. -/
theorem task_over_heap {α : Type} {server : HttpServerFields α} {rest : Stream} {code : Nat}
    {request : HttpRequest} {handler : List TaskCall} {result : Int}
    {calls : List (CallbackCall α)} {sent : Bytes} {task' : TaskTexts}
    (h : ServerTexts.run cs {} = some (s, results)) (ht : s.busy[i]? = some t)
    (hparse : httpRequestParse t.request stream = .returned code request rest)
    (hhandler : code = 0 →
      ∃ t', DoneBy server { t with request, response := t.response.clear } handler result t')
    (htask : httpServerTask server ⟨t.request, t.response⟩ stream d
      = .finished calls sent task')
    (socketAddress : Bytes) (error : Option Bytes) (closed : Bool) (heap : Heap) :
    ∃ t' written bound hs heap',
      HeapServer.serve socketAddress
          (cs ++ httpServerTaskCalls i stream code handler result d error closed) heap
        = some ((bound, hs,
          results ++ [.parsed (code, request, rest), .written (written, sent)]), heap')
      ∧ hs.erase = ⟨t' :: s.pool, s.busy.eraseIdx i⟩
      ∧ heap'.live = bound.blocks + hs.blocks + heap.live := by
  obtain ⟨t', written, hrun⟩ := run_httpServerTaskCalls ht hparse hhandler htask error closed
  exact ⟨t', written, HeapServer.serve_run socketAddress (ServerTexts.run_append h hrun) heap⟩

theorem task_over_heap_get :
    ∃ request rest sent t' written bound hs heap',
      HeapServer.serve (ascii "::") ([.accept (ascii "::1") true] ++ httpServerTaskCalls 0
          [.bytes getRead] 0 (handleRequestCalls request) 0 takesAll none true) .empty
        = some ((bound, hs, [.parsed (0, request, rest), .written (written, sent)]), heap')
      ∧ hs.erase = ⟨[t'], []⟩ ∧ heap'.live = bound.blocks + hs.blocks := by
  obtain ⟨request, rest, hparse⟩ :
      ∃ request rest, httpRequestParse {} [.bytes getRead] = .returned 0 request rest :=
    ⟨_, _, rfl⟩
  have hcallback : mainServer.callback = handleRequest := rfl
  have htakes : TakesAll takesAll := fun _ _ => rfl
  obtain ⟨calls, task', htask⟩ := sends_answerText hcallback htakes ⟨{}, .init⟩ hparse
  have haccept : ServerTexts.run [.accept (ascii "::1") true] {}
      = some (⟨[], [{ RecordTexts.new with requestAddress := cstr (ascii "::1") }]⟩, []) := rfl
  obtain ⟨t', written, bound, hs, heap', hserve, herase, hlive⟩ :=
    task_over_heap haccept List.getElem?_cons_zero hparse
      (fun _ => ⟨_, doneBy_handleRequest hcallback _⟩) htask (ascii "::") none true .empty
  exact ⟨request, rest, _, t', written, bound, hs, heap', hserve, herase,
    hlive.trans (add_zero _)⟩

/-- **The program over a heap**, after any history of the server that is defined
without one: what comes in on a connection decides what goes out, as in
`program_answers` (`TakesAll`, `CutsAllowed`). -/
theorem program_over_heap (h : ServerTexts.run cs {} = some (s, results))
    (ht : s.busy[i]? = some t) (hd : TakesAll d) (hformats : ¬BringsFormats stream)
    (socketAddress : Bytes) (error : Option Bytes) (closed : Bool) (heap : Heap) :
    ∃ code request rest sent t' written bound hs heap',
      HeapServer.serve socketAddress (cs ++ httpServerTaskCalls i stream code
          (handleRequestCalls request) 0 d error closed) heap
        = some ((bound, hs,
          results ++ [.parsed (code, request, rest), .written (written, sent)]), heap')
      ∧ hs.erase = ⟨t' :: s.pool, s.busy.eraseIdx i⟩
      ∧ heap'.live = bound.blocks + hs.blocks + heap.live
      ∧ (∀ d' rest' method uri fs n, stream = deliver d' ++ rest' →
        Delivers d' method uri fs n → sent = echoText uri)
      ∧ ((∀ d' rest' method uri fs n, stream = deliver d' ++ rest' →
        ¬Delivers d' method uri fs n) → sent = badRequestText) := by
  rw [← httpRequestParse_undefined_iff (r := t.request)] at hformats
  cases hparse : httpRequestParse t.request stream with
  | undefined => exact absurd hparse hformats
  | returned code request rest =>
      have hcallback : mainServer.callback = handleRequest := rfl
      obtain ⟨calls, task', htask⟩ :=
        sends_answerText hcallback hd ⟨t.request, t.response⟩ hparse
      obtain ⟨t', written, hrun⟩ := run_httpServerTaskCalls ht hparse
        (fun _ => ⟨_, doneBy_handleRequest hcallback _⟩) htask error closed
      obtain ⟨bound, hs, heap', hserve, herase, hlive⟩ :=
        HeapServer.serve_run socketAddress (ServerTexts.run_append h hrun) heap
      exact ⟨code, request, rest, _, t', written, bound, hs, heap', hserve, herase, hlive,
        answerText_spec hparse⟩

end

theorem program_over_heap_get :
    ∃ code request rest sent t' written bound hs heap',
      HeapServer.serve (ascii "::") ([.accept (ascii "::1") true] ++ httpServerTaskCalls 0
          [.bytes getRead] code (handleRequestCalls request) 0 takesAll none true) .empty
        = some ((bound, hs, [.parsed (code, request, rest), .written (written, sent)]), heap')
      ∧ hs.erase = ⟨[t'], []⟩ ∧ heap'.live = bound.blocks + hs.blocks + 0
      ∧ (∀ d rest' method uri fs n, [.bytes getRead] = deliver d ++ rest' →
        Delivers d method uri fs n → sent = echoText uri)
      ∧ ((∀ d rest' method uri fs n, [.bytes getRead] = deliver d ++ rest' →
        ¬Delivers d method uri fs n) → sent = badRequestText) := by
  have haccept : ServerTexts.run [.accept (ascii "::1") true] {}
      = some (⟨[], [{ RecordTexts.new with requestAddress := cstr (ascii "::1") }]⟩, []) := rfl
  refine program_over_heap haccept List.getElem?_cons_zero (fun _ _ => rfl) ?_ (ascii "::")
    none true .empty
  rw [← httpRequestParse_undefined_iff (r := {})]
  exact ParseOutcome.noConfusion

end CWebServer.Allocations
