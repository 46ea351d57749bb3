import CWebServer.Http.Acceptance
import CWebServer.Http.ContentLength
import CWebServer.Http.LineRules
import CWebServer.HttpServer.Model

/-!
# HttpServer — Task

One call of `http_server_task` with the texts that the step system leaves
out: what the callback is called with and what is sent. `http_server_init`
does not store `callback_data`, so the callback gets whatever stood in its
place before.
-/

namespace CWebServer.HttpServer

open CWebServer.Strings CWebServer.Http

section

variable {α : Type}

/-- What the user's callback returns, and what it leaves. -/
structure CallbackReturn where
  result : Int
  request : HttpRequest
  response : HttpResponse

/-- `http_server_func`, with `callback_data` of type `α`. -/
abbrev HttpServerFunc (α : Type) := α → HttpRequest → HttpResponse → CallbackReturn

/-- `http_server` without the socket, the thread pool and the mutex. -/
structure HttpServerFields (α : Type) where
  callback : HttpServerFunc α
  callbackData : α
  timeout : UInt64
  taskPoolLen : Nat
  taskPool : Option DataAddr

/-- `http_server_init` on what it finds in `server`. The flags say whether the
socket, the thread pool and the mutex could be initialised. -/
def httpServerInit (server : HttpServerFields α) (callback : HttpServerFunc α)
    (_callbackData : α) (timeout : UInt64) (socketInit threadPoolInit mutexInit : Bool) :
    Nat × HttpServerFields α :=
  let server := { server with callback := callback, timeout := timeout }
  if !socketInit then (1, server)
  else if !threadPoolInit then (1, server)
  else if !mutexInit then (1, server)
  else (0, { server with taskPoolLen := 0, taskPool := none })

/-- The request and the response of an `http_server_task_data`. -/
structure TaskTexts where
  request : HttpRequest
  response : HttpResponse

/-- A call of the callback. -/
structure CallbackCall (α : Type) where
  callbackData : α
  request : HttpRequest
  response : HttpResponse

/-- How a task ends: with the calls of the callback, the bytes sent and the
texts left in its record, or in undefined behaviour. -/
inductive TaskOutcome (α : Type)
  | finished (calls : List (CallbackCall α)) (sent : Bytes) (task : TaskTexts)
  | undefined

/-- `http_server_finalize_task`, up to the last byte sent. -/
def httpServerFinalizeTask (calls : List (CallbackCall α)) (task : TaskTexts) (d : Destination) :
    TaskOutcome α :=
  -- otherwise a write offers bytes that are not there
  if task.response.fixed.Formattable then
    match httpResponseWrite task.response d with
    | .undefined => .undefined
    | .returned _ response accepted => .finished calls accepted { task with response := response }
  else .undefined

/-- `http_server_task`. -/
def httpServerTask (server : HttpServerFields α) (task : TaskTexts) (stream : Stream)
    (d : Destination) : TaskOutcome α :=
  match httpRequestParse task.request stream with
  | .undefined => .undefined
  | .returned code request _ =>
      if code ≠ 0 then
        httpServerFinalizeTask [] ⟨request, task.response.clear.setStatusCode 400⟩ d
      else
        let response := task.response.clear
        let handled := server.callback server.callbackData request response
        httpServerFinalizeTask [⟨server.callbackData, request, response⟩]
          ⟨handled.request,
            if handled.result ≠ 0 then handled.response.clear.setStatusCode 500
            else handled.response⟩ d

/-! ## The rule -/

/-- A response with nothing in it. -/
structure Cleared (r : HttpResponse) : Prop where
  statusCode : r.statusCode = 200
  reasonPhrase : r.reasonPhrase = ascii "OK"
  headers : r.headers.toList = []
  bodyBuffer : r.bodyBuffer = []
  bodyPosition : r.bodyPosition = 0

/-- The response with a status code only. -/
def emptyResponse (statusCode : Int) : HttpResponse := HttpResponse.init.setStatusCode statusCode

/-- How a task is to end, for a server that was initialised with `callback`
and `callbackData`. -/
inductive TaskRule (callback : HttpServerFunc α) (callbackData : α) (task : TaskTexts)
    (stream : Stream) : TaskOutcome α → Prop
  | malformed {code : Nat} {request : HttpRequest} {rest : Stream} {task' : TaskTexts} :
      httpRequestParse task.request stream = .returned code request rest → code ≠ 0 →
        TaskRule callback callbackData task stream
          (.finished [] (serialization (emptyResponse 400)) task')
  | failed {request : HttpRequest} {rest : Stream} {response : HttpResponse}
      {task' : TaskTexts} :
      httpRequestParse task.request stream = .returned 0 request rest → Cleared response →
        (callback callbackData request response).result ≠ 0 →
        TaskRule callback callbackData task stream
          (.finished [⟨callbackData, request, response⟩]
            (serialization (emptyResponse 500)) task')
  | handled {request : HttpRequest} {rest : Stream} {response : HttpResponse}
      {task' : TaskTexts} :
      httpRequestParse task.request stream = .returned 0 request rest → Cleared response →
        (callback callbackData request response).result = 0 →
        TaskRule callback callbackData task stream
          (.finished [⟨callbackData, request, response⟩]
            (serialization (callback callbackData request response).response) task')

end

/-! ## Sending a response -/

/-- The response is sent as it is. -/
structure Sendable (r : HttpResponse) : Prop where
  plain : PlainFormats (fixFields r.bodyBuffer.length r.headers.toList)
  formattable : r.fixed.Formattable

theorem streamWriteResult_nonneg {n : Nat} (h : n < 2 ^ 31) :
    ¬streamWriteResult (some n) < 0 := by
  rw [streamWriteResult, BitVec.toInt_eq_toNat_cond, BitVec.toNat_ofNat]
  split <;> omega

/-- A destination that takes all takes every write, as only the result of the
last one can be negative. -/
theorem writeAll_takesAll {d : Destination} (hd : TakesAll d) (i : Nat) {bs : List Bytes}
    (h : ∀ b ∈ bs.dropLast, b.length < 2 ^ 31) : (writeAll d i bs).2 = bs.flatten := by
  induction bs generalizing i with
  | nil => rfl
  | cons b bs ih =>
      rw [writeAll, hd i b, Option.getD_some, List.take_length, List.flatten_cons]
      cases bs with
      | nil => split <;> simp [writeAll]
      | cons c bs =>
          rw [List.dropLast_cons_cons, List.forall_mem_cons] at h
          rw [if_neg (streamWriteResult_nonneg h.1)]
          exact congrArg (b ++ ·) (ih (i + 1) h.2)

section

variable {α : Type} {d : Destination} {task : TaskTexts}

theorem httpServerFinalizeTask_finished {calls calls' : List (CallbackCall α)} {sent : Bytes} :
    (∃ task', httpServerFinalizeTask calls task d = .finished calls' sent task')
      ↔ calls = calls' ∧ (responseToString task.response.fixed).isSome = true
        ∧ task.response.fixed.Formattable
        ∧ (writeAll d 0 task.response.fixed.writes).2 = sent := by
  by_cases hformat : task.response.fixed.Formattable
  swap
  · simp [httpServerFinalizeTask, hformat]
  constructor
  · rintro ⟨task', h⟩
    rw [httpServerFinalizeTask, if_pos hformat] at h
    cases hcall : httpResponseWrite task.response d with
    | undefined =>
        rw [hcall] at h
        cases h
    | returned code response accepted =>
        rw [hcall] at h
        obtain ⟨hsome, hwrites⟩ := httpResponseWrite_returned.mp ⟨response, hcall⟩
        cases h
        exact ⟨rfl, hsome, hformat, by rw [hwrites]⟩
  · rintro ⟨rfl, hsome, -, rfl⟩
    have hwrites : writeAll d 0 task.response.fixed.writes
        = ((writeAll d 0 task.response.fixed.writes).1,
          (writeAll d 0 task.response.fixed.writes).2) := rfl
    obtain ⟨response, hcall⟩ := httpResponseWrite_returned.mpr ⟨hsome, hwrites⟩
    exact ⟨{ task with response := response },
      by rw [httpServerFinalizeTask, if_pos hformat, hcall]⟩

/-- **When the response is sent** as it is. -/
theorem httpServerFinalizeTask_iff (hd : TakesAll d) {calls : List (CallbackCall α)} :
    (∃ task', httpServerFinalizeTask calls task d
        = .finished calls (serialization task.response) task') ↔ Sendable task.response := by
  rw [httpServerFinalizeTask_finished, responseToString_isSome]
  constructor
  · rintro ⟨-, hplain, hformat, -⟩
    exact ⟨hplain, hformat⟩
  · rintro ⟨hplain, hformat⟩
    exact ⟨rfl, hplain, hformat, (writeAll_takesAll hd 0 hformat).trans (flatten_writes _)⟩

theorem httpServerFinalizeTask_statusCode {calls calls' : List (CallbackCall α)} {sent : Bytes}
    {task' : TaskTexts} (h : httpServerFinalizeTask calls task d = .finished calls' sent task') :
    task'.response.statusCode = task.response.statusCode := by
  obtain ⟨-, -, hformat, -⟩ := httpServerFinalizeTask_finished.mp ⟨task', h⟩
  rw [httpServerFinalizeTask, if_pos hformat] at h
  cases hcall : httpResponseWrite task.response d with
  | undefined =>
      rw [hcall] at h
      cases h
  | returned code response accepted =>
      rw [hcall] at h
      obtain ⟨text, rfl⟩ := httpResponseWrite_left hcall
      cases h
      rfl

/-! ### Empty responses -/

theorem cleared_clear (r : HttpResponse) : Cleared r.clear :=
  ⟨rfl, rfl, List.map_eq_nil_iff.mpr List.take_zero, rfl, rfl⟩

/-- Nothing of a recycled response is left in an empty one. -/
theorem serialization_clear (r : HttpResponse) (statusCode : Int) :
    serialization (r.clear.setStatusCode statusCode)
      = serialization (emptyResponse statusCode) := by
  have hheaders : (r.clear.setStatusCode statusCode).headers.toList
      = (emptyResponse statusCode).headers.toList := (cleared_clear r).headers
  have hline : statusLine (r.clear.setStatusCode statusCode)
      = statusLine (emptyResponse statusCode) := rfl
  have hbody : (r.clear.setStatusCode statusCode).bodyBuffer
      = (emptyResponse statusCode).bodyBuffer := rfl
  rw [serialization, serialization, hheaders, hline, hbody]

example : serialization (emptyResponse 400)
    = ascii "HTTP/1.1 400 Bad Request\r\nContent-Length: 0\r\n\r\n" := by decide

theorem sendable_clear (r : HttpResponse) {statusCode : Int}
    (h : (statusLine (emptyResponse statusCode)).length < 2 ^ 31) :
    Sendable (r.clear.setStatusCode statusCode) := by
  have hheaders : (r.clear.setStatusCode statusCode).headers.toList = [] :=
    (cleared_clear r).headers
  have hbody : (r.clear.setStatusCode statusCode).bodyBuffer = [] := rfl
  constructor
  · rw [hheaders, hbody]
    unfold PlainFormats
    decide
  · rw [formattable_fixed, hheaders, hbody, List.forall_mem_cons]
    exact ⟨h, by decide⟩

/-! ### The record after the parse -/

variable {server : HttpServerFields α} {callback : HttpServerFunc α} {callbackData : α}
  {stream rest : Stream} {request : HttpRequest} {code : Nat}

theorem httpServerTask_malformed (h : httpRequestParse task.request stream
      = .returned code request rest) (hcode : code ≠ 0) :
    httpServerTask server task stream d
      = httpServerFinalizeTask [] ⟨request, task.response.clear.setStatusCode 400⟩ d := by
  simp only [httpServerTask, h, if_pos hcode]

/-- What the callback makes of an accepted request. -/
def respond (callback : HttpServerFunc α) (callbackData : α) (request : HttpRequest)
    (response : HttpResponse) : TaskTexts :=
  let handled := callback callbackData request response
  ⟨handled.request,
    if handled.result ≠ 0 then handled.response.clear.setStatusCode 500 else handled.response⟩

theorem httpServerTask_accepted (h : httpRequestParse task.request stream
      = .returned 0 request rest) :
    httpServerTask server task stream d
      = httpServerFinalizeTask [⟨server.callbackData, request, task.response.clear⟩]
          (respond server.callback server.callbackData request task.response.clear) d := by
  simp only [httpServerTask, h, ne_eq, not_true_eq_false, if_false]
  rfl

theorem serialization_respond (response : HttpResponse) :
    serialization (respond callback callbackData request response).response
      = if (callback callbackData request response).result ≠ 0
        then serialization (emptyResponse 500)
        else serialization (callback callbackData request response).response := by
  unfold respond
  dsimp only
  split
  · exact serialization_clear _ 500
  · rfl

theorem sendable_respond {response : HttpResponse} :
    Sendable (respond callback callbackData request response).response
      ↔ ((callback callbackData request response).result = 0 →
        Sendable (callback callbackData request response).response) := by
  by_cases hresult : (callback callbackData request response).result = 0
  · simp [respond, hresult]
  · simp only [respond, hresult, ne_eq, not_false_eq_true, if_true, false_implies, iff_true]
    exact sendable_clear _ (by decide)

/-- The rule for an accepted request. -/
theorem taskRule_accepted (h : httpRequestParse task.request stream = .returned 0 request rest)
    {outcome : TaskOutcome α} :
    TaskRule callback callbackData task stream outcome
      ↔ ∃ response task', Cleared response ∧ outcome
        = .finished [⟨callbackData, request, response⟩]
            (serialization (respond callback callbackData request response).response) task' := by
  constructor
  · intro hrule
    cases hrule with
    | malformed hparse hcode =>
        rw [h] at hparse
        obtain ⟨hzero, -, -⟩ := ParseOutcome.returned.inj hparse
        exact absurd hzero.symm hcode
    | failed hparse hcleared hresult =>
        rw [h] at hparse
        obtain ⟨-, rfl, -⟩ := ParseOutcome.returned.inj hparse
        exact ⟨_, _, hcleared, by rw [serialization_respond, if_pos hresult]⟩
    | handled hparse hcleared hresult =>
        rw [h] at hparse
        obtain ⟨-, rfl, -⟩ := ParseOutcome.returned.inj hparse
        exact ⟨_, _, hcleared, by rw [serialization_respond, if_neg (not_not.mpr hresult)]⟩
  · rintro ⟨response, task', hcleared, rfl⟩
    rw [serialization_respond]
    by_cases hresult : (callback callbackData request response).result = 0
    · rw [if_neg (not_not.mpr hresult)]
      exact .handled h hcleared hresult
    · rw [if_pos hresult]
      exact .failed h hcleared hresult

end

/-! ## Every task -/

section

variable {α : Type} {server server' : HttpServerFields α} {callback : HttpServerFunc α}
  {callbackData : α} {timeout : UInt64} {socketInit threadPoolInit mutexInit : Bool}

/-- What `http_server_init` leaves when it returns 0. -/
theorem httpServerInit_zero (h : httpServerInit server callback callbackData timeout socketInit
      threadPoolInit mutexInit = (0, server')) :
    server'.callback = callback ∧ server'.callbackData = server.callbackData := by
  unfold httpServerInit at h
  dsimp only at h
  repeat' split at h
  all_goals cases h
  exact ⟨rfl, rfl⟩

/-- A request that is not accepted is answered without the callback. -/
theorem taskRule_malformed {d : Destination} (hd : TakesAll d) {task : TaskTexts} {stream : Stream}
    {code : Nat} {request : HttpRequest} {rest : Stream}
    (h : httpRequestParse task.request stream = .returned code request rest) (hcode : code ≠ 0) :
    TaskRule callback callbackData task stream (httpServerTask server task stream d) := by
  have hsendable : Sendable (task.response.clear.setStatusCode 400) :=
    sendable_clear _ (by decide)
  obtain ⟨task', hsent⟩ : ∃ task', httpServerFinalizeTask ([] : List (CallbackCall α))
      ⟨request, task.response.clear.setStatusCode 400⟩ d = .finished [] _ task' :=
    (httpServerFinalizeTask_iff hd).mpr hsendable
  rw [httpServerTask_malformed h hcode, hsent, serialization_clear _ 400]
  exact .malformed h hcode

/-- An accepted one is answered as it should exactly if the callback gets its
data and its response can be sent. -/
theorem taskRule_task {d : Destination} (hd : TakesAll d) {task : TaskTexts} {stream : Stream}
    {request : HttpRequest} {rest : Stream}
    (h : httpRequestParse task.request stream = .returned 0 request rest) :
    TaskRule server.callback callbackData task stream (httpServerTask server task stream d)
      ↔ server.callbackData = callbackData
        ∧ Sendable
          (respond server.callback callbackData request task.response.clear).response := by
  rw [taskRule_accepted h, httpServerTask_accepted h]
  constructor
  · rintro ⟨response, task', -, heq⟩
    have hcalls := (httpServerFinalizeTask_finished.mp ⟨task', heq⟩).1
    obtain ⟨rfl, -, rfl⟩ := CallbackCall.mk.inj (List.cons.inj hcalls).1
    exact ⟨rfl, (httpServerFinalizeTask_iff hd).mp ⟨task', heq⟩⟩
  · rintro ⟨rfl, hsendable⟩
    obtain ⟨task', heq⟩ := (httpServerFinalizeTask_iff hd).mpr hsendable
    exact ⟨_, task', cleared_clear _, heq⟩

/-- **The rule holds** of a task exactly if the log line of the parser is
defined, and if for an accepted request the field `callback_data` had the
right value before and what the callback leaves can be sent. -/
theorem taskRule_iff (hinit : httpServerInit server callback callbackData timeout socketInit
      threadPoolInit mutexInit = (0, server')) {d : Destination} (hd : TakesAll d)
    (task : TaskTexts) (stream : Stream) :
    TaskRule callback callbackData task stream (httpServerTask server' task stream d)
      ↔ ¬BringsFormats stream ∧ ∀ request rest,
        httpRequestParse task.request stream = .returned 0 request rest →
          server.callbackData = callbackData
          ∧ ((callback callbackData request task.response.clear).result = 0 →
            Sendable (callback callbackData request task.response.clear).response) := by
  obtain ⟨hcallback, hdata⟩ := httpServerInit_zero hinit
  rw [← httpRequestParse_undefined_iff (r := task.request)]
  cases hparse : httpRequestParse task.request stream with
  | undefined =>
      refine iff_of_false ?_ fun h => h.1 rfl
      intro hrule
      rw [httpServerTask, hparse] at hrule
      cases hrule
  | returned code request rest =>
      by_cases hcode : code = 0
      · subst hcode
        rw [← hcallback, taskRule_task hd hparse, sendable_respond, hdata]
        constructor
        · intro h
          refine ⟨by simp, ?_⟩
          rintro request' rest' ⟨⟩
          exact h
        · rintro ⟨-, h⟩
          exact h request rest rfl
      · refine iff_of_true (taskRule_malformed hd hparse hcode) ⟨by simp, ?_⟩
        rintro request' rest' ⟨⟩
        exact absurd rfl hcode

end

/-! ## The step system -/

section

open CWebServer.Runs

variable {α : Type} {server : HttpServerFields α} {task task' : TaskTexts} {stream : Stream}
  {d : Destination} {calls : List (CallbackCall α)} {sent : Bytes}

/-- The steps of a worker between the parse and the first write: one for the
parse and one for each call of the callback. -/
def taskActions (w : Nat) (calls : List (CallbackCall α)) (ok : Bool) (status : Nat) :
    List Action :=
  .parsed w (!calls.isEmpty) :: calls.map fun _ => .handled w ok status

theorem records_setRecord (s : ServerState) (t : DataAddr) (x : HttpServerTaskData) (w : Nat)
    (h : Option Handler) : ((s.setRecord t x).setHandler w h).records t = x :=
  Function.update_self _ _ _

/-- A request that is not accepted. -/
theorem run_malformed {s : ServerState} {w : Nat} {c : ConnId} {t : DataAddr}
    (hw : s.handlers w = some ⟨c, t, .parse⟩) :
    ∃ s', run step Always [.parsed w false] s = some s'
      ∧ s'.handlers w = some ⟨c, t, .finalize .write⟩
      ∧ (s'.records t).statusCode = 400 := by
  let s' := (s.setRecord t { s.records t with statusCode := 400 }).setHandler w
    (some ⟨c, t, .finalize .write⟩)
  have hparsed : step s (.parsed w false) = some s' := by
    simp only [step, hw]
    rfl
  refine ⟨s', ?_, ServerState.setHandler_self _ _ _, ?_⟩
  · simp only [run, Always, if_true, hparsed, Option.bind_some]
  · rw [records_setRecord]

/-- An accepted one, for which the callback returns. -/
theorem run_accepted {s : ServerState} {w : Nat} {c : ConnId} {t : DataAddr}
    (hw : s.handlers w = some ⟨c, t, .parse⟩) (ok : Bool) (status : Nat) :
    ∃ s', run step Always [.parsed w true, .handled w ok status] s = some s'
      ∧ s'.handlers w = some ⟨c, t, .finalize .write⟩
      ∧ (s'.records t).statusCode = if ok then status else 500 := by
  let s₁ := (s.setRecord t { s.records t with statusCode := 200 }).setHandler w
    (some ⟨c, t, .handle⟩)
  have hparsed : step s (.parsed w true) = some s₁ := by
    simp only [step, hw]
    rfl
  let s₂ := (s₁.setRecord t { s₁.records t with
    statusCode := if ok then status else 500 }).setHandler w (some ⟨c, t, .finalize .write⟩)
  have hhandled : step s₁ (.handled w ok status) = some s₂ := by
    have hw₁ : s₁.handlers w = some ⟨c, t, .handle⟩ := ServerState.setHandler_self _ _ _
    simp only [step, hw₁]
    rfl
  refine ⟨s₂, ?_, ServerState.setHandler_self _ _ _, ?_⟩
  · simp only [run, Always, if_true, hparsed, hhandled, Option.bind_some]
  · rw [records_setRecord]

/-- **The steps follow the task**: they lead to the first write with the status
code that it sends. -/
theorem httpServerTask_steps {s : ServerState} {w : Nat} {c : ConnId} {t : DataAddr}
    (hw : s.handlers w = some ⟨c, t, .parse⟩)
    (h : httpServerTask server task stream d = .finished calls sent task') :
    ∃ ok status s', run step Always (taskActions w calls ok status) s = some s'
      ∧ s'.handlers w = some ⟨c, t, .finalize .write⟩
      ∧ (s'.records t).statusCode = task'.response.statusCode.toNat := by
  cases hparse : httpRequestParse task.request stream with
  | undefined =>
      rw [httpServerTask, hparse] at h
      cases h
  | returned code request rest =>
      by_cases hcode : code = 0
      · subst hcode
        rw [httpServerTask_accepted hparse] at h
        obtain ⟨rfl, -, -⟩ := httpServerFinalizeTask_finished.mp ⟨task', h⟩
        rw [httpServerFinalizeTask_statusCode h]
        let handled := server.callback server.callbackData request task.response.clear
        obtain ⟨s', hrun, hhandler, hstatus⟩ := run_accepted hw (handled.result = 0)
          handled.response.statusCode.toNat
        refine ⟨_, _, s', hrun, hhandler, ?_⟩
        rw [hstatus, respond]
        by_cases hresult : handled.result = 0
        · simp [handled, hresult]
        · simp [handled, hresult, HttpResponse.setStatusCode]
      · rw [httpServerTask_malformed hparse hcode] at h
        obtain ⟨rfl, -, -⟩ := httpServerFinalizeTask_finished.mp ⟨task', h⟩
        rw [httpServerFinalizeTask_statusCode h]
        obtain ⟨s', hrun, hhandler, hstatus⟩ := run_malformed hw
        exact ⟨false, 0, s', hrun, hhandler, hstatus⟩

end

/-! ## Two servers -/

/-- A callback that does nothing. -/
def idleCallback : HttpServerFunc Nat := fun _ request response => ⟨0, request, response⟩

/-- The memory of a server, with this in the place of `callback_data`. -/
def serverBefore (callbackData : Nat) : HttpServerFields Nat :=
  ⟨idleCallback, callbackData, 0, 0, none⟩

/-- With the right value there, a request is answered as it should. -/
theorem taskRule_idle :
    TaskRule idleCallback 1 ⟨{}, .init⟩ [.bytes getRead]
      (httpServerTask (serverBefore 1) ⟨{}, .init⟩ [.bytes getRead] takesAll) := by
  have hinit : httpServerInit (serverBefore 1) idleCallback 1 0 true true true
      = (0, serverBefore 1) := rfl
  refine (taskRule_iff hinit (fun _ _ => rfl) _ _).mpr ⟨?_, ?_⟩
  · rw [← httpRequestParse_undefined_iff (r := {})]
    exact ParseOutcome.noConfusion
  · intro request rest _
    have hline : (statusLine (emptyResponse 200)).length < 2 ^ 31 := by decide
    exact ⟨rfl, fun _ => sendable_clear _ hline⟩

/-- Where 0 stood in the place of `callback_data`, the callback gets 0 although
the server was initialised with 1. -/
theorem not_taskRule :
    (httpServerInit (serverBefore 0) idleCallback 1 0 true true true).1 = 0 ∧ TakesAll takesAll
      ∧ (∃ request response sent task',
        httpServerTask (httpServerInit (serverBefore 0) idleCallback 1 0 true true true).2
            ⟨{}, .init⟩ [.bytes getRead] takesAll
          = .finished [⟨0, request, response⟩] sent task')
      ∧ ¬TaskRule idleCallback 1 ⟨{}, .init⟩ [.bytes getRead]
        (httpServerTask (httpServerInit (serverBefore 0) idleCallback 1 0 true true true).2
          ⟨{}, .init⟩ [.bytes getRead] takesAll) := by
  obtain ⟨request, response, sent, task', htask⟩ : ∃ request response sent task',
      httpServerTask (httpServerInit (serverBefore 0) idleCallback 1 0 true true true).2
          ⟨{}, .init⟩ [.bytes getRead] takesAll
        = .finished [⟨0, request, response⟩] sent task' := ⟨_, _, _, _, rfl⟩
  refine ⟨rfl, fun _ _ => rfl, ⟨request, response, sent, task', htask⟩, ?_⟩
  rw [htask]
  intro hrule
  cases hrule

end CWebServer.HttpServer
