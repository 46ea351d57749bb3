import CWebServer.HttpServer.Task
import CWebServer.Http.Limits

/-!
# HttpServer — Program

`handle_request` of `main.c`, and what the whole program answers: the bytes
that come in on a connection decide the bytes that go out, whatever record the
task gets and however the reads cut the input.
-/

namespace CWebServer.HttpServer

open CWebServer.Strings CWebServer.Http

/-- `"Received request at URI: %s\n"`. -/
def receivedText (uri : Bytes) : Bytes :=
  ascii "Received request at URI: " ++ cstr uri ++ ascii "\n"

/-- `handle_request`. What `stream_write_cstrf` returns is not looked at. -/
def handleRequest : HttpServerFunc Unit := fun _ request response =>
  ⟨0, request, response.writeBody (receivedText request.uri)⟩

/-- `DEFAULT_HTTP_TIMEOUT`. -/
def defaultHttpTimeout : UInt64 := 5000000000

/-- The answer to a request that is accepted. -/
def echoText (uri : Bytes) : Bytes :=
  ascii "HTTP/1.1 200 OK\r\nContent-Length: " ++ decimal (receivedText uri).length
    ++ ascii "\r\n\r\n" ++ receivedText uri

/-- The answer to anything else. -/
def badRequestText : Bytes := ascii "HTTP/1.1 400 Bad Request\r\nContent-Length: 0\r\n\r\n"

/-! ## The URI of an accepted request -/

/-- The read that brings the `n`th byte. -/
theorem exists_chunk_across {n : Nat} {d : List Chunk} (hpos : 0 < n)
    (hle : n ≤ (bytesOf d).length) :
    ∃ pre c post, d = pre ++ c :: post ∧ (bytesOf pre).length < n
      ∧ n ≤ (bytesOf pre).length + c.val.length := by
  induction d using List.reverseRecOn with
  | nil => exact absurd hle (Nat.not_le_of_lt hpos)
  | append_singleton d c ih =>
      by_cases hd : n ≤ (bytesOf d).length
      · obtain ⟨pre, c', post, rfl, hlt, hge⟩ := ih hd
        exact ⟨pre, c', post ++ [c], by rw [List.append_assoc, List.cons_append], hlt, hge⟩
      · refine ⟨d, c, [], rfl, Nat.lt_of_not_le hd, ?_⟩
        rw [bytesOf_append, List.length_append] at hle
        have hone : (Http.bytesOf [c]).length = c.val.length := by simp [Http.bytesOf]
        omega

/-- The head of an accepted request ends in the first read past the limit, or
before. -/
theorem headLength_lt {d : List Chunk} {method uri : Bytes} {fs : Fields} {n : Option Nat}
    (h : Delivers d method uri fs n) :
    headLength (bytesOf d) < maxSocketReadSize + chunkReadSize := by
  obtain ⟨-, -, -, hle, -⟩ := data_of_ended h.complete.head
  have hpos : 0 < headLength (bytesOf d) := Nat.lt_of_lt_of_le Nat.two_pos (Nat.le_add_left 2 _)
  obtain ⟨pre, c, post, hd, hlt, hge⟩ := exists_chunk_across hpos hle
  have hcut := h.cuts pre (c :: post) hd (List.cons_ne_nil c post)
  have hchunk := c.property.2
  unfold StopsAt at hcut
  simp only [maxSocketReadSize]
  omega

theorem length_slice_le (data : Bytes) (start stop : Nat) :
    (slice data start stop).length ≤ data.length := by
  simp only [slice, List.length_take, List.length_drop]
  omega

theorem length_uri_lt {d : List Chunk} {method uri : Bytes} {fs : Fields} {n : Option Nat}
    (h : Delivers d method uri fs n) : uri.length < maxSocketReadSize + chunkReadSize := by
  have hhead := headLength_lt h
  obtain ⟨line, lines, hdata, -, -, hline, -⟩ := data_of_ended h.complete.head
  have huri : uri.length ≤ line.length := by
    simp only [requestLine] at hline
    split at hline
    · cases hline
      exact length_slice_le _ _ _
    · cases hline
  have hlength := congrArg List.length hdata
  simp only [crlfJoin_append, crlfJoin_cons, crlfJoin_nil, List.length_append, List.length_cons,
    List.length_nil, List.length_drop, List.cons_append] at hlength
  omega

theorem length_receivedText (uri : Bytes) : (receivedText uri).length ≤ uri.length + 26 := by
  have htext : (ascii "Received request at URI: ").length = 25 := by decide
  have hline : (ascii "\n").length = 1 := by decide
  have hcstr : (cstr uri).length ≤ uri.length := (List.takeWhile_sublist _).length_le
  simp only [receivedText, List.length_append]
  omega

/-- The text for an accepted request can be formatted: its length is an `int`,
as `vsnprintf` returns it. -/
theorem length_receivedText_lt {d : List Chunk} {method uri : Bytes} {fs : Fields}
    {n : Option Nat} (h : Delivers d method uri fs n) :
    (receivedText uri).length < 10 ^ 5 := by
  have huri := length_uri_lt h
  have htext := length_receivedText uri
  simp only [maxSocketReadSize, maxSocketReadSizeInChunks, chunkReadSize] at huri
  omega

/-! ## The answers -/

theorem fixFields_nil (n : Nat) : fixFields n [] = [(ascii "Content-Length", [decimal n])] := rfl

theorem bodyBuffer_handled (response : HttpResponse) (request : HttpRequest) :
    (handleRequest () request response.clear).response.bodyBuffer = receivedText request.uri := by
  show [].take 0 ++ receivedText request.uri ++ [].drop _ = _
  rw [List.take_nil, List.drop_nil, List.nil_append, List.append_nil]

theorem headers_handled (response : HttpResponse) (request : HttpRequest) :
    (handleRequest () request response.clear).response.headers.toList = [] :=
  (cleared_clear response).headers

theorem statusLine_handled (response : HttpResponse) (request : HttpRequest) :
    statusLine (handleRequest () request response.clear).response
      = ascii "HTTP/1.1 200 OK\r\n" := by
  have hsame : statusLine (handleRequest () request response.clear).response
      = statusLine (emptyResponse 200) := rfl
  rw [hsame]
  decide

theorem serialization_handled (response : HttpResponse) (request : HttpRequest) :
    serialization (handleRequest () request response.clear).response = echoText request.uri := by
  have hname : cstr (ascii "Content-Length") = ascii "Content-Length" := by decide
  have htexts : ascii "HTTP/1.1 200 OK\r\nContent-Length: "
      = ascii "HTTP/1.1 200 OK\r\n" ++ ascii "Content-Length" ++ ascii ": " := by decide
  have hend : ascii "\r\n\r\n" = ascii "\r\n" ++ ascii "\r\n" := by decide
  rw [serialization, headers_handled, bodyBuffer_handled, statusLine_handled, fixFields_nil,
    headerBlock, List.flatMap_singleton, headerLine, joinValues_singleton, cstr_decimal, hname,
    echoText, htexts, hend]
  simp only [List.append_assoc]

theorem length_decimal_le {n k : Nat} (hk : 0 < k) (h : n < 10 ^ k) :
    (decimal n).length ≤ k := by
  have hdigits := (Nat.length_toDigits_le_iff (b := 10) (by omega) hk).mpr h
  rwa [decimal_eq, Strings.bytesOf, List.length_map]

/-- What `handle_request` leaves can be sent. -/
theorem sendable_handled (response : HttpResponse) {request : HttpRequest}
    (h : (receivedText request.uri).length < 10 ^ 5) :
    Sendable (handleRequest () request response.clear).response := by
  constructor
  · rw [headers_handled, bodyBuffer_handled, fixFields_nil]
    intro f hf v hv
    rw [List.mem_singleton.mp hf, List.mem_singleton] at hv
    rw [hv]
    exact vsnprintfNoArgs_isSome (percent_not_mem_decimal _)
  · have hdecimal := length_decimal_le (Nat.succ_pos 4) h
    rw [formattable_fixed, headers_handled, bodyBuffer_handled, statusLine_handled, fixFields_nil]
    intro b hb
    simp only [shown, List.map_cons, List.map_nil, List.flatMap_cons, List.flatMap_nil,
      fieldWrites, cstr_decimal, List.append_nil, List.intersperse, List.mem_cons,
      List.cons_append, List.nil_append, List.not_mem_nil, or_false] at hb
    rcases hb with rfl | rfl | rfl | rfl | rfl
    · decide
    · decide
    · omega
    · decide
    · decide

/-- The answer, after `http_request_parse` has returned `code`. -/
def answerText (code : Nat) (request : HttpRequest) : Bytes :=
  if code = 0 then echoText request.uri else badRequestText

section

variable {stream rest : Stream} {code : Nat} {request : HttpRequest}

theorem sends_answerText {server : HttpServerFields Unit}
    (hcallback : server.callback = handleRequest) {dst : Destination} (hdst : TakesAll dst)
    (task : TaskTexts)
    (hparse : httpRequestParse task.request stream = .returned code request rest) :
    ∃ calls task', httpServerTask server task stream dst
      = .finished calls (answerText code request) task' := by
  by_cases hcode : code = 0
  · subst hcode
    obtain ⟨d, n, -, hdelivers, -⟩ := accepted_delivers hparse
    have hlength := length_receivedText_lt hdelivers
    have hsendable : Sendable
        (respond server.callback server.callbackData request task.response.clear).response :=
      hcallback ▸ sendable_respond.mpr fun _ => sendable_handled task.response hlength
    obtain ⟨task', hsent⟩ : ∃ task', httpServerFinalizeTask
        [⟨server.callbackData, request, task.response.clear⟩]
        (respond server.callback server.callbackData request task.response.clear) dst
        = .finished [⟨server.callbackData, request, task.response.clear⟩] _ task' :=
      (httpServerFinalizeTask_iff hdst).mpr hsendable
    have htext : serialization
        (respond server.callback server.callbackData request task.response.clear).response
        = answerText 0 request := by
      rw [serialization_respond, hcallback]
      exact serialization_handled _ _
    rw [htext] at hsent
    exact ⟨_, task', (httpServerTask_accepted hparse).trans hsent⟩
  · have hsendable : Sendable (task.response.clear.setStatusCode 400) :=
      sendable_clear _ (by decide)
    obtain ⟨task', hsent⟩ : ∃ task', httpServerFinalizeTask ([] : List (CallbackCall Unit))
        ⟨request, task.response.clear.setStatusCode 400⟩ dst = .finished [] _ task' :=
      (httpServerFinalizeTask_iff hdst).mpr hsendable
    have htext : serialization (emptyResponse 400) = badRequestText := by decide
    rw [serialization_clear _ 400, htext] at hsent
    rw [answerText, if_neg hcode]
    exact ⟨[], task', (httpServerTask_malformed hparse hcode).trans hsent⟩

/-- The bytes received decide the answer. -/
theorem answerText_spec {r : HttpRequest}
    (hparse : httpRequestParse r stream = .returned code request rest) :
    (∀ d rest' method uri fs n, stream = deliver d ++ rest' → Delivers d method uri fs n →
        answerText code request = echoText uri)
      ∧ ((∀ d rest' method uri fs n, stream = deliver d ++ rest' →
        ¬Delivers d method uri fs n) → answerText code request = badRequestText) := by
  constructor
  · intro d rest' method uri fs n hs hdelivers
    obtain ⟨r', hparse', -, huri, -⟩ := hdelivers.accepted r rest'
    rw [← hs, hparse] at hparse'
    obtain ⟨rfl, rfl, -⟩ := ParseOutcome.returned.inj hparse'
    rw [answerText, if_pos rfl, huri]
  · intro hno
    refine if_neg fun hcode => ?_
    subst hcode
    obtain ⟨d, n, hs, hdelivers, -⟩ := accepted_delivers hparse
    exact hno d rest _ _ _ n hs hdelivers

end

/-- **What the program answers**, to a destination that takes all (`TakesAll`)
and where the log line of the parser is defined. The bytes received decide it:
if they begin with a whole request, in reads that stop in none of the wrong
places (`CutsAllowed`), the URI of its first line is sent back up to its first
0; otherwise the answer is 400. This is so for every record from the pool and
whatever stands in the place of `callback_data`. -/
theorem program_answers {server server' : HttpServerFields Unit}
    {socketInit threadPoolInit mutexInit : Bool}
    (hinit : httpServerInit server handleRequest () defaultHttpTimeout socketInit threadPoolInit
      mutexInit = (0, server')) {dst : Destination} (hdst : TakesAll dst) (task : TaskTexts)
    {stream : Stream} (hformats : ¬BringsFormats stream) :
    ∃ calls sent task', httpServerTask server' task stream dst = .finished calls sent task'
      ∧ (∀ d rest method uri fs n, stream = deliver d ++ rest → Delivers d method uri fs n →
        sent = echoText uri)
      ∧ ((∀ d rest method uri fs n, stream = deliver d ++ rest →
        ¬Delivers d method uri fs n) → sent = badRequestText) := by
  obtain ⟨hcallback, -⟩ := httpServerInit_zero hinit
  rw [← httpRequestParse_undefined_iff (r := task.request)] at hformats
  cases hparse : httpRequestParse task.request stream with
  | undefined => exact absurd hparse hformats
  | returned code request rest =>
      obtain ⟨calls, task', htask⟩ := sends_answerText hcallback hdst task hparse
      exact ⟨calls, _, task', htask, answerText_spec hparse⟩

/-- The server that `main` starts, where 0 stood in its memory. -/
def mainServer : HttpServerFields Unit := ⟨handleRequest, (), defaultHttpTimeout, 0, none⟩

theorem program_answers_get :
    ∃ calls sent task',
      httpServerTask mainServer ⟨{}, .init⟩ [.bytes getRead] takesAll
        = .finished calls sent task'
      ∧ (∀ d rest method uri fs n, [.bytes getRead] = deliver d ++ rest →
        Delivers d method uri fs n → sent = echoText uri)
      ∧ ((∀ d rest method uri fs n, [.bytes getRead] = deliver d ++ rest →
        ¬Delivers d method uri fs n) → sent = badRequestText) := by
  have hinit : httpServerInit mainServer handleRequest () defaultHttpTimeout true true true
      = (0, mainServer) := rfl
  refine program_answers hinit (fun _ _ => rfl) _ ?_
  rw [← httpRequestParse_undefined_iff (r := {})]
  exact ParseOutcome.noConfusion

example : echoText (ascii "/x")
    = ascii "HTTP/1.1 200 OK\r\nContent-Length: 28\r\n\r\nReceived request at URI: /x\n" := by
  decide

end CWebServer.HttpServer
