import Iian.Request
import Iian.ToolCalls

/- One API request: the answers of `openai.cpp` and `GenerationRun`, from the submission of
its choices on.

A JSON value is a record of what it holds; the keys and the other texts that are fixed are
ASCII. `json::dump` throws when one of the strings is not well-formed UTF-8. -/
namespace Iian

open Lib.Json (Numbers setKey isDigit)
open Lib.Utf8 (checkFrom)

inductive GenerationKind
  | chat
  | completion
deriving DecidableEq, Repr

/-- What the two parsers of requests build: there is a prompt with its text for each entry of
the request, and one for a chat. -/
structure GenerationRequest where
  kind : GenerationKind
  id : Bytes
  created : Int := 0
  model : Bytes
  prompts : List (List Token)
  promptTexts : List Bytes
  n : Nat := 1
  stream : Bool := false
  includeUsage : Bool := false
  echo : Bool := false
  wantLogprobs : Bool := false
  topLogprobs : Int := 0
  parseToolCalls : Bool := false
  toolFormat : ToolFormat := .none
  choices_pos : 0 < n
  prompts_pos : 0 < prompts.length
  texts : promptTexts.length = prompts.length
  single : kind = .chat → prompts.length = 1

namespace GenerationRequest

def totalChoices (req : GenerationRequest) : Nat := req.prompts.length * req.n

end GenerationRequest

/-- `clean_logprob` is a given function on the values of the sampler; a log-probability that
was not asked for is the default 0. -/
structure ServerContext (M : Model) where
  Num : Type
  numbers : Numbers Num
  cleanLogprob : Option M.Logit → M.Logit

section Answers

variable {M : Model} (ctx : ServerContext M) (req : GenerationRequest)

structure ChoiceResult (M : Model) where
  index : Nat
  promptIndex : Nat
  text : Bytes := []
  tokens : List Token := []
  logprobs : List (SampledToken M.Logit) := []
  finish : FinishReason := .none
  stopReason : Bytes := []
  error : String := ""
  nPrompt : Nat := 0
  nOutput : Nat := 0
  nCached : Nat := 0

/-- `stop_reason_json` -/
inductive StopReason
  | null
  | token (id : Nat)
  | text (text : Bytes)
deriving DecidableEq, Repr

def stopReasonJson (reason : Bytes) : StopReason :=
  if reason.isEmpty then .null
  else if reason.all isDigit && reason.length < 10 then
    .token (reason.foldl (fun value digit => value * 10 + (digit.toNat - 0x30)) 0)
  else .text reason

def StopReason.strings : StopReason → List Bytes
  | .null | .token _ => []
  | .text reason => [reason]

structure Usage where
  promptTokens : Nat
  completionTokens : Nat
  cachedTokens : Nat
deriving DecidableEq, Repr

/-- `bytes_json` -/
def bytesJson (piece : Bytes) : List Nat := piece.map UInt8.toNat

structure TopLogprob (M : Model) where
  token : Bytes
  logprob : M.Logit
  bytes : List Nat

structure TokenLogprob (M : Model) extends TopLogprob M where
  topLogprobs : List (TopLogprob M)

def topLogprob (piece : Bytes) (logprob : M.Logit) : TopLogprob M where
  token := piece
  logprob := logprob
  bytes := bytesJson piece

def tokenLogprob (topN : Int) (sampled : SampledToken M.Logit) : TokenLogprob M where
  toTopLogprob := topLogprob (M.tokenToPiece sampled.token true) (ctx.cleanLogprob sampled.logprob)
  topLogprobs := (sampled.top.take topN.toNat).map (fun entry =>
    topLogprob (M.tokenToPiece entry.1 true) (ctx.cleanLogprob (some entry.2)))

/-- The array `content` of `chat_logprobs_json`. -/
def chatLogprobsJson (logprobs : List (SampledToken M.Logit)) (topN : Int) :
    List (TokenLogprob M) := logprobs.map (tokenLogprob ctx topN)

def TokenLogprob.strings (entry : TokenLogprob M) : List Bytes :=
  entry.token :: entry.topLogprobs.map (fun top => top.token)

/-- The four arrays of `completion_logprobs_json`. -/
structure CompletionLogprobs (M : Model) where
  tokens : List Bytes := []
  tokenLogprobs : List M.Logit := []
  topLogprobs : List (List (Bytes × M.Logit)) := []
  textOffset : List Nat := []

/-- One turn of the loop of `completion_logprobs_json`, with the running offset. -/
def CompletionLogprobs.push (topN : Int) (base : Nat) (acc : CompletionLogprobs M × Nat)
    (sampled : SampledToken M.Logit) : CompletionLogprobs M × Nat :=
  let piece := M.tokenToPiece sampled.token true
  let logprob := ctx.cleanLogprob sampled.logprob
  let top := (sampled.top.take topN.toNat).foldl
    (fun top entry => setKey (M.tokenToPiece entry.1 true) (ctx.cleanLogprob (some entry.2)) top)
    [(piece, logprob)]
  ({ tokens := acc.1.tokens ++ [piece]
     tokenLogprobs := acc.1.tokenLogprobs ++ [logprob]
     topLogprobs := acc.1.topLogprobs ++ [top]
     textOffset := acc.1.textOffset ++ [base + acc.2] },
    acc.2 + piece.length)

/-- The arrays and the new running offset. -/
def completionLogprobsJson (logprobs : List (SampledToken M.Logit)) (topN : Int)
    (base offset : Nat) : CompletionLogprobs M × Nat :=
  logprobs.foldl (CompletionLogprobs.push ctx topN base) ({}, offset)

def CompletionLogprobs.strings (arrays : CompletionLogprobs M) : List Bytes :=
  arrays.tokens ++ arrays.topLogprobs.flatMap (fun top => top.map Prod.fst)

/-- `id`, `created` and `model` of an answer or a chunk. -/
structure Header where
  id : Bytes
  created : Int
  model : Bytes
deriving DecidableEq, Repr

def Header.strings (header : Header) : List Bytes := [header.id, header.model]

def GenerationRequest.header : Header where
  id := req.id
  created := req.created
  model := req.model

/-- A choice of `chat_response_json`; `content` may be null. -/
structure ChatChoice (M : Model) where
  index : Nat
  content : Option Bytes
  toolCalls : List ToolCall
  logprobs : Option (List (TokenLogprob M))
  finishReason : FinishReason
  stopReason : StopReason

structure CompletionChoice (M : Model) where
  index : Nat
  text : Bytes
  logprobs : Option (CompletionLogprobs M)
  finishReason : FinishReason
  stopReason : StopReason

inductive Response (M : Model)
  | chat (header : Header) (choices : List (ChatChoice M)) (usage : Usage)
  | completion (header : Header) (choices : List (CompletionChoice M)) (usage : Usage)

def callStrings (calls : List ToolCall) : List Bytes :=
  calls.flatMap (fun call => [call.name, call.arguments])

def ChatChoice.strings (choice : ChatChoice M) : List Bytes :=
  choice.content.toList ++ callStrings choice.toolCalls ++
    (choice.logprobs.getD []).flatMap TokenLogprob.strings ++ choice.stopReason.strings

def CompletionChoice.strings (choice : CompletionChoice M) : List Bytes :=
  choice.text :: (choice.logprobs.elim [] CompletionLogprobs.strings ++ choice.stopReason.strings)

def Response.strings : Response M → List Bytes
  | .chat header choices _ => header.strings ++ choices.flatMap ChatChoice.strings
  | .completion header choices _ => header.strings ++ choices.flatMap CompletionChoice.strings

/-- What a client is sent when a string cannot be dumped. -/
def dumpError : String := "[json.exception.type_error.316] invalid UTF-8"

/-- `json::dump` of a value that holds the given strings. -/
def dump {α : Type} (strings : List Bytes) (value : α) : Outcome α :=
  if strings.all (checkFrom []) then .ok value else .threw dumpError

/-- One turn of the loop of `sum_usage`, with the prompts it has seen. -/
def sumUsageTurn (acc : Usage × List Nat) (result : ChoiceResult M) : Usage × List Nat :=
  let usage := { acc.1 with completionTokens := acc.1.completionTokens + result.nOutput }
  if result.promptIndex < req.prompts.length ∧ result.promptIndex ∉ acc.2 then
    ({ usage with
       promptTokens := usage.promptTokens + result.nPrompt
       cachedTokens := usage.cachedTokens + result.nCached },
      result.promptIndex :: acc.2)
  else (usage, acc.2)

def sumUsage (results : List (ChoiceResult M)) : Usage :=
  (results.foldl (sumUsageTurn req) (⟨0, 0, 0⟩, [])).1

/-- The sum over one result for each prompt, as in `prompt_tokens` and `cached_tokens`. -/
def oncePerPrompt (count : ChoiceResult M → Nat) : List Nat → List (ChoiceResult M) → Nat
  | _, [] => 0
  | seen, result :: results =>
    if result.promptIndex ∈ seen then oncePerPrompt count seen results
    else count result + oncePerPrompt count (result.promptIndex :: seen) results

def completionTokens (results : List (ChoiceResult M)) : Nat :=
  (results.map (fun result => result.nOutput)).sum

def chatChoice (c : ChoiceResult M) : ChatChoice M :=
  let logprobs := if req.wantLogprobs then
      some (chatLogprobsJson ctx c.logprobs req.topLogprobs)
    else none
  let plain : ChatChoice M :=
    { index := c.index
      content := some c.text
      toolCalls := []
      logprobs := logprobs
      finishReason := c.finish
      stopReason := stopReasonJson c.stopReason }
  if req.parseToolCalls then
    let parsed := ToolCalls.parseToolCalls ctx.numbers c.text req.toolFormat
    if parsed.toolCalls.isEmpty then plain
    else { plain with
      content := if parsed.content.isEmpty then none else some parsed.content
      toolCalls := parsed.toolCalls
      finishReason := if c.finish = .stop then .toolCalls else c.finish }
  else plain

/-- The text an answer repeats. -/
def echoed (promptIndex : Nat) : Bytes :=
  if req.echo then req.promptTexts.getD promptIndex [] else []

def completionChoice (c : ChoiceResult M) : CompletionChoice M where
  index := c.index
  text := echoed req c.promptIndex ++ c.text
  logprobs := if req.wantLogprobs then
      some (completionLogprobsJson ctx c.logprobs req.topLogprobs (echoed req c.promptIndex).length
        0).1
    else none
  finishReason := c.finish
  stopReason := stopReasonJson c.stopReason

def chatResponseJson (results : List (ChoiceResult M)) : Response M :=
  .chat req.header (results.map (chatChoice ctx req)) (sumUsage req results)

def completionResponseJson (results : List (ChoiceResult M)) : Response M :=
  .completion req.header (results.map (completionChoice ctx req)) (sumUsage req results)

/-- The error of a choice that failed or was aborted. -/
def choiceError (result : ChoiceResult M) : Option String :=
  match result.finish with
  | .error => some ("generation failed: " ++
      if result.error.isEmpty then "unknown engine error" else result.error)
  | .abort => some ("request was aborted" ++
      if result.error.isEmpty then "" else ": " ++ result.error)
  | _ => none

def responseJson (results : List (ChoiceResult M)) : Outcome (Response M) :=
  match results.findSome? choiceError with
  | some message => .threw message
  | none =>
    match req.kind with
    | .chat => .ok (chatResponseJson ctx req results)
    | .completion => .ok (completionResponseJson ctx req results)

/-- `send_json` of the answer. -/
def sendJson (response : Response M) : Outcome (Response M) := dump response.strings response

end Answers

section Frames

variable {M : Model} (ctx : ServerContext M) (req : GenerationRequest)

/-- The object `delta` of a chunk. The first one of a choice has the role and no content. -/
inductive Delta
  | role
  | content (text : Bytes)
  | toolCalls (calls : List ToolCall)
  | empty
deriving DecidableEq, Repr

def Delta.strings : Delta → List Bytes
  | .role | .empty => []
  | .content text => [text]
  | .toolCalls calls => callStrings calls

structure ChatChunk (M : Model) where
  index : Nat
  delta : Delta
  logprobs : Option (List (TokenLogprob M))
  finishReason : FinishReason
  stopReason : Option StopReason

structure CompletionChunk (M : Model) where
  index : Nat
  text : Bytes
  logprobs : Option (CompletionLogprobs M)
  finishReason : FinishReason
  stopReason : Option StopReason

/-- The frames of a stream. -/
inductive Frame (M : Model)
  | chat (header : Header) (choice : ChatChunk M)
  | completion (header : Header) (choice : CompletionChunk M)
  | usage (header : Header) (usage : Usage)
  | error (message : String)
  | done

def ChatChunk.strings (chunk : ChatChunk M) : List Bytes :=
  chunk.delta.strings ++ (chunk.logprobs.getD []).flatMap TokenLogprob.strings ++
    chunk.stopReason.elim [] StopReason.strings

def CompletionChunk.strings (chunk : CompletionChunk M) : List Bytes :=
  chunk.text :: (chunk.logprobs.elim [] CompletionLogprobs.strings ++
    chunk.stopReason.elim [] StopReason.strings)

def Frame.strings : Frame M → List Bytes
  | .chat header chunk => header.strings ++ chunk.strings
  | .completion header chunk => header.strings ++ chunk.strings
  | .usage header _ => header.strings
  | .error _ | .done => []

def sseFrame (frame : Frame M) : Outcome (Frame M) := dump frame.strings frame

/-- A chunk has a stop reason if it has a finish reason. -/
def chunkStop (finish : FinishReason) (stopReason : Bytes) : Option StopReason :=
  if finish = .none then none else some (stopReasonJson stopReason)

def chatChunkJson (index : Nat) (delta : Delta) (logprobs : Option (List (TokenLogprob M)))
    (finish : FinishReason) (stopReason : Bytes) : Frame M :=
  .chat req.header ⟨index, delta, logprobs, finish, chunkStop finish stopReason⟩

def completionChunkJson (index : Nat) (text : Bytes) (logprobs : Option (CompletionLogprobs M))
    (finish : FinishReason) (stopReason : Bytes) : Frame M :=
  .completion req.header ⟨index, text, logprobs, finish, chunkStop finish stopReason⟩

/-- What a stream remembers of a `Choice`. -/
structure Choice where
  roleSent : Bool := false
  echoSent : Bool := false
  lpOffset : Nat := 0
  contentSent : Nat := 0
deriving DecidableEq, Repr

/-- `sse_for` for a chat without tools, behind the role. -/
def plainFrames (index : Nat) (logprobs : Option (List (TokenLogprob M))) (c : OutputChunk M) :
    List (Frame M) :=
  (if c.text.isEmpty && logprobs.isNone then []
    else [chatChunkJson req index (.content c.text) logprobs .none []]) ++
  if c.finished then [chatChunkJson req index .empty none c.finishReason c.stopReason] else []

/-- `sse_for` for a chunk of a chat with tools that is not the last one: the frames and the
new `content_sent`. -/
def heldFrames (r : ChoiceResult M) (contentSent : Nat)
    (logprobs : Option (List (TokenLogprob M))) : List (Frame M) × Nat :=
  let safe := ToolCalls.streamable r.text req.toolFormat
  if safe > contentSent then
    ([chatChunkJson req r.index (.content ((r.text.drop contentSent).take (safe - contentSent)))
      logprobs .none []], safe)
  else if logprobs.isSome then
    ([chatChunkJson req r.index .empty logprobs .none []], contentSent)
  else ([], contentSent)

/-- `sse_for` for the last chunk of a chat with tools. -/
def closingFrames (r : ChoiceResult M) (contentSent : Nat)
    (logprobs : Option (List (TokenLogprob M))) (c : OutputChunk M) : List (Frame M) :=
  let parsed := ToolCalls.parseToolCalls ctx.numbers r.text req.toolFormat
  if parsed.toolCalls.isEmpty then
    (if r.text.length > contentSent then
        [chatChunkJson req r.index (.content (r.text.drop contentSent)) logprobs .none []]
      else []) ++
    [chatChunkJson req r.index .empty none c.finishReason c.stopReason]
  else
    let sent := r.text.take contentSent
    (if parsed.content.length > sent.length && sent.isPrefixOf parsed.content then
        [chatChunkJson req r.index (.content (parsed.content.drop sent.length)) none .none []]
      else []) ++
    [chatChunkJson req r.index (.toolCalls parsed.toolCalls) logprobs .none [],
      chatChunkJson req r.index .empty none
        (if c.finishReason = .stop then .toolCalls else c.finishReason) c.stopReason]

/-- The log-probabilities of a chunk of a chat, if there are some to show. -/
def chatLogprobs (c : OutputChunk M) : Option (List (TokenLogprob M)) :=
  if req.wantLogprobs && !c.logprobs.isEmpty then
    some (chatLogprobsJson ctx c.logprobs req.topLogprobs)
  else none

/-- The frame with the role, once for each choice. -/
def roleFrames (index : Nat) (choice : Choice) : List (Frame M) :=
  if choice.roleSent then [] else [chatChunkJson req index .role none .none []]

def chatFrames (r : ChoiceResult M) (choice : Choice) (c : OutputChunk M) :
    List (Frame M) × Choice :=
  let role := roleFrames req r.index choice
  let choice := { choice with roleSent := true }
  if !req.parseToolCalls then (role ++ plainFrames req r.index (chatLogprobs ctx req c) c, choice)
  else if !c.finished then
    let held := heldFrames req r choice.contentSent (chatLogprobs ctx req c)
    (role ++ held.1, { choice with contentSent := held.2 })
  else
    (role ++ closingFrames ctx req r choice.contentSent (chatLogprobs ctx req c) c,
      { choice with contentSent := r.text.length })

def completionFrames (r : ChoiceResult M) (choice : Choice) (c : OutputChunk M) :
    List (Frame M) × Choice :=
  let asked := req.wantLogprobs && !c.logprobs.isEmpty
  let arrays := completionLogprobsJson ctx c.logprobs req.topLogprobs
    (echoed req r.promptIndex).length choice.lpOffset
  let logprobs := if asked then some arrays.1 else none
  let text := if req.echo && !choice.echoSent then echoed req r.promptIndex ++ c.text else c.text
  let frames := if text.isEmpty && logprobs.isNone && !c.finished then []
    else [completionChunkJson req r.index text logprobs c.finishReason c.stopReason]
  (frames, { choice with
    lpOffset := if asked then arrays.2 else choice.lpOffset
    echoSent := req.echo || choice.echoSent })

/-- The frames `sse_for` appends for a chunk, before they are dumped. -/
def framesFor (r : ChoiceResult M) (choice : Choice) (c : OutputChunk M) :
    List (Frame M) × Choice :=
  if !c.error.isEmpty then ([.error ("generation failed: " ++ c.error)], choice)
  else
    match req.kind with
    | .chat => chatFrames ctx req r choice c
    | .completion => completionFrames ctx req r choice c

def sseFor (r : ChoiceResult M) (choice : Choice) (c : OutputChunk M) :
    Outcome (List (Frame M) × Choice) := do
  let frames ← (framesFor ctx req r choice c).1.mapM sseFrame
  .ok (frames, (framesFor ctx req r choice c).2)

end Frames

/-- A `Choice` that was submitted, with the queue of its handle, and its result. -/
structure Slot (M : Model) extends Choice where
  finished : Bool := false
  queue : List (OutputChunk M) := []
  result : ChoiceResult M

abbrev GenerationEvent (M : Model) := Nat × OutputChunk M

/-- Where the thread of the request is: before the next call of `pump`, in its first loop with
the events found so far, before it blocks, behind the last one, or gone with an exception. -/
inductive RunPhase (M : Model)
  | idle
  | draining (k : Nat) (events : List (GenerationEvent M))
  | blocking
  | closed
  | failed (message : String)

/-- `sent` has the frames of the stream, `answer` the response without one. -/
structure GenerationRun (M : Model) where
  slots : List (Slot M)
  aborted : Bool := false
  phase : RunPhase M := .idle
  sent : List (Frame M) := []
  answer : Option (Response M) := none

section Results

variable {M : Model}

/-- The result of the choice `k` before its first chunk. -/
def ChoiceResult.start (M : Model) (req : GenerationRequest) (k : Nat) : ChoiceResult M where
  index := match req.kind with
    | .chat => k % req.n
    | .completion => k
  promptIndex := k / req.n
  nPrompt := (req.prompts.getD (k / req.n) []).length

/-- `apply` on the result. -/
def ChoiceResult.apply (r : ChoiceResult M) (c : OutputChunk M) : ChoiceResult M :=
  let r := { r with
    text := r.text ++ c.text
    tokens := r.tokens ++ c.tokens
    logprobs := r.logprobs ++ c.logprobs
    nPrompt := if c.nPromptTokens = 0 then r.nPrompt else c.nPromptTokens
    nOutput := if c.nOutputTokens = 0 then (r.tokens ++ c.tokens).length else c.nOutputTokens }
  if c.finished then
    { r with
      finish := c.finishReason
      stopReason := c.stopReason
      error := c.error
      nCached := c.nCachedTokens }
  else r

/-- `apply` -/
def Slot.apply (slot : Slot M) (c : OutputChunk M) : Slot M :=
  { slot with result := slot.result.apply c, finished := slot.finished || c.finished }

/-- `try_pop` or `pop`, with `apply` behind it. -/
def Slot.pop (slot : Slot M) : Option (OutputChunk M × Slot M) :=
  match slot.queue with
  | [] => none
  | c :: queue => some (c, { slot with queue := queue }.apply c)

end Results

namespace GenerationRun

variable {M : Model} (ctx : ServerContext M) (req : GenerationRequest) (run : GenerationRun M)

def new (M : Model) (req : GenerationRequest) : GenerationRun M where
  slots := (List.range req.totalChoices).map (fun k => { result := ChoiceResult.start M req k })

def results : List (ChoiceResult M) :=
  run.slots.map (fun slot => slot.result)

def allFinished : Bool := run.slots.all (fun slot => slot.finished)

/-- `abort_all`; the engine is told of it elsewhere. -/
def abortAll : GenerationRun M :=
  if run.allFinished then run
  else { run with
    aborted := true
    slots := run.slots.map (fun slot => { slot with
      finished := true
      result := { slot.result with
        finish := if slot.result.finish = .none then .abort else slot.result.finish } }) }

/-- The loop over the events of a call of `next_sse`. -/
def render : List (GenerationEvent M) → List (Slot M) → Outcome (List (Frame M) × List (Slot M))
  | [], slots => .ok ([], slots)
  | (k, c) :: events, slots =>
    match slots[k]? with
    | none => render events slots
    | some slot => do
      let (frames, choice) ← sseFor ctx req slot.result slot.toChoice c
      let (more, slots) ← render events (slots.set k { slot with toChoice := choice })
      .ok (frames ++ more, slots)

/-- The frames that close the choices of an aborted stream. -/
def abortFrames : List (Frame M) :=
  if run.aborted && req.kind = .chat then
    (run.slots.filter (fun slot => slot.result.finish = .abort && slot.roleSent)).map
      (fun slot => chatChunkJson req slot.result.index .empty none .abort [])
  else []

def usageFrames : List (Frame M) :=
  if req.includeUsage then
    [.usage req.header ⟨oncePerPrompt (fun r => r.nPrompt) [] run.results,
      completionTokens run.results, oncePerPrompt (fun r => r.nCached) [] run.results⟩]
  else []

/-- `next_sse` behind `pump`. -/
def closeSse (events : List (GenerationEvent M)) : Outcome (GenerationRun M) := do
  let (frames, slots) ← render ctx req events run.slots
  let run := { run with slots := slots, sent := run.sent ++ frames, phase := .idle }
  if run.allFinished then
    let last ← (run.abortFrames req ++ run.usageFrames req).mapM sseFrame
    .ok { run with sent := run.sent ++ last ++ [.done], phase := .closed }
  else .ok run

/-- `collect` behind `pump`, and the answer behind `collect`. -/
def closeCollect : Outcome (GenerationRun M) :=
  if run.allFinished then do
    let response ← responseJson ctx req run.results
    let response ← sendJson response
    .ok { run with answer := some response, phase := .closed }
  else .ok { run with phase := .idle }

/-- The turn behind a call of `pump` that has found the given events. What an exception leaves
behind is not sent. -/
def close (events : List (GenerationEvent M)) : GenerationRun M :=
  match if req.stream then run.closeSse ctx req events else run.closeCollect ctx req with
  | .ok next => next
  | .threw message => { run with phase := .failed message }
  | .aborted => { run with phase := .failed "" }

/-- One turn of `pump` in its first loop. -/
def drain (k : Nat) (events : List (GenerationEvent M)) : GenerationRun M :=
  match run.slots[k]? with
  | none => if events.isEmpty then { run with phase := .blocking } else run.close ctx req events
  | some slot =>
    if slot.finished then { run with phase := .draining (k + 1) events }
    else
      match slot.pop with
      | none => { run with phase := .draining (k + 1) events }
      | some (c, slot) => { run with
          slots := run.slots.set k slot
          phase := .draining k (events ++ [(k, c)]) }

/-- `pump` behind its first loop: the first queue that is not finished has a chunk or the
wait for one is over. -/
def block : GenerationRun M :=
  match run.slots.findIdx? (fun slot => !slot.finished) with
  | none => run.close ctx req []
  | some k =>
    match run.slots[k]?.bind Slot.pop with
    | none => run.close ctx req []
    | some (c, slot) => { run with slots := run.slots.set k slot }.close ctx req [(k, c)]

/-- The thread of the request goes on. -/
def turn : GenerationRun M :=
  match run.phase with
  | .idle => if run.allFinished then run.close ctx req [] else { run with phase := .draining 0 [] }
  | .draining k events => run.drain ctx req k events
  | .blocking => run.block ctx req
  | .closed | .failed _ => run

/-- The engine pushes a chunk of the choice `k`. -/
def arrive (k : Nat) (c : OutputChunk M) : GenerationRun M :=
  { run with slots := run.slots.modify k (fun slot => { slot with queue := slot.queue ++ [c] }) }

/-- What can happen next: the engine pushes a chunk, the thread of the request goes on, or it
aborts the request between two calls of `pump`. -/
inductive Event (M : Model)
  | arrive (k : Nat) (chunk : OutputChunk M)
  | turn
  | abort

def step : Event M → GenerationRun M
  | .arrive k c => run.arrive k c
  | .turn => run.turn ctx req
  | .abort =>
    match run.phase with
    | .idle => run.abortAll
    | _ => run

/-- The run after any interleaving of arrivals and turns. -/
def serve (events : List (Event M)) : GenerationRun M := events.foldl (step ctx req) (new M req)

end GenerationRun

end Iian
