import Iian.Batch
import Mathlib.Data.List.Sort

/- `Engine`: submission, the step and the loop around it.

Finished requests are destroyed in the source; here they move to `done`, which stands for
the output queues the submitters still hold. `issued` lists the handles that have been
returned to them. Statistics and timing are left out. -/
namespace Iian

/-- Where draft tokens come from. The draft model is an oracle of each step. -/
inductive Drafting
  | off
  | ngram (k minN maxN : Nat)
  | model
deriving DecidableEq, Repr

structure EngineConfig where
  maxModelLen : Nat
  blockSize : Nat := 16
  numBlocks : Nat
  enablePrefixCaching : Bool := true
  seed : UInt64 := 0
  drafting : Drafting := .off
  gatherAttn : Bool := false
  sched : SchedulerConfig := {}
  blockSize_pos : 0 < blockSize := by decide

/-- The first access a pass over the scheduled requests makes through a handle, and whether
the request was still running then. A turn of a pass can release only its own request, and
only as its last action. -/
structure Access where
  req : Nat
  live : Bool
deriving DecidableEq, Repr

structure Engine (M : Model) where
  cfg : EngineConfig
  sched : Scheduler M
  cells : Cells M
  newRequests : List (Request M) := []
  aborts : List Nat := []
  nextId : Nat := 1
  issued : List Nat := []
  done : List (Request M) := []
  accesses : List Access := []
  crashed : Bool := false

/-- What a step gets from outside: the drafts of the draft model for each request, and
whether the computation fails, with the number of slots that were overwritten by then. -/
structure StepInput where
  drafts : Nat → List Token := fun _ => []
  failure : Option (String × Nat) := none

namespace Engine

variable {M : Model} (e : Engine M)

def new (M : Model) (cfg : EngineConfig) : Engine M where
  cfg := cfg
  sched := {
    cfg := cfg.sched
    pool := BlockPool.new cfg.numBlocks cfg.blockSize cfg.enablePrefixCaching }
  cells := List.replicate (cfg.numBlocks * cfg.blockSize) none

/-- The checks of a prompt; `noun` is what the messages call it. -/
def checkPrompt (M : Model) (noun : String) (prompt : List Token) : Except String Unit :=
  if prompt.isEmpty then .error s!"{noun} must not be empty"
  else
    match prompt.find? (fun token => !SamplingParams.inVocab M.nVocab token) with
    | some token => .error s!"{noun} token id out of range: {token}"
    | none => .ok ()

/-- The sampler of a new request draws from its own seed. -/
def samplerOf (M : Model) (seed : UInt64) (id : Nat) (params : SamplingParams) : M.Sampler :=
  M.newSampler params (seed + UInt64.ofNat id * 0x9E3779B97F4A7C15)

def grammarOf (M : Model) (params : SamplingParams) : Except String (Option M.Grammar) :=
  if params.grammar.isEmpty && params.jsonSchema.isEmpty then .ok none
  else (M.grammarInit params).map some

/-- The generation state of a request that has been submitted and not been stepped. -/
def startGen (M : Model) (seed : UInt64) (id : Nat) (prompt : List Token)
    (params : SamplingParams) (grammar : Option M.Grammar) : Gen M where
  params := params
  tokens := prompt
  nPrompt := prompt.length
  sampler := samplerOf M seed id params
  grammar := grammar

/-- The request `submit` makes. -/
def generationRequest (M : Model) (seed : UInt64) (id : Nat) (prompt : List Token)
    (params : SamplingParams) (opts : RequestOptions) (grammar : Option M.Grammar) : Request M where
  toGen := startGen M seed id prompt params grammar
  id := id
  opts := opts

/-- The request `submit_embedding` makes. -/
def embeddingRequest (M : Model) (id : Nat) (prompt : List Token) (pooling : Pooling)
    (normalize : Bool) (opts : RequestOptions) : Request M where
  params := { maxTokens := 1 }
  tokens := prompt
  nPrompt := prompt.length
  sampler := M.defaultSampler
  id := id
  opts := opts
  isEmbedding := true
  pooling := pooling
  normalize := normalize

/-- `submit`: the id, or the message of the exception. A grammar that is refused has used
up an id. -/
def submit (prompt : List Token) (params : SamplingParams) (opts : RequestOptions) :
    Except String Nat × Engine M :=
  if prompt.isEmpty then (.error "prompt must not be empty", e)
  else
    match params.validate M.nVocab with
    | .error message => (.error message, e)
    | .ok () =>
      match checkPrompt M "prompt" prompt with
      | .error message => (.error message, e)
      | .ok () =>
        if prompt.length ≥ e.cfg.maxModelLen then
          (.error s!"prompt is too long: {prompt.length} tokens, max_model_len is {e.cfg.maxModelLen}",
            e)
        else
          let id := e.nextId
          let e := { e with nextId := id + 1 }
          match grammarOf M params with
          | .error message => (.error message, e)
          | .ok grammar =>
            (.ok id, { e with
              newRequests := e.newRequests ++
                [generationRequest M e.cfg.seed id prompt params opts grammar]
              issued := e.issued ++ [id] })

def submitEmbedding (prompt : List Token) (pooling : Pooling) (normalize : Bool)
    (opts : RequestOptions) : Except String Nat × Engine M :=
  match checkPrompt M "input" prompt with
  | .error message => (.error message, e)
  | .ok () =>
    if prompt.length > e.cfg.maxModelLen then
      (.error s!"input is too long: {prompt.length} tokens, max_model_len is {e.cfg.maxModelLen}",
        e)
    else
      let id := e.nextId
      (.ok id, { e with
        nextId := id + 1
        newRequests := e.newRequests ++ [embeddingRequest M id prompt pooling normalize opts]
        issued := e.issued ++ [id] })

def abort (id : Nat) : Engine M := { e with aborts := e.aborts ++ [id] }

def finish (r : Request M) (status : RequestStatus) (why : FinishReason) (error : String :=
  "") : Engine M :=
  if r.isFinished then e
  else
    let (r, sched) := e.sched.finishRequest (r.close status why error) status
    { e with sched := sched, done := e.done ++ [r] }

/-- Ends every request the scheduler holds. -/
def finishAll (status : RequestStatus) (why : FinishReason) (error : String) : Engine M :=
  e.sched.allRequests.foldl (fun e r => e.finish r status why error) e

def finishAbort (id : Nat) : Engine M :=
  match e.sched.allRequests.find? (fun r => r.id = id) with
  | none => e
  | some r => e.finish r .finishedAborted .abort

def ingest : Engine M :=
  let fresh := e.newRequests
  let aborts := e.aborts
  let e := { e with
    newRequests := []
    aborts := []
    sched := fresh.foldl Scheduler.addRequest e.sched }
  aborts.foldl finishAbort e

/-- Requests that cannot be scheduled although nothing is running. -/
def failUnschedulable : Engine M :=
  e.sched.allRequests.foldl (fun e r =>
    if r.status = .waiting ∧ e.sched.running.length = 0 then
      e.finish r .finishedError .error "request does not fit in the KV cache"
    else e) e

def access (id : Nat) : Engine M :=
  { e with accesses := e.accesses ++ [{ req := id, live := (e.sched.find id).isSome }] }

def store (r : Request M) : Engine M := { e with sched := e.sched.store r }

end Engine

namespace Request

variable {M : Model}

/-- One row of the pooling loop. -/
def poolRow (pooling : Pooling) (first : Bool) (acc row : M.Embedding) : M.Embedding :=
  match pooling with
  | .mean => acc + row
  | .last => row
  | .cls => if first then row else acc

/-- The pooling loop over the rows of a chunk. -/
def poolRows (r : Request M) (rows : List M.Embedding) : Request M :=
  let acc := r.embdAcc.getD 0
  let firstChunk : Bool := r.embdCount = 0
  let acc := (rows.zipIdx).foldl
    (fun acc row => poolRow r.pooling (firstChunk && row.2 == 0) acc row.1) acc
  { r with embdAcc := some acc, embdCount := r.embdCount + rows.length }

/-- The vector of a finished embedding request, before normalisation. -/
def pooled (r : Request M) : M.Embedding :=
  let acc := r.embdAcc.getD 0
  if r.pooling = .mean ∧ r.embdCount ≠ 0 then fun d => acc d / (r.embdCount : ℚ) else acc

def embed (r : Request M) : Request M :=
  { r with embdAcc := some (if r.normalize then M.normalize r.pooled else r.pooled) }

end Request

/-- The occurrences of the suffix n-gram, most recent first, with what follows them. -/
def ngramFollow (tokens : List Token) (k n : Nat) : Option (List Token) :=
  let nTok := tokens.length
  let searchFrom := if nTok > 8192 then nTok - 8192 else 0
  if nTok < n + 1 then none
  else
    (List.range' searchFrom (nTok - n - searchFrom)).reverse.findSome? (fun i =>
      if (tokens.drop i).take n = tokens.drop (nTok - n) then
        let out := (tokens.drop (i + n)).take k
        if out.isEmpty then none else some out
      else none)

/-- `ngram_draft`: the longest suffix n-gram is tried first. -/
def ngramDraft (k minN maxN : Nat) (tokens : List Token) : List Token :=
  let least := max 1 minN
  ((List.range' least (maxN + 1 - least)).reverse.findSome? (ngramFollow tokens k)).getD []

namespace Engine

variable {M : Model} (e : Engine M)

/-- The hidden states of a chunk. -/
def chunkRows (hidden : List M.Embedding) (row : Option (Nat × Nat)) : List M.Embedding :=
  let (first, count) := row.getD (0, 0)
  (hidden.drop first).take count

/-- The turn of `process_embeddings` for one scheduled request. A handle whose request is
gone is taken as finished, here and in the two turns below; the source reads freed memory
there, and `accesses` tells when. -/
def embedTurn (hidden : List M.Embedding) (e : Engine M)
    (turn : ScheduledRequest × Option (Nat × Nat)) : Engine M :=
  let e := e.access turn.1.req
  match e.sched.find turn.1.req with
  | none => e
  | some r =>
    if !r.isEmbedding || r.isFinished then e
    else
      let r := r.poolRows (chunkRows hidden turn.2)
      if r.numComputedTokens ≥ r.nTokens then e.finish r.embed .finishedStopped .stop
      else e.store r

def processEmbeddings (scheduled : List ScheduledRequest) (batch : Batch)
    (hidden : List M.Embedding) : Engine M :=
  if batch.embdRows.any Option.isSome then
    (scheduled.zip batch.embdRows).foldl (embedTurn hidden) e
  else e

/-- The drafts of the n-gram lookup for a request that goes on. -/
def lookupDrafts (cfg : EngineConfig) (r : Request M) : Request M :=
  match cfg.drafting with
  | .ngram k minN maxN =>
    if k > 0 ∧ r.grammar.isNone then
      { r with specTokens := ngramDraft k minN maxN r.tokens }
    else r
  | _ => r

def statusOf (why : FinishReason) : RequestStatus :=
  if why = .length then .finishedLength else .finishedStopped

/-- The turn of `process_outputs` for one scheduled request. -/
def outputTurn (logits : List (List M.Logit)) (e : Engine M)
    (turn : ScheduledRequest × Option Nat) : Engine M × Outcome Unit :=
  let e := e.access turn.1.req
  match e.sched.find turn.1.req with
  | none => (e, .ok ())
  | some r =>
    if r.isFinished || r.isEmbedding then (e, .ok ())
    else
      match turn.2 with
      | none => (e, .ok ())
      | some first =>
        let rows := (logits.drop first).take (turn.1.nSpec + 1)
        match r.verify e.cfg.maxModelLen rows turn.1.nSpec with
        | (r, .threw message) => (e.store r, .threw message)
        | (r, .aborted) => (e.store r, .aborted)
        | (r, .stop why) => (e.finish r (statusOf why) why, .ok ())
        | (r, .next) => (e.store (lookupDrafts e.cfg r).deliver, .ok ())

/-- The loop of `process_outputs`; an exception leaves it at once. -/
def outputTurns (logits : List (List M.Logit)) :
    List (ScheduledRequest × Option Nat) → Engine M → Engine M × Outcome Unit
  | [], e => (e, .ok ())
  | turn :: turns, e =>
    match e.outputTurn logits turn with
    | (e, .ok ()) => outputTurns logits turns e
    | result => result

/-- The turn of the trailing loop that asks the draft model for proposals. -/
def draftTurn (drafts : Nat → List Token) (e : Engine M) (entry : ScheduledRequest) : Engine M :=
  let e := e.access entry.req
  match e.sched.find entry.req with
  | none => e
  | some r =>
    if !r.isFinished && !r.isEmbedding && r.grammar.isNone &&
        r.numComputedTokens + 1 == r.nTokens then
      e.store { r with specTokens := drafts r.id }
    else e

def processOutputs (scheduled : List ScheduledRequest) (batch : Batch)
    (logits : List (List M.Logit)) (drafts : Nat → List Token) : Engine M × Outcome Unit :=
  match outputTurns logits (scheduled.zip batch.logitRows) e with
  | (e, .ok ()) =>
    if e.cfg.drafting = .model then (scheduled.foldl (draftTurn drafts) e, .ok ())
    else (e, .ok ())
  | result => result

/-- Gather attention groups the scheduled requests by their number of tokens. -/
def batchOrder (cfg : EngineConfig) (scheduled : List ScheduledRequest) : List ScheduledRequest :=
  if cfg.gatherAttn then scheduled.insertionSort (fun a b => a.nNewTokens ≥ b.nNewTokens)
  else scheduled

/-- A failed computation leaves undefined contents in some of the slots it was to fill. -/
def spoil (cells : Cells M) (slots : List BatchToken) : Cells M :=
  slots.foldl (fun cells token =>
    match token.slot with
    | none => cells
    | some slot => cells.set slot none) cells

/-- The step after scheduling: batch, computation, commit and outputs. -/
def compute (scheduled : List ScheduledRequest) (input : StepInput) : Engine M × Outcome Unit :=
  let batch := Batch.build e.sched scheduled
  match input.failure with
  | some (message, count) =>
    ({ e with cells := spoil e.cells (batch.tokens.take count) }, .threw message)
  | none =>
    let cells := batch.write e.cells
    let e := { e with
      cells := cells
      sched := e.sched.updateAfterStep scheduled }
    let e := e.processEmbeddings scheduled batch (batch.hidden cells)
    e.processOutputs scheduled batch (batch.logits cells) input.drafts

/-- `step` after the ingest. The result is false when there was nothing to do. -/
def stepBody (input : StepInput) : Engine M × Outcome Bool :=
  if e.sched.hasRequests = false then (e, .ok false)
  else
    let (out, sched) := e.sched.schedule
    let e := { e with sched := sched }
    if out.scheduled.isEmpty then
      if out.preempted.isEmpty = false then (e, .ok true)
      else (e.failUnschedulable, .ok false)
    else
      match e.compute (batchOrder e.cfg out.scheduled) input with
      | (e, .ok ()) => (e, .ok true)
      | (e, .threw message) => (e, .threw message)
      | (e, .aborted) => (e, .aborted)

def step (input : StepInput) : Engine M × Outcome Bool := e.ingest.stepBody input

/-- The handler of `run_loop`: an exception ends every request, an abort the process. -/
def handle : Engine M × Outcome Bool → Engine M
  | (e, .ok _) => e
  | (e, .threw message) => e.finishAll .finishedError .error message
  | (e, .aborted) => { e with crashed := true }

/-- The calls of clients and the turns of `run_loop`. -/
inductive Action
  | submit (prompt : List Token) (params : SamplingParams) (opts : RequestOptions)
  | submitEmbedding (prompt : List Token) (pooling : Pooling) (normalize : Bool)
      (opts : RequestOptions)
  | abort (id : Nat)
  | step (input : StepInput)

def act (action : Action) : Engine M :=
  if e.crashed then e
  else
    match action with
    | .submit prompt params opts => (e.submit prompt params opts).2
    | .submitEmbedding prompt pooling normalize opts =>
      (e.submitEmbedding prompt pooling normalize opts).2
    | .abort id => e.abort id
    | .step input => handle (e.step input)

/-- The engine after a sequence of calls and steps in any order. -/
def run (M : Model) (cfg : EngineConfig) (actions : List Action) : Engine M :=
  actions.foldl act (new M cfg)

end Engine

end Iian
