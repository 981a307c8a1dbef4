import Iian.Decode
import Iian.KvCache

/- Requests, their output queues and the row loop of `process_outputs` on one request.

A request is a value; who owns it is said by the list it stands in. Its queue `out` lists
every chunk ever pushed. Time stamps, the client's id and the draft model's own KV state
are left out; the arrival time is kept, since the priority policy compares it. -/
namespace Iian

inductive RequestStatus
  | waiting
  | running
  | preempted
  | finishedStopped
  | finishedLength
  | finishedAborted
  | finishedError
deriving DecidableEq, Repr

inductive Pooling
  | mean
  | last
  | cls
deriving DecidableEq, Repr

structure OutputChunk (M : Model) where
  tokens : List Token := []
  text : Bytes := []
  logprobs : List (SampledToken M.Logit) := []
  finished : Bool := false
  finishReason : FinishReason := .none
  stopReason : Bytes := []
  error : String := ""
  nPromptTokens : Nat := 0
  nOutputTokens : Nat := 0
  nCachedTokens : Nat := 0
  embedding : Option M.Embedding := none

structure RequestOptions where
  priority : Int := 0
  cacheSalt : UInt64 := 0
  arrival : Nat := 0

structure Request (M : Model) extends Gen M where
  id : Nat
  opts : RequestOptions
  status : RequestStatus := .waiting
  finishReason : FinishReason := .none
  numComputedTokens : Nat := 0
  numCachedTokens : Nat := 0
  numPreemptions : Nat := 0
  kv : KVRequestState := {}
  blockHashes : List UInt64 := []
  isEmbedding : Bool := false
  pooling : Pooling := .mean
  normalize : Bool := true
  embdAcc : Option M.Embedding := none
  embdCount : Nat := 0
  specTokens : List Token := []
  textSent : Nat := 0
  pendingTokens : List Token := []
  pendingLogprobs : List (SampledToken M.Logit) := []
  out : List (OutputChunk M) := []

namespace Request

variable {M : Model}

/-- `status > PREEMPTED`. -/
def isFinished (r : Request M) : Bool :=
  match r.status with
  | .waiting | .running | .preempted => false
  | .finishedStopped | .finishedLength | .finishedAborted | .finishedError => true

/-- The tokens a step may feed: the request's own and the drafts behind them. -/
def fed (r : Request M) : List Token := r.tokens ++ r.specTokens

/-- Bytes that could be the start of a stop string are not streamed yet. -/
def holdback (r : Request M) : Nat :=
  r.params.stop.foldl (fun held stop => max held (stop.length - 1)) 0

def sendTo (r : Request M) : Nat :=
  if r.text.length > r.holdback then r.text.length - r.holdback else 0

def deliver (r : Request M) : Request M :=
  if r.sendTo ≤ r.textSent ∧ r.pendingTokens.isEmpty then r
  else
    let text := if r.sendTo > r.textSent then (r.text.drop r.textSent).take (r.sendTo - r.textSent)
      else []
    let textSent := if r.sendTo > r.textSent then r.sendTo else r.textSent
    { r with
      textSent := textSent
      pendingTokens := []
      pendingLogprobs := []
      out := r.out ++ [{ tokens := r.pendingTokens, text := text, logprobs := r.pendingLogprobs,
                         nPromptTokens := r.nPrompt, nOutputTokens := r.nOutput }] }

/-- The part of `Engine::finish` that concerns the request: the terminal chunk. -/
def close (r : Request M) (status : RequestStatus) (why : FinishReason) (error : String) :
    Request M :=
  let gen := r.flush
  let text := if r.textSent < gen.text.length then gen.text.drop r.textSent else []
  { r with
    toGen := gen
    finishReason := why
    status := status
    textSent := if r.textSent < gen.text.length then gen.text.length else r.textSent
    pendingTokens := []
    pendingLogprobs := []
    embdAcc := if r.isEmbedding then none else r.embdAcc
    out := r.out ++ [{ tokens := r.pendingTokens, text := text, logprobs := r.pendingLogprobs,
                       finished := true, finishReason := why, stopReason := r.stopReason,
                       error := error, nPromptTokens := r.nPrompt, nOutputTokens := r.nOutput,
                       nCachedTokens := r.numCachedTokens,
                       embedding := if r.isEmbedding then r.embdAcc else none }] }

/-- What one turn of the row loop does to the request as a whole. -/
def pushRow (r : Request M) (sampled : SampledToken M.Logit) (gen : Gen M) : Request M :=
  { r with
    toGen := gen
    pendingTokens := r.pendingTokens ++ [sampled.token]
    pendingLogprobs := if 0 ≤ r.params.logprobs then r.pendingLogprobs ++ [sampled]
      else r.pendingLogprobs }

/-- The row loop: every row is sampled once, and a sample that differs from the draft of
its position ends the loop. The result counts the accepted drafts. -/
def verifyRows (maxModelLen : Nat) :
    List (List M.Logit) → List Token → Request M → Request M × Nat × RowsEnd
  | [], _, r => (r, 0, .next)
  | row :: rows, drafts, r =>
    match r.step maxModelLen row with
    | .threw message => (r, 0, .threw message)
    | .aborted => (r, 0, .aborted)
    | .ok (sampled, gen, stop) =>
      let r := r.pushRow sampled gen
      match drafts with
      | [] => (r, 0, .ofStop stop)
      | draft :: drafts =>
        if sampled.token = draft then
          if stop.isSome then (r, 1, .ofStop stop)
          else
            let (r, nAccepted, ended) := verifyRows maxModelLen rows drafts r
            (r, nAccepted + 1, ended)
        else (r, 0, .ofStop stop)

/-- The row loop with the rollback of rejected drafts behind it. -/
def verify (maxModelLen : Nat) (rows : List (List M.Logit)) (nSpec : Nat) (r : Request M) :
    Request M × RowsEnd :=
  let (r', nAccepted, ended) := verifyRows maxModelLen rows (r.specTokens.take nSpec) r
  match ended with
  | .threw message => (r', .threw message)
  | .aborted => (r', .aborted)
  | ended =>
    let nRejected := nSpec - nAccepted
    let computed := if nSpec > 0 then r'.numComputedTokens - nRejected else r'.numComputedTokens
    ({ r' with numComputedTokens := computed, specTokens := [] }, ended)

end Request

end Iian
