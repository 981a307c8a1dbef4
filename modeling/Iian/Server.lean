import Iian.Engine

/- The engine thread and the calls that run beside it.

`submit`, `submit_embedding`, `abort` and the ingest of a step each hold `mtx_` while they
touch the lists they share, so they are single events here. The step is two events, since
clients may call while the rest of it computes. `start` and `stop` are called by the owner,
one after another. The warmup of the constructor is left out. -/
namespace Iian

/-- Where the engine thread is: parked at the beginning of `run_loop`, at the test of the
loop, at the beginning of a step, behind the ingest of that step, or gone. -/
inductive Thread
  | parked
  | looping
  | stepping
  | ingested
  | exited
deriving DecidableEq, Repr

/-- The owner's call of `stop`: not made since the last start, with `running_` exchanged,
with `quit_` set, or returned. -/
inductive Stop
  | idle
  | called (wasRunning : Bool)
  | signalled (wasRunning : Bool)
  | returned
deriving DecidableEq, Repr

/-- Two lists are there for the statements alone: `due` has the requests whose submission
had returned when `stop` was called, and `left` has the requests in `new_requests_` at the
first moment at which `stop` has been called and the engine thread has left its loop. -/
structure Server (M : Model) where
  engine : Engine M
  running : Bool := false
  quit : Bool := false
  thread : Thread := .parked
  stop : Stop := .idle
  due : List Nat := []
  left : List Nat := []

namespace Server

variable {M : Model} (s : Server M)

def new (M : Model) (cfg : EngineConfig) : Server M where
  engine := .new M cfg

/-- The ids in `new_requests_`. -/
def queued : List Nat := s.engine.newRequests.map Request.id

/-- `start`: a thread that has been joined is created again. -/
def start : Server M :=
  match s.stop with
  | .called _ | .signalled _ => s
  | .idle | .returned =>
    if s.running then s
    else { s with
      running := true
      thread := if s.thread = .exited then .parked else s.thread
      stop := .idle }

/-- `stop` up to the exchange of `running_`. -/
def callStop : Server M :=
  match s.stop with
  | .called _ | .signalled _ => s
  | .idle | .returned => { s with
      running := false
      stop := .called s.running
      due := s.engine.issued
      left := if s.thread = .exited then s.queued else s.left }

/-- `stop` sets `quit_`. -/
def signal : Server M :=
  match s.stop with
  | .called wasRunning => { s with quit := true, stop := .signalled wasRunning }
  | _ => s

/-- `stop` behind the join: what is left is aborted, if the engine was running. -/
def join : Server M :=
  match s.stop with
  | .signalled wasRunning =>
    if s.thread = .exited then
      { s with
        engine := if wasRunning then
            s.engine.finishAll .finishedAborted .abort "engine shutting down"
          else s.engine
        stop := .returned }
    else s
  | _ => s

/-- The engine thread stops waiting for a start. -/
def wake : Server M :=
  if s.thread = .parked ∧ (s.running || s.quit) then { s with thread := .looping } else s

/-- The test of the loop. -/
def test : Server M :=
  if s.thread = .looping then
    if s.running then { s with thread := .stepping }
    else { s with thread := .exited, left := s.queued }
  else s

def ingest (s : Server M) : Server M :=
  if s.thread = .stepping then { s with engine := s.engine.ingest, thread := .ingested } else s

def body (input : StepInput) : Server M :=
  if s.thread = .ingested then
    { s with engine := Engine.handle (s.engine.stepBody input), thread := .looping }
  else s

/-- What can happen next. -/
inductive Event
  | start
  | submit (prompt : List Token) (params : SamplingParams) (opts : RequestOptions)
  | submitEmbedding (prompt : List Token) (pooling : Pooling) (normalize : Bool)
      (opts : RequestOptions)
  | abort (id : Nat)
  | wake
  | test
  | ingest
  | body (input : StepInput)
  | callStop
  | signal
  | join

/-- An event that is not enabled changes nothing, and nothing happens after a crash. -/
def turn (event : Event) : Server M :=
  if s.engine.crashed then s
  else
    match event with
    | .start => s.start
    | .submit prompt params opts => { s with engine := (s.engine.submit prompt params opts).2 }
    | .submitEmbedding prompt pooling normalize opts =>
      { s with engine := (s.engine.submitEmbedding prompt pooling normalize opts).2 }
    | .abort id => { s with engine := s.engine.abort id }
    | .wake => s.wake
    | .test => s.test
    | .ingest => s.ingest
    | .body input => s.body input
    | .callStop => s.callStop
    | .signal => s.signal
    | .join => s.join

/-- The server after any interleaving of calls and turns of the engine thread. -/
def serve (M : Model) (cfg : EngineConfig) (events : List Event) : Server M :=
  events.foldl turn (new M cfg)

end Server

end Iian
