import Iian.Lib.Keyed
import Iian.Request

/- `Scheduler`. Pointers to requests are their ids; the scheduler owns the requests in
`waiting` and `running`. Counters of statistics are left out. -/
namespace Iian

open Lib

inductive SchedulingPolicy
  | fcfs
  | priority
deriving DecidableEq, Repr

structure SchedulerConfig where
  maxNumSeqs : Nat := 32
  maxNumBatchedTokens : Nat := 1024
  maxModelLen : Nat := 0
  longPrefillTokenThreshold : Nat := 0
  enableChunkedPrefill : Bool := true
  policy : SchedulingPolicy := .fcfs
deriving DecidableEq, Repr

structure ScheduledRequest where
  req : Nat
  nNewTokens : Nat
  nSpec : Nat := 0
  resumed : Bool
deriving DecidableEq, Repr

structure SchedulerOutput where
  scheduled : List ScheduledRequest := []
  preempted : List Nat := []
  totalTokens : Nat := 0
deriving DecidableEq, Repr

/-- The scheduler with the block pool of its KV cache. -/
structure Scheduler (M : Model) where
  cfg : SchedulerConfig
  pool : BlockPool
  waiting : List (Request M) := []
  running : List (Request M) := []

namespace Request

variable {M : Model}

/-- A preempted request starts over; its blocks have been returned. -/
def preempted (req : Request M) (kv : KVRequestState) : Request M :=
  { req with
    kv := kv
    status := .preempted
    numComputedTokens := 0
    numPreemptions := req.numPreemptions + 1 }

/-- An admitted request runs behind the tokens the prefix cache has supplied. -/
def admitted (req : Request M) (kv : KVRequestState) (nComputed : Nat) : Request M :=
  { req with
    kv := kv
    status := .running
    numComputedTokens := nComputed
    numCachedTokens := if req.status = .preempted then req.numCachedTokens else nComputed }

/-- A request whose step has been counted and whose full blocks have been registered. -/
def committed (req : Request M) (kv : KVRequestState) (hashes : List UInt64) (nComputed : Nat) :
    Request M :=
  { req with numComputedTokens := nComputed, blockHashes := hashes, kv := kv }

end Request

namespace Scheduler

variable {M : Model} (s : Scheduler M)

/-- `make_pair(a.priority, a.arrival) < make_pair(b.priority, b.arrival)`. -/
def before (a b : Request M) : Bool :=
  a.opts.priority < b.opts.priority ∨
    (a.opts.priority = b.opts.priority ∧ a.opts.arrival < b.opts.arrival)

/-- `waiting_.insert(upper_bound(..), req)`; the queue is sorted under the priority policy. -/
def insertWaiting (req : Request M) : List (Request M) → List (Request M)
  | [] => [req]
  | other :: rest => if before req other then req :: other :: rest
      else other :: insertWaiting req rest

def addRequest (req : Request M) : Scheduler M :=
  let req := { req with status := .waiting }
  match s.cfg.policy with
  | .priority => { s with waiting := insertWaiting req s.waiting }
  | .fcfs => { s with waiting := s.waiting ++ [req] }

def allRequests : List (Request M) := s.running ++ s.waiting

def hasRequests : Bool := !s.waiting.isEmpty || !s.running.isEmpty

/-- The request a handle of the current step points to; scheduled requests are running. -/
def find (s : Scheduler M) (id : Nat) : Option (Request M) :=
  s.running.find? (fun r => r.id = id)

/-- Writing through a handle. -/
def store (req : Request M) : Scheduler M :=
  { s with running := Keyed.replace Request.id req s.running }

/-- `finish_request`; the released request is returned. -/
def finishRequest (req : Request M) (status : RequestStatus) : Request M × Scheduler M :=
  let (kv, pool) := s.pool.freeState req.kv
  let req := { req with status := status, kv := kv }
  if s.running.any (fun r => r.id = req.id) then
    (req, { s with pool := pool, running := Keyed.remove Request.id req.id s.running })
  else
    (req, { s with pool := pool, waiting := Keyed.remove Request.id req.id s.waiting })

def preempt (req : Request M) : Scheduler M :=
  let (kv, pool) := s.pool.freeState req.kv
  let req := req.preempted kv
  let s := { s with pool := pool, running := Keyed.remove Request.id req.id s.running }
  match s.cfg.policy with
  | .priority => { s with waiting := insertWaiting req s.waiting }
  | .fcfs => { s with waiting := req :: s.waiting }

end Scheduler

/-- The state of a call of `schedule`. -/
structure Plan (M : Model) where
  sched : Scheduler M
  budget : Nat
  out : SchedulerOutput := {}

namespace Plan

variable {M : Model}

/-- Takes a scheduled request out of the plan again. -/
def refund (plan : Plan M) (id : Nat) : Plan M :=
  match plan.out.scheduled.find? (fun entry => entry.req = id) with
  | none => plan
  | some entry =>
    { plan with
      budget := plan.budget + entry.nNewTokens
      out := { plan.out with
        totalTokens := plan.out.totalTokens - entry.nNewTokens
        scheduled := plan.out.scheduled.eraseP (fun entry => entry.req = id) } }

def preempt (plan : Plan M) (victim : Request M) : Plan M :=
  { plan with
    sched := plan.sched.preempt victim
    out := { plan.out with preempted := plan.out.preempted ++ [victim.id] } }

/-- Adds a request, with its new block table, to the plan. -/
def push (plan : Plan M) (sched : Scheduler M) (entry : ScheduledRequest) : Plan M :=
  { sched := sched
    budget := plan.budget - entry.nNewTokens
    out := { plan.out with
      scheduled := plan.out.scheduled ++ [entry]
      totalTokens := plan.out.totalTokens + entry.nNewTokens } }

/-- The tokens a request may be fed in one step, apart from the budget and from drafts. -/
def chunk (cfg : SchedulerConfig) (req : Request M) (nComputed : Nat) : Nat :=
  let nNew := req.nTokens - nComputed
  if cfg.longPrefillTokenThreshold > 0 then min nNew cfg.longPrefillTokenThreshold else nNew

def wanted (cfg : SchedulerConfig) (budget : Nat) (req : Request M) (nComputed : Nat) : Nat :=
  min (chunk cfg req nComputed) budget

/-- Drafts ride along only when the whole window fits the budget and the context. -/
def wantedSpec (cfg : SchedulerConfig) (budget : Nat) (req : Request M) (nNew : Nat) : Nat :=
  if req.specTokens.isEmpty = false ∧ nNew = req.nTokens - req.numComputedTokens then
    let nSpec := req.specTokens.length
    let nSpec := if nNew + nSpec > budget then budget - nNew else nSpec
    if req.numComputedTokens + nNew + nSpec + 1 > cfg.maxModelLen then
      min nSpec (if cfg.maxModelLen > req.numComputedTokens + nNew + 1 then
        cfg.maxModelLen - req.numComputedTokens - nNew - 1 else 0)
    else nSpec
  else 0

/-- The allocation loop of phase 1: while the pool is too small, the last running request
is preempted. The result says whether `req` got its blocks. Every turn removes a running
request, so there are at most as many turns as running requests. -/
def allocateRunning (req : Request M) (nTotalTokens : Nat) : Nat → Plan M → Plan M × Bool
  | 0, plan => (plan, false)
  | turns + 1, plan =>
    match plan.sched.pool.allocateSlots req.kv nTotalTokens [] with
    | (true, kv, pool) =>
      ({ plan with sched := { plan.sched with pool := pool }.store { req with kv := kv } }, true)
    | (false, _, _) =>
      match plan.sched.running.getLast? with
      | none => (plan, false)
      | some victim =>
        if victim.id = req.id then (plan.preempt req, false)
        else allocateRunning req nTotalTokens turns ((plan.refund victim.id).preempt victim)

/-- Phase 1 from place `index` of `running_` on; every turn moves on by one place. -/
def scheduleRunning : Nat → Nat → Plan M → Plan M
  | 0, _, plan => plan
  | turns + 1, index, plan =>
    match plan.sched.running[index]? with
    | none => plan
    | some req =>
      if plan.budget = 0 then plan
      else
        let nNew := wanted plan.sched.cfg plan.budget req req.numComputedTokens
        if nNew = 0 then scheduleRunning turns (index + 1) plan
        else
          let nSpec := wantedSpec plan.sched.cfg plan.budget req nNew
          let nNew := nNew + nSpec
          match allocateRunning req (req.numComputedTokens + nNew)
              plan.sched.running.length plan with
          | (plan, false) => plan
          | (plan, true) =>
            scheduleRunning turns (index + 1) (plan.push plan.sched
              { req := req.id, nNewTokens := nNew, nSpec := nSpec, resumed := false })

/-- The prefix lookup of phase 2: the request with its hashes, and the cached blocks. -/
def lookup (pool : BlockPool) (req : Request M) : Request M × List Nat :=
  if req.numComputedTokens = 0 then
    let hashes := updateHashes pool.blockSize req.blockHashes req.tokens req.opts.cacheSalt
    ({ req with blockHashes := hashes }, pool.getComputedBlocks req.tokens hashes)
  else (req, [])

/-- `n_computed` of phase 2. -/
def computedAt (pool : BlockPool) (req : Request M) (computedBlocks : List Nat) : Nat :=
  if req.numComputedTokens = 0 then computedBlocks.length * pool.blockSize
  else req.numComputedTokens

/-- Phase 2 over the waiting queue. -/
def scheduleWaiting : List (Request M) → Plan M → Plan M
  | [], plan => plan
  | first :: rest, plan =>
    let cfg := plan.sched.cfg
    if plan.budget = 0 ∨ cfg.maxNumSeqs ≤ plan.sched.running.length then plan
    else
      let (req, computedBlocks) := lookup plan.sched.pool first
      let plan := { plan with sched := { plan.sched with waiting := req :: rest } }
      let nComputed := computedAt plan.sched.pool req computedBlocks
      if cfg.enableChunkedPrefill = false ∧ chunk cfg req nComputed > plan.budget then plan
      else
        let nNew := wanted cfg plan.budget req nComputed
        if nNew = 0 then plan
        else
          match plan.sched.pool.allocateSlots req.kv (nComputed + nNew) computedBlocks with
          | (false, _, _) => plan
          | (true, kv, pool) =>
            let sched := { plan.sched with
              pool := pool
              waiting := rest
              running := plan.sched.running ++ [req.admitted kv nComputed] }
            scheduleWaiting rest (plan.push sched
              { req := req.id, nNewTokens := nNew, resumed := req.status = .preempted })

end Plan

namespace Scheduler

variable {M : Model}

def schedule (s : Scheduler M) : SchedulerOutput × Scheduler M :=
  let plan := Plan.scheduleRunning s.running.length 0
    { sched := s, budget := s.cfg.maxNumBatchedTokens }
  let plan := if plan.out.preempted.isEmpty then
    Plan.scheduleWaiting plan.sched.waiting plan else plan
  (plan.out, plan.sched)

/-- The turn of `update_after_step` for one scheduled request: `num_computed_tokens`
advances and full blocks are committed, never beyond the request's own tokens. -/
def commit (s : Scheduler M) (entry : ScheduledRequest) : Scheduler M :=
  match s.find entry.req with
  | none => s
  | some req =>
    if req.isFinished then s
    else
      let computed := req.numComputedTokens + entry.nNewTokens
      let hashes := updateHashes s.pool.blockSize req.blockHashes req.tokens req.opts.cacheSalt
      let (kv, pool) := s.pool.cacheBlocks req.kv req.tokens (min computed req.nTokens) hashes
        req.opts.cacheSalt
      { s with pool := pool }.store (req.committed kv hashes computed)

def updateAfterStep (s : Scheduler M) (scheduled : List ScheduledRequest) : Scheduler M :=
  scheduled.foldl commit s

end Scheduler

end Iian
